import SegregatedFit.SizeClass
import SegregatedFit.Tag

namespace SegregatedFit

abbrev Block := Nat

structure Span where
  block : Nat
  tag : Tag
  deriving DecidableEq, Repr

namespace Block

def overhead : Nat := 8

def alignment : Nat := 8

def linkBytes : Nat := 8

def minSize : Nat := 16

variable {M : Type} [Memory M]

def headerOffset (b : Block) : Except Fault Nat := minus b Tag.bytes

def footerOffset (b : Block) (size : Nat) : Except Fault Nat := do
  minus (← plus b size) overhead

def tagAt (m : M) (offset : Nat) : Except Fault Tag := return ⟨← Memory.word m offset⟩

def tag (m : M) (b : Block) : Except Fault Tag := do tagAt m (← headerOffset b)

def size (m : M) (b : Block) : Except Fault Nat := return (← tag m b).size

def allocated (m : M) (b : Block) : Except Fault Bool := return (← tag m b).allocated

def footer (m : M) (b : Block) : Except Fault Nat := do footerOffset b (← size m b)

def next (m : M) (b : Block) : Except Fault Block := do plus b (← size m b)

def prev (m : M) (b : Block) : Except Fault Block := do
  minus b (← tagAt m (← minus b overhead)).size

def link (m : M) (b : Block) : Except Fault Block := do
  Memory.ensure m b linkBytes
  return Memory.readNat m b linkBytes

def payloadSize (m : M) (b : Block) : Except Fault Nat := do minus (← size m b) overhead

/-- At most `limit` blocks in the order of memory, from `b` to the first one of size zero. The walk
also ends where a header would be outside. -/
def walk (m : M) : Nat → Block → Except Fault (List Span)
  | 0, _ => return []
  | limit + 1, b => do
    if b < Tag.bytes ∨ Memory.size m < b then return []
    let tag ← tag m b
    if tag.size = 0 then return []
    let rest ← walk m limit (← plus b tag.size)
    return ⟨b, tag⟩ :: rest

/-- All blocks from `b` on: each takes eight bytes or more, so there are no more than bytes. -/
def chain (m : M) (b : Block) : Except Fault (List Span) := walk m (Memory.size m + 1) b

end Block

end SegregatedFit
