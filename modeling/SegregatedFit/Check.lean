import SegregatedFit.Heap.Basic

/-!
The checker. It trusts neither a tag nor a link: it looks at the prologue, follows all lists, walks
the chain of blocks, and compares the two. What it finds comes in this order, and it always comes to
an end.
-/

namespace SegregatedFit

namespace Check

variable {M : Type} [Memory M]

def prologue (m : M) (b : Block) : Except Fault (List Violation) := do
  let header ← Block.tag m b
  let footer ← Block.tagAt m b
  let expected ← Tag.pack Block.overhead true
  return if header = expected ∧ header = footer then [] else [.malformedPrologue header footer]

def outside (m : M) (b : Block) : Except Fault Bool := do
  if b < Tag.bytes then return true
  if Memory.last m < (← Block.headerOffset b) then return true
  return Memory.size m < (← plus b Block.linkBytes)

inductive ListEnd
  | terminated
  | outside (b : Block)
  | endless
  deriving DecidableEq, Repr

/-- The blocks of the list starting at `b`, behind those seen before, and how the list ends. A list
with more blocks than there is room for never ends. -/
def follow (m : M) (room : Nat) (b : Block) (seen : List Block) :
    Except Fault (List Block × ListEnd) := do
  if ← outside m b then return (seen, .outside b)
  if ← Block.allocated m b then return (seen, .terminated)
  match room with
  | 0 => return (seen, .endless)
  | room + 1 => follow m room (← Block.link m b) (b :: seen)

def listRoom (m : M) : Nat := Memory.size m / Block.minSize + 1

def ListEnd.violations (cls : SizeClass) : ListEnd → List Violation
  | .terminated => []
  | .outside b => [.listOutside cls b]
  | .endless => [.endlessList cls]

abbrev Listed := List (Block × SizeClass)

def followAll (m : M) (lists : FreeLists) :
    List SizeClass → Except Fault (Listed × List Violation)
  | [] => return ([], [])
  | cls :: classes => do
    let (blocks, ending) ← follow m (listRoom m) (lists.head cls) []
    let (listed, violations) ← followAll m lists classes
    return (blocks.map (·, cls) ++ listed, ending.violations cls ++ violations)

def before (a b : Block × SizeClass) : Bool := a.1 < b.1 || a.1 == b.1 && a.2 ≤ b.2

def Listed.ordered (listed : Listed) : Listed := (listed.mergeSort before).eraseReps

/-- The blocks from `b` on as far as they can be followed, and what is wrong where they end. -/
def survey (m : M) : Nat → Block → Except Fault (List Span × List Violation)
  | 0, _ => .error .endless
  | fuel + 1, b => do
    if Memory.size m < b then return ([], [.blockOutside b])
    let tag ← Block.tag m b
    if tag.size = 0 then
      let proper := tag.allocated && b == Memory.size m
      return ([], if proper then [] else [.malformedEpilogue b tag])
    let behind ← plus (← Block.footerOffset b tag.size) Tag.bytes
    if Memory.size m < behind then return ([], [.blockOutside b])
    let (spans, violations) ← survey m fuel (← plus b tag.size)
    return (⟨b, tag⟩ :: spans, violations)

def freeBlock (listed : Listed) (freeBefore : Option Block) (span : Span) : List Violation :=
  let cls := SizeClass.ofSize span.tag.size
  (match freeBefore with
    | some first => [.adjacentFree first span.block]
    | none => []) ++
  if (span.block, cls) ∈ listed then [] else [.notInFreeList span.block cls]

def block (m : M) (listed : Listed) (freeBefore : Option Block) (span : Span) :
    Except Fault (List Violation) := do
  let footer ← Block.tagAt m (← Block.footerOffset span.block span.tag.size)
  let size := span.tag.size
  return (if span.tag = footer then [] else [.tagMismatch span.block span.tag footer]) ++
    (if Block.minSize ≤ size then [] else [.blockTooSmall span.block size]) ++
    (if span.block % Block.alignment = 0 then [] else [.misaligned span.block]) ++
    if span.tag.allocated then [] else freeBlock listed freeBefore span

def blocks (m : M) (listed : Listed) : Option Block → List Span → Except Fault (List Violation)
  | _, [] => return []
  | freeBefore, span :: spans => do
    let here ← block m listed freeBefore span
    let rest ← blocks m listed (if span.tag.allocated then none else some span.block) spans
    return here ++ rest

def member (spans : List Span) (entry : Block × SizeClass) : List Violation :=
  match spans.find? (·.block == entry.1) with
  | none => [.unreachable entry.2 entry.1]
  | some span =>
    if SizeClass.ofSize span.tag.size = entry.2 then []
    else [.wrongClass entry.2 entry.1 span.tag.size]

end Check

namespace Heap

variable {M : Type} [Memory M]

def violations (h : Heap M) : Except Fault (List Violation) := do
  let atPrologue ← Check.prologue h.memory h.prologue
  let (found, atLists) ← Check.followAll h.memory h.lists SizeClass.all
  let listed := found.ordered
  let (spans, atEnd) ← Check.survey h.memory (Memory.size h.memory + 1) (← h.firstBlock)
  let atBlocks ← Check.blocks h.memory listed none spans
  return atPrologue ++ atLists ++ atBlocks ++ atEnd ++ listed.flatMap (Check.member spans)

def check (context : String) : HeapM M (Except Report Unit) := do
  let found ← (← get).violations
  if found.isEmpty then return .ok ()
  for violation in found do record (.violated context violation)
  return .error ⟨context, found⟩

end Heap

end SegregatedFit
