import SegregatedFit.Check.Violation

namespace SegregatedFit

inductive Level
  | trace
  | debug
  | warning
  | error
  deriving DecidableEq, Repr

inductive Entry
  | reserved (capacity address : Nat)
  | initialised (prologue : Block) (heapSize : Nat)
  | extended (size : Nat) (block : Block)
  | exhausted (heapSize size : Nat)
  | pushed (cls : SizeClass) (block : Block)
  | poppedHead (cls : SizeClass) (block : Block)
  | unlinked (cls : SizeClass) (block : Block)
  | coalesced (block : Block) (prevAllocated nextAllocated : Bool) (merged : Block) (size : Nat)
  | carved (block : Block) (size : Nat) (rest : Block) (restSize : Nat)
  | taken (block : Block) (wanted size : Nat)
  | allocated (size : Nat) (block : Block)
  | released (block : Block) (size : Nat)
  | reallocated (old new : Block) (copied : Nat)
  | violated (context : String) (violation : Violation)
  deriving DecidableEq, Repr

namespace Entry

def level : Entry → Level
  | .reserved .. | .initialised .. | .extended .. => .debug
  | .exhausted .. => .warning
  | .violated .. => .error
  | .pushed .. | .poppedHead .. | .unlinked .. | .coalesced .. | .carved .. | .taken ..
  | .allocated .. | .released .. | .reallocated .. => .trace

private def use (allocated : Bool) : String := if allocated then "used" else "free"

def text (address : Nat → String) : Entry → String
  | .reserved capacity start => s!"memlib: reserved {capacity} bytes at {address start}"
  | .initialised prologue heapSize =>
    s!"heap initialised: prologue at {hex prologue}, {heapSize} bytes"
  | .extended size block => s!"heap extended by {size} bytes at {hex block}"
  | .exhausted heapSize size =>
    s!"arena exhausted: can't grow a {heapSize} byte heap by {size} bytes"
  | .pushed cls block => s!"free list {cls}: pushed {hex block}"
  | .poppedHead cls block => s!"free list {cls}: popped head {hex block}"
  | .unlinked cls block => s!"free list {cls}: unlinked {hex block}"
  | .coalesced block prevAllocated nextAllocated merged size =>
    s!"coalesce {hex block}: prev {use prevAllocated} next {use nextAllocated} -> " ++
      s!"{hex merged} ({size} bytes)"
  | .carved block size rest restSize =>
    s!"place {size} bytes at {hex block}, split off {hex rest} ({restSize} bytes)"
  | .taken block wanted size =>
    s!"place {wanted} bytes at {hex block}, whole block of {size} bytes"
  | .allocated size block => s!"allocate {size} bytes -> {hex block}"
  | .released block size => s!"release {hex block} ({size} bytes)"
  | .reallocated old new copied =>
    s!"reallocate {hex old} -> {hex new} ({copied} bytes copied)"
  | .violated context violation => s!"heap check at {context}: {violation.text}"

end Entry

end SegregatedFit
