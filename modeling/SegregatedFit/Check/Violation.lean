import SegregatedFit.Block

namespace SegregatedFit

inductive Violation
  | malformedPrologue (header footer : Tag)
  | malformedEpilogue (block : Block) (header : Tag)
  | blockOutside (block : Block)
  | tagMismatch (block : Block) (header footer : Tag)
  | blockTooSmall (block : Block) (size : Nat)
  | misaligned (block : Block)
  | adjacentFree (first second : Block)
  | notInFreeList (block : Block) (list : Nat)
  | listOutside (list : Nat) (block : Block)
  | unreachable (list : Nat) (block : Block)
  | wrongClass (list : Nat) (block : Block) (size : Nat)
  | endlessList (list : Nat)
  deriving DecidableEq, Repr

def Tag.text (t : Tag) : String := hex t.word.toNat

def Violation.text : Violation → String
  | .malformedPrologue header footer =>
    s!"prologue is malformed: header {header.text}, footer {footer.text}"
  | .malformedEpilogue block header =>
    s!"epilogue at {hex block} is malformed: header {header.text}"
  | .blockOutside block => s!"block {hex block} runs outside the heap"
  | .tagMismatch block header footer =>
    s!"block {hex block}: header {header.text} and footer {footer.text} mismatch"
  | .blockTooSmall block size =>
    s!"block {hex block}: size {size} is below the minimum of {Block.minSize}"
  | .misaligned block => s!"block {hex block} is not {Block.alignment} byte aligned"
  | .adjacentFree first second => s!"free blocks {hex first} and {hex second} were not coalesced"
  | .notInFreeList block list => s!"free block {hex block} is not in free list {list}"
  | .listOutside list block => s!"free list {list}: {hex block} is outside of the heap"
  | .unreachable list block =>
    s!"free list {list}: {hex block} can't be found by walking the heap"
  | .wrongClass list block size =>
    s!"free list {list}: block {hex block} of size {size} belongs to another list"
  | .endlessList list => s!"free list {list} never reaches its terminator"

structure Report where
  context : String
  violations : List Violation
  deriving DecidableEq, Repr

def Report.text (r : Report) : String :=
  String.join (s!"heap check at {r.context} found {r.violations.length} violation(s)" ::
    r.violations.map fun v => "\n  - " ++ v.text)

end SegregatedFit
