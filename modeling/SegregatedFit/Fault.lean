/-!
Faults: what stops an operation for good. A fault is not an answer of the heap, it is the sign that
the memory or the caller broke a rule the heap relies on. The three faults that assert a rule of the
heap have a text, the others only say that the machine gave up: `endless` stands for a search that
would never end.
-/

namespace SegregatedFit

def hex (n : Nat) : String := "0x" ++ String.ofList (Nat.toDigits 16 n)

inductive Fault
  | notListed (block list : Nat)
  | tooSmall (wanted size : Nat)
  | oversizedTag
  | overflow
  | outOfBounds
  | endless
  deriving DecidableEq, Repr

def Fault.assertion? : Fault → Option String
  | .notListed block list => some s!"block {hex block} is not on free list {list}"
  | .tooSmall wanted size => some s!"placing {wanted} bytes in a {size} byte block"
  | .oversizedTag => some "assertion failed: size <= MAX_BLOCK_SIZE"
  | .overflow | .outOfBounds | .endless => none

end SegregatedFit
