import SegregatedFit.Offset

/-!
Byte addressable memory. A type of memories says how a byte is read and how the bytes of a range are
replaced, and promises that this changes the range alone; bytes behind the end read as zero. All
else is built on these two.
-/

namespace SegregatedFit

class Memory (M : Type) where
  size : M → Nat
  byte : M → Nat → UInt8
  /-- In the range of `count` bytes from `start` on, byte `i` becomes `value i`. -/
  update : M → Nat → Nat → (Nat → UInt8) → M
  size_update : ∀ m start count value, size (update m start count value) = size m
  byte_update : ∀ m start count value i, start + count ≤ size m →
    byte (update m start count value) i =
      if start ≤ i ∧ i < start + count then value i else byte m i
  byte_outside : ∀ m i, size m ≤ i → byte m i = 0

namespace Memory

variable {M : Type} [Memory M]

attribute [simp] size_update

def last (m : M) : Nat := size m - 1

def ensure (m : M) (start count : Nat) : Except Fault Unit :=
  if start + count ≤ size m then .ok () else .error .outOfBounds

theorem ensure_eq_ok {m : M} {start count : Nat} :
    ensure m start count = .ok () ↔ start + count ≤ size m := by
  unfold ensure
  split <;> simp [*]

end Memory

end SegregatedFit
