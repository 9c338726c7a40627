import SegregatedFit.Memory.Number

/-!
Boundary tags. A block carries the same word at its front and at its back: its size, a multiple of
eight, with the lowest bit set while the block is in use. The two bits between are ignored.
-/

namespace SegregatedFit

structure Tag where
  word : UInt32
  deriving DecidableEq, Repr

namespace Tag

def bytes : Nat := 4

def maxSize : Nat := 1 <<< 32 - 8

def size (t : Tag) : Nat := t.word.toNat / 8 * 8

def allocated (t : Tag) : Bool := t.word.toNat % 2 == 1

/-- The low bits of `size` stay in the word, apart from the lowest one of an allocated block. -/
def pack (size : Nat) (allocated : Bool) : Except Fault Tag :=
  if size ≤ maxSize then
    .ok ⟨UInt32.ofNat (if allocated then size / 2 * 2 + 1 else size)⟩
  else .error .oversizedTag

theorem size_le (t : Tag) : t.size ≤ maxSize := by
  have := t.word.toNat_lt
  simp only [size, maxSize]
  omega

theorem size_mod (t : Tag) : t.size % 8 = 0 := by
  simp only [size]
  omega

theorem pack_of_le {size : Nat} (allocated : Bool) (small : size ≤ maxSize)
    (aligned : size % 8 = 0) :
    ∃ t, pack size allocated = .ok t ∧ t.size = size ∧ t.allocated = allocated := by
  simp only [maxSize] at small
  cases allocated <;> refine ⟨_, if_pos (by simpa [maxSize]), ?_, ?_⟩ <;>
    simp [Tag.size, Tag.allocated] <;> omega

end Tag

end SegregatedFit
