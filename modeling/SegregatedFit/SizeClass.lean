import SegregatedFit.Offset

namespace SegregatedFit

abbrev SizeClass := Fin 25

namespace SizeClass

def all : List SizeClass := List.finRange 25

def ofIndex (i : Nat) : Except Fault SizeClass :=
  if known : i < 25 then .ok ⟨i, known⟩ else .error .outOfBounds

def exponent (size : Nat) : Nat := if size ≤ 1 then 0 else (size - 1).log2 + 1

def ofSize (size : Nat) : SizeClass := ⟨min (exponent size) 24, by omega⟩

/-- Sizes whose next power of two is no offset any more have no class. -/
def ofRequest (size : Nat) : Except Fault SizeClass :=
  if size ≤ 1 <<< 63 then .ok (ofSize size) else .error .overflow

theorem exponent_le_iff (size k : Nat) : exponent size ≤ k ↔ size ≤ 1 <<< k := by
  rw [Nat.one_shiftLeft]
  have positive := Nat.two_pow_pos k
  unfold exponent
  split
  · omega
  · have := Nat.log2_lt (n := size - 1) (k := k) (by omega)
    omega

theorem ofSize_mono {a b : Nat} (le : a ≤ b) : ofSize a ≤ ofSize b := by
  have := (exponent_le_iff a (exponent b)).mpr
    (Nat.le_trans le ((exponent_le_iff b (exponent b)).mp (Nat.le_refl _)))
  simp only [ofSize, Fin.mk_le_mk]
  omega

end SizeClass

end SegregatedFit
