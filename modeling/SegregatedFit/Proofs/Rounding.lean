import Mathlib.Order.Bounds.Basic
import SegregatedFit.Proofs.Steps

namespace SegregatedFit

variable {n k r : Nat}

theorem unit_pos (k : Nat) : 0 < 1 <<< k := Nat.one_shiftLeft k ▸ Nat.two_pow_pos k

/-- As many bytes as `n` or more, in whole units of `2 ^ k`. -/
def wholeUnits (n k : Nat) : Nat := (n + 1 <<< k - 1) / (1 <<< k) * (1 <<< k)

theorem isLeast_wholeUnits (n k : Nat) :
    IsLeast {whole | whole % (1 <<< k) = 0 ∧ n ≤ whole} (wholeUnits n k) := by
  have positive := unit_pos k
  have covers : n ≤ wholeUnits n k := by
    have whole := Nat.lt_div_mul_add (a := n + 1 <<< k - 1) positive
    unfold wholeUnits
    omega
  refine ⟨⟨Nat.mul_mod_left .., covers⟩, fun whole ⟨divides, enough⟩ => ?_⟩
  obtain ⟨q, rfl⟩ := Nat.dvd_of_mod_eq_zero divides
  have fewer : (n + 1 <<< k - 1) / (1 <<< k) ≤ q := by
    rw [Nat.div_le_iff_le_mul_add_pred positive]
    omega
  calc
    wholeUnits n k ≤ q * (1 <<< k) := Nat.mul_le_mul_right _ fewer
    _ = 1 <<< k * q := Nat.mul_comm ..

theorem wholeUnits_of_divides (divides : n % (1 <<< k) = 0) : wholeUnits n k = n := by
  obtain ⟨⟨_, covers⟩, least⟩ := isLeast_wholeUnits n k
  exact Nat.le_antisymm (least ⟨divides, Nat.le_refl n⟩) covers

theorem offsetLimit_mod (power : k < 64) : offsetLimit % (1 <<< k) = 0 := by
  rw [offsetLimit, Nat.one_shiftLeft, Nat.one_shiftLeft]
  exact Nat.mod_eq_zero_of_dvd (Nat.pow_dvd_pow 2 (by omega))

theorem wholeUnits_lt_iff (power : k < 64) :
    wholeUnits n k < offsetLimit ↔ n + 1 <<< k ≤ offsetLimit := by
  obtain ⟨⟨divides, covers⟩, least⟩ := isLeast_wholeUnits n k
  have limit := offsetLimit_mod power
  have positive := unit_pos k
  constructor
  · intro inside
    have apart : (offsetLimit - wholeUnits n k) % (1 <<< k) = 0 :=
      Nat.mod_eq_zero_of_dvd
        (Nat.dvd_sub (Nat.dvd_of_mod_eq_zero limit) (Nat.dvd_of_mod_eq_zero divides))
    have a_unit := Nat.le_of_dvd (by omega) (Nat.dvd_of_mod_eq_zero apart)
    omega
  · intro inside
    have last : (offsetLimit - 1 <<< k) % (1 <<< k) = 0 :=
      Nat.mod_eq_zero_of_dvd
        (Nat.dvd_sub (Nat.dvd_of_mod_eq_zero limit) (Nat.dvd_refl _))
    have below := least ⟨last, by omega⟩
    omega

/-- The sum that `roundUp` starts with is out of range wherever its result would be, and also where
exactly one unit is left. -/
theorem add_unit_lt_iff (power : k < 64) : n + 1 <<< k < offsetLimit ↔
    wholeUnits n k < offsetLimit ∧ n + 1 <<< k ≠ offsetLimit := by
  rw [wholeUnits_lt_iff power]
  omega

theorem roundUp_eq (n k : Nat) : roundUp n (1 <<< k) =
    if n + 1 <<< k < offsetLimit then .ok (wholeUnits n k) else .error .overflow := by
  have positive := unit_pos k
  by_cases small : n + 1 <<< k < offsetLimit
  · simp only [roundUp, plus_of_lt small, bind, Except.bind, if_pos small,
      minus_of_le (show 1 ≤ n + 1 <<< k by omega), minus_of_le (show 1 ≤ 1 <<< k by omega), pure,
      Except.pure, clearBits_two_pow, wholeUnits]
  · simp only [roundUp, plus, if_neg small, bind, Except.bind]

theorem roundUp?_eq (n k : Nat) : roundUp? n (1 <<< k) =
    .ok (if n + 1 <<< k ≤ offsetLimit then some (wholeUnits n k) else none) := by
  have positive := unit_pos k
  have below : n + (1 <<< k - 1) < offsetLimit ↔ n + 1 <<< k ≤ offsetLimit := by omega
  simp only [roundUp?, minus_of_le (show 1 ≤ 1 <<< k by omega), bind, Except.bind, pure,
    Except.pure, clearBits_two_pow, wholeUnits, Nat.add_sub_assoc (show 1 ≤ 1 <<< k by omega),
    below]

theorem roundUp_two_pow (small : n + 1 <<< k < offsetLimit) :
    roundUp n (1 <<< k) = .ok (wholeUnits n k) :=
  (roundUp_eq n k).trans (if_pos small)

theorem of_roundUp_two_pow (rounded : roundUp n (1 <<< k) = .ok r) : r = wholeUnits n k := by
  rw [roundUp_eq] at rounded
  split at rounded
  · exact (Except.ok.inj rounded).symm
  · cases rounded

theorem isLeast_roundUp_two_pow (rounded : roundUp n (1 <<< k) = .ok r) :
    IsLeast {whole | whole % (1 <<< k) = 0 ∧ n ≤ whole} r :=
  of_roundUp_two_pow rounded ▸ isLeast_wholeUnits n k

theorem le_roundUp (rounded : roundUp n (1 <<< k) = .ok r) : n ≤ r :=
  (isLeast_roundUp_two_pow rounded).1.2

theorem eq_of_roundUp (divides : n % (1 <<< k) = 0) (rounded : roundUp n (1 <<< k) = .ok r) :
    r = n :=
  (of_roundUp_two_pow rounded).trans (wholeUnits_of_divides divides)

section Eight

theorem isLeast_roundUp (bytes : Nat) :
    IsLeast {n | n % 8 = 0 ∧ bytes ≤ n} ((bytes + 7) / 8 * 8) :=
  isLeast_wholeUnits bytes 3

theorem roundUp_eight (small : n + 8 < offsetLimit) : roundUp n 8 = .ok ((n + 7) / 8 * 8) :=
  roundUp_two_pow (k := 3) small

theorem roundUp_of_divides (divides : n % 8 = 0) (small : n + 8 < offsetLimit) :
    roundUp n 8 = .ok n :=
  (roundUp_two_pow (k := 3) small).trans (congrArg Except.ok (wholeUnits_of_divides divides))

theorem roundUp?_eight (n : Nat) :
    roundUp? n 8 = .ok (if n + 7 < offsetLimit then some ((n + 7) / 8 * 8) else none) :=
  roundUp?_eq n 3

end Eight

end SegregatedFit
