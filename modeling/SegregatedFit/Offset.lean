import SegregatedFit.Fault

namespace SegregatedFit

def offsetLimit : Nat := 1 <<< 64

def plus (a b : Nat) : Except Fault Nat :=
  if a + b < offsetLimit then .ok (a + b) else .error .overflow

def minus (a b : Nat) : Except Fault Nat :=
  if b ≤ a then .ok (a - b) else .error .overflow

def times? (a b : Nat) : Option Nat :=
  if a * b < offsetLimit then some (a * b) else none

def clearBits (n mask : Nat) : Nat := n - (n &&& mask)

def roundUp (n unit : Nat) : Except Fault Nat := do
  let past ← plus n unit
  let top ← minus past 1
  let mask ← minus unit 1
  return clearBits top mask

/-- Like `roundUp`, but a result out of range is no fault. -/
def roundUp? (n unit : Nat) : Except Fault (Option Nat) := do
  let mask ← minus unit 1
  return if n + mask < offsetLimit then some (clearBits (n + mask) mask) else none

theorem plus_eq_ok {a b c : Nat} : plus a b = .ok c ↔ a + b < offsetLimit ∧ a + b = c := by
  unfold plus
  split <;> simp [*]

theorem clearBits_two_pow (n k : Nat) :
    clearBits n (1 <<< k - 1) = n / (1 <<< k) * (1 <<< k) := by
  rw [clearBits, Nat.one_shiftLeft, Nat.and_two_pow_sub_one_eq_mod]
  have := Nat.div_add_mod' n (2 ^ k)
  omega

end SegregatedFit
