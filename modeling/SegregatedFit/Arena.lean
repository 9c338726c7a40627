import SegregatedFit.Memory.Basic

/-!
An arena is a memory that grows at its end and keeps the bytes there are. Whether it admits growth
is asked before it grows; a fault says that the machine cannot carry out the growth at all, which
never happens below `2 ^ 63` bytes. A bounded arena admits growth up to a capacity, and what it adds
is zero.
-/

namespace SegregatedFit

class Arena (A : Type) extends Memory A where
  admits : A → Nat → Except Fault Bool
  extend : A → Nat → A
  admits_defined : ∀ a n, size a + n < 1 <<< 63 → ∃ answer, admits a n = .ok answer
  size_extend : ∀ a n, admits a n = .ok true → size (extend a n) = size a + n
  byte_extend : ∀ a n i, i < size a → byte (extend a n) i = byte a i

class BoundedArena (A : Type) extends Arena A where
  capacity : A → Nat
  capacity_update : ∀ a start count value, capacity (update a start count value) = capacity a
  capacity_extend : ∀ a n, capacity (extend a n) = capacity a
  admits_eq_false : ∀ a n,
    admits a n = .ok false ↔ capacity a < size a + n ∨ offsetLimit ≤ size a + n
  blank_extend : ∀ a n i, size a ≤ i → byte (extend a n) i = 0

namespace Arena

variable {A : Type} [Arena A]

def grow (a : A) (n : Nat) : Except Fault (Option A) := do
  if ← admits a n then return some (extend a n)
  return none

end Arena

namespace BoundedArena

variable {A : Type} [BoundedArena A]

attribute [simp] capacity_update capacity_extend

theorem admits_of_fits (a : A) (n : Nat) (fits : Memory.size a + n ≤ capacity a)
    (small : Memory.size a + n < 1 <<< 63) : Arena.admits a n = .ok true := by
  obtain ⟨answer, defined⟩ := Arena.admits_defined a n small
  cases answer with
  | true => exact defined
  | false =>
    have := (admits_eq_false a n).mp defined
    simp only [offsetLimit] at this
    omega

end BoundedArena

end SegregatedFit
