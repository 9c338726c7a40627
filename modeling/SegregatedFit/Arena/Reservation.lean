import SegregatedFit.Arena
import SegregatedFit.HeapError
import SegregatedFit.Journal
import SegregatedFit.Memory.Sparse

/-!
An arena inside a region of addresses that the system reserves once, in whole pages and filled with
zeros. The arena is the part of the region below its break; growing moves the break.
-/

namespace SegregatedFit

/-- What is asked of the operating system: `reserve n` is the address of a region of `n` bytes. -/
structure System where
  pageSize : Nat
  reserve : Nat → Option Nat

/--
Pages of 4096 bytes, 32 GiB of memory and addresses of 47 bits: a region as large as the memory is
refused, and a smaller one fits above its address.
-/
def System.usual : System where
  pageSize := 4096
  reserve n := if n < 1 <<< 35 then some (127 <<< 40) else none

structure Reservation where
  base : Nat
  capacity : Nat
  brk : Nat
  extensions : Nat
  region : Sparse
  brk_le_capacity : brk ≤ capacity
  blank : ∀ i, brk ≤ i → region.get i = 0

namespace Reservation

def fresh (base capacity : Nat) : Reservation where
  base := base
  capacity := capacity
  brk := 0
  extensions := 0
  region := .blank
  brk_le_capacity := Nat.zero_le _
  blank i _ := Sparse.get_blank i

def new (system : System) (wanted : Nat) : Except Fault (Except HeapError Reservation) := do
  let capacity ← roundUp (max wanted 1) system.pageSize
  match system.reserve capacity with
  | none => return .error (.arenaExhausted capacity 0)
  | some base => return .ok (fresh base capacity)

def acquire (system : System) (wanted : Nat) :
    EStateM Fault (Array Entry) (Except HeapError Reservation) := fun journal =>
  match new system wanted with
  | .error fault => .error fault journal
  | .ok (.error error) => .ok (.error error) journal
  | .ok (.ok r) => .ok (.ok r) (journal.push (.reserved r.capacity r.base))

def address (r : Reservation) (offset : Nat) : Nat := (r.base + offset) % offsetLimit

def offset (r : Reservation) (address : Nat) : Nat :=
  (address + (offsetLimit - r.base % offsetLimit)) % offsetLimit

theorem offset_address (r : Reservation) (b : Nat) (small : b < offsetLimit) :
    r.offset (r.address b) = b := by
  simp only [offset, address, offsetLimit, Nat.reduceShiftLeft] at *
  omega

def update (r : Reservation) (start count : Nat) (value : Nat → UInt8) : Reservation :=
  if inside : start + count ≤ r.brk then
    { r with
      region := r.region.update start count value
      blank := fun i outside => by
        rw [Sparse.get_update, if_neg (by omega), r.blank i outside] }
  else r

def admits (r : Reservation) (n : Nat) : Bool :=
  r.brk + n < offsetLimit && r.brk + n ≤ r.capacity

def extend (r : Reservation) (n : Nat) : Reservation :=
  if room : r.brk + n ≤ r.capacity then
    { r with
      brk := r.brk + n
      extensions := r.extensions + 1
      brk_le_capacity := room
      blank := fun i outside => r.blank i (by omega) }
  else r

theorem byte_extend (r : Reservation) (n i : Nat) :
    (r.extend n).region.get i = r.region.get i := by
  unfold extend
  split <;> rfl

instance : BoundedArena Reservation where
  size r := r.brk
  byte r i := r.region.get i
  update := update
  size_update r start count value := by unfold update; split <;> rfl
  byte_update r start count value i inside := by
    simp only [update, dif_pos inside]
    exact Sparse.get_update _ _ _ _ _
  byte_outside r i outside := r.blank i outside
  capacity := capacity
  admits r n := .ok (admits r n)
  extend := extend
  capacity_update r start count value := by unfold update; split <;> rfl
  capacity_extend r n := by
    unfold extend
    split <;> rfl
  admits_eq_false r n := by
    simp [admits]
    omega
  admits_defined r n _ := ⟨_, rfl⟩
  size_extend r n admitted := by
    simp [admits] at admitted
    simp [extend, admitted]
  byte_extend r n i _ := byte_extend r n i
  blank_extend r n i outside := (byte_extend r n i).trans (r.blank i outside)

end Reservation

end SegregatedFit
