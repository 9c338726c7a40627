import SegregatedFit.Arena
import SegregatedFit.Memory.Bytes

namespace SegregatedFit

structure Buffer where
  data : ByteArray
  limit : Nat

namespace Buffer

def new (limit : Nat) : Buffer := ⟨ByteArray.empty, limit⟩

def appendZeros (data : ByteArray) : Nat → ByteArray
  | 0 => data
  | n + 1 => appendZeros (data.push 0) n

theorem size_appendZeros (data : ByteArray) (n : Nat) :
    (appendZeros data n).size = data.size + n := by
  induction n generalizing data with
  | zero => rfl
  | succ n ih => rw [appendZeros, ih, ByteArray.size_push]; omega

theorem get_appendZeros (data : ByteArray) (n i : Nat) :
    Bytes.get (appendZeros data n) i = Bytes.get data i := by
  induction n generalizing data with
  | zero => rfl
  | succ n ih =>
    rw [appendZeros, ih, Bytes.get_push]
    split
    · subst i
      exact (Bytes.get_outside data _ (Nat.le_refl _)).symm
    · rfl

def admits (b : Buffer) (n : Nat) : Except Fault Bool :=
  let size := b.data.size + n
  if b.limit < size ∨ offsetLimit ≤ size then .ok false
  else if 1 <<< 63 ≤ size then .error .overflow
  else .ok true

instance : BoundedArena Buffer where
  size b := b.data.size
  byte b := Bytes.get b.data
  update b start count value := { b with data := Bytes.update b.data start count value }
  size_update b := Bytes.size_update b.data
  byte_update b := Bytes.get_update b.data
  byte_outside b := Bytes.get_outside b.data
  capacity := limit
  admits := admits
  extend b n := { b with data := appendZeros b.data n }
  capacity_update _ _ _ _ := rfl
  capacity_extend _ _ := rfl
  admits_eq_false b n := by
    simp only [admits]
    grind
  admits_defined b n small := by
    unfold admits
    dsimp only
    split
    · exact ⟨false, rfl⟩
    · exact ⟨true, if_neg (by omega)⟩
  size_extend b n _ := size_appendZeros b.data n
  byte_extend b n i _ := get_appendZeros b.data n i
  blank_extend b n i outside :=
    (get_appendZeros b.data n i).trans (Bytes.get_outside b.data i outside)

end Buffer

end SegregatedFit
