import SegregatedFit.Memory.Basic

namespace SegregatedFit

namespace Bytes

def get (bytes : ByteArray) (i : Nat) : UInt8 := if inside : i < bytes.size then bytes[i] else 0

def set (bytes : ByteArray) (i : Nat) (v : UInt8) : ByteArray :=
  if inside : i < bytes.size then bytes.set i v inside else bytes

def update (bytes : ByteArray) (start : Nat) : Nat → (Nat → UInt8) → ByteArray
  | 0, _ => bytes
  | n + 1, value => update (set bytes start (value start)) (start + 1) n value

theorem size_set (bytes : ByteArray) (i : Nat) (v : UInt8) : (set bytes i v).size = bytes.size := by
  by_cases inside : i < bytes.size
  · rw [set, dif_pos inside]
    change (bytes.set i v inside).data.size = bytes.data.size
    rw [ByteArray.data_set, Array.size_set]
  · rw [set, dif_neg inside]

theorem get_set (bytes : ByteArray) (i j : Nat) (v : UInt8) (inside : i < bytes.size) :
    get (set bytes i v) j = if j = i then v else get bytes j := by
  have same_size := size_set bytes i v
  simp only [set, dif_pos inside] at same_size ⊢
  simp only [get, same_size, ByteArray.getElem_eq_getElem_data, ByteArray.data_set,
    Array.getElem_set]
  grind

theorem size_update (bytes : ByteArray) (start count : Nat) (value : Nat → UInt8) :
    (update bytes start count value).size = bytes.size := by
  induction count generalizing bytes start with
  | zero => rfl
  | succ n ih => rw [update, ih, size_set]

theorem get_update (bytes : ByteArray) (start count : Nat) (value : Nat → UInt8) (i : Nat)
    (inside : start + count ≤ bytes.size) :
    get (update bytes start count value) i =
      if start ≤ i ∧ i < start + count then value i else get bytes i := by
  induction count generalizing bytes start with
  | zero => rw [update, if_neg (by omega)]
  | succ n ih =>
    rw [update, ih _ _ (by rw [size_set]; omega), get_set _ _ _ _ (by omega)]
    by_cases later : start + 1 ≤ i ∧ i < start + 1 + n
    · rw [if_pos later, if_pos (by omega)]
    · rw [if_neg later]
      by_cases first : i = start
      · rw [if_pos first, if_pos (by omega), first]
      · rw [if_neg first, if_neg (by omega)]

theorem get_outside (bytes : ByteArray) (i : Nat) (outside : bytes.size ≤ i) : get bytes i = 0 :=
  dif_neg (by omega)

theorem get_push (bytes : ByteArray) (v : UInt8) (i : Nat) :
    get (bytes.push v) i = if i = bytes.size then v else get bytes i := by
  simp only [get, ByteArray.getElem_eq_getElem_data, ByteArray.size_push]
  by_cases old : i < bytes.size
  · rw [dif_pos (by omega), dif_pos old, if_neg (by omega)]
    exact Array.getElem_push_lt old
  · rw [dif_neg old]
    by_cases first : i = bytes.size
    · subst first
      rw [dif_pos (by omega), if_pos rfl]
      exact Array.getElem_push_eq
    · rw [dif_neg (by omega), if_neg first]

end Bytes

instance : Memory ByteArray where
  size := ByteArray.size
  byte := Bytes.get
  update := Bytes.update
  size_update := Bytes.size_update
  byte_update := Bytes.get_update
  byte_outside := Bytes.get_outside

end SegregatedFit
