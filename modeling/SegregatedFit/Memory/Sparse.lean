import Std.Data.TreeMap
import SegregatedFit.Memory.Bytes

/-!
A store of bytes without an end, all zero at first. Only leaves that have been written take space.
`get_update` is the law of the store.
-/

namespace SegregatedFit

def leafSize : Nat := 1 <<< 16

structure Leaf where
  bytes : ByteArray
  size_bytes : bytes.size = leafSize

namespace Leaf

def blank : Leaf := ⟨⟨Array.replicate leafSize 0⟩, by simp [ByteArray.size]⟩

def get (leaf : Leaf) (i : Nat) : UInt8 := Bytes.get leaf.bytes i

def update (leaf : Leaf) (start count : Nat) (value : Nat → UInt8) : Leaf :=
  ⟨Bytes.update leaf.bytes start count value, (Bytes.size_update ..).trans leaf.size_bytes⟩

theorem get_blank (i : Nat) : blank.get i = 0 := by
  simp [blank, get, Bytes.get, ByteArray.getElem_eq_getElem_data]

theorem get_update (leaf : Leaf) (start count : Nat) (value : Nat → UInt8) (i : Nat)
    (inside : start + count ≤ leafSize) :
    (leaf.update start count value).get i =
      if start ≤ i ∧ i < start + count then value i else leaf.get i :=
  Bytes.get_update _ _ _ _ _ (by rw [leaf.size_bytes]; exact inside)

end Leaf

structure Sparse where
  leaves : Std.TreeMap Nat Leaf

namespace Sparse

def blank : Sparse := ⟨∅⟩

def get (s : Sparse) (i : Nat) : UInt8 :=
  match s.leaves[i / leafSize]? with
  | some leaf => leaf.get (i % leafSize)
  | none => 0

def updateLeaf (s : Sparse) (start count : Nat) (value : Nat → UInt8) : Sparse :=
  let first := start / leafSize * leafSize
  ⟨s.leaves.alter (start / leafSize) fun leaf =>
    some ((leaf.getD .blank).update (start % leafSize) count fun i => value (first + i))⟩

def updateLeaves (s : Sparse) (value : Nat → UInt8) : Nat → Nat → Nat → Sparse
  | 0, _, _ => s
  | fuel + 1, start, count =>
    if count = 0 then s
    else
      let here := min count (leafSize - start % leafSize)
      updateLeaves (s.updateLeaf start here value) value fuel (start + here) (count - here)

def update (s : Sparse) (start count : Nat) (value : Nat → UInt8) : Sparse :=
  updateLeaves s value count start count

theorem get_blank (i : Nat) : blank.get i = 0 := by
  simp [blank, get]

theorem get_updateLeaf (s : Sparse) (start count : Nat) (value : Nat → UInt8) (i : Nat)
    (inside : start % leafSize + count ≤ leafSize) :
    (s.updateLeaf start count value).get i =
      if start ≤ i ∧ i < start + count then value i else s.get i := by
  have at_start := Nat.div_add_mod' start leafSize
  have at_i := Nat.div_add_mod' i leafSize
  simp only [get, updateLeaf, Std.TreeMap.getElem?_alter]
  by_cases leaf : start / leafSize = i / leafSize
  · simp only [leaf, Nat.compare_eq_eq, if_true, Leaf.get_update _ _ _ _ _ inside, at_i]
    have range : (start % leafSize ≤ i % leafSize ∧ i % leafSize < start % leafSize + count) ↔
        start ≤ i ∧ i < start + count := by
      rw [leaf] at at_start
      omega
    simp only [range]
    cases s.leaves[i / leafSize]? <;> simp [Leaf.get_blank]
  · have outside : ¬(start ≤ i ∧ i < start + count) := by
      intro within
      apply leaf
      simp only [leafSize, Nat.reduceShiftLeft] at *
      omega
    rw [if_neg outside]
    simp [leaf]

theorem get_updateLeaves (s : Sparse) (value : Nat → UInt8) (fuel start count i : Nat)
    (enough : count ≤ fuel) :
    (updateLeaves s value fuel start count).get i =
      if start ≤ i ∧ i < start + count then value i else s.get i := by
  induction fuel generalizing s start count with
  | zero => rw [updateLeaves, if_neg (by omega)]
  | succ fuel ih =>
    have inside : start % leafSize < leafSize := Nat.mod_lt _ (by decide)
    rw [updateLeaves]
    split
    · rw [if_neg (by omega)]
    · simp only
      rw [ih _ _ _ (by omega), get_updateLeaf _ _ _ _ _ (by omega)]
      grind

theorem get_update (s : Sparse) (start count : Nat) (value : Nat → UInt8) (i : Nat) :
    (s.update start count value).get i =
      if start ≤ i ∧ i < start + count then value i else s.get i :=
  get_updateLeaves _ _ _ _ _ _ (Nat.le_refl _)

end Sparse

end SegregatedFit
