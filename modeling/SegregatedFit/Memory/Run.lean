import SegregatedFit.Memory.Bytes

namespace SegregatedFit

namespace Memory

variable {M : Type} [Memory M]

def appendRun (m : M) : Nat → Nat → ByteArray → ByteArray
  | _, 0, bytes => bytes
  | start, n + 1, bytes => appendRun m (start + 1) n (bytes.push (byte m start))

def readRun (m : M) (start count : Nat) : ByteArray := appendRun m start count ByteArray.empty

def writeRun (m : M) (start : Nat) (bytes : ByteArray) : M :=
  update m start bytes.size fun i => Bytes.get bytes (i - start)

def fill (m : M) (start count : Nat) (value : UInt8) : M := update m start count fun _ => value

def slice (m : M) (start count : Nat) : Except Fault ByteArray := do
  ensure m start count
  return readRun m start count

theorem size_appendRun (m : M) (start n : Nat) (bytes : ByteArray) :
    (appendRun m start n bytes).size = bytes.size + n := by
  induction n generalizing start bytes with
  | zero => rfl
  | succ n ih => rw [appendRun, ih, ByteArray.size_push]; omega

theorem get_appendRun (m : M) (start n : Nat) (bytes : ByteArray) (i : Nat) :
    Bytes.get (appendRun m start n bytes) i =
      if i < bytes.size then Bytes.get bytes i
      else if i < bytes.size + n then byte m (start + (i - bytes.size)) else 0 := by
  induction n generalizing start bytes with
  | zero =>
    rw [appendRun]
    split
    · rfl
    · rw [if_neg (by omega)]
      exact Bytes.get_outside _ _ (by omega)
  | succ n ih =>
    rw [appendRun, ih, ByteArray.size_push]
    by_cases old : i < bytes.size
    · rw [if_pos (by omega), if_pos old, Bytes.get_push, if_neg (by omega)]
    · rw [if_neg old]
      by_cases first : i = bytes.size
      · rw [if_pos (by omega), if_pos (by omega), Bytes.get_push, if_pos first]
        simp [first]
      · rw [if_neg (by omega)]
        split
        · rw [if_pos (by omega)]
          congr 1
          omega
        · rw [if_neg (by omega)]

@[simp] theorem size_readRun (m : M) (start count : Nat) :
    (readRun m start count).size = count := by
  simp [readRun, size_appendRun]

theorem get_readRun (m : M) (start count i : Nat) (inside : i < count) :
    Bytes.get (readRun m start count) i = byte m (start + i) := by
  simp [readRun, get_appendRun, inside]

@[simp] theorem size_writeRun (m : M) (start : Nat) (bytes : ByteArray) :
    size (writeRun m start bytes) = size m :=
  size_update _ _ _ _

theorem byte_writeRun (m : M) (start : Nat) (bytes : ByteArray) (i : Nat)
    (inside : start + bytes.size ≤ size m) :
    byte (writeRun m start bytes) i =
      if start ≤ i ∧ i < start + bytes.size then Bytes.get bytes (i - start) else byte m i :=
  byte_update _ _ _ _ _ inside

@[simp] theorem size_fill (m : M) (start count : Nat) (value : UInt8) :
    size (fill m start count value) = size m :=
  size_update _ _ _ _

theorem byte_fill (m : M) (start count : Nat) (value : UInt8) (i : Nat)
    (inside : start + count ≤ size m) :
    byte (fill m start count value) i =
      if start ≤ i ∧ i < start + count then value else byte m i :=
  byte_update _ _ _ _ _ inside

end Memory

end SegregatedFit
