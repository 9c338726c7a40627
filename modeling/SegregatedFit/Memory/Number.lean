import SegregatedFit.Memory.Basic

namespace SegregatedFit

namespace Memory

variable {M : Type} [Memory M]

def readNat (m : M) (start : Nat) : Nat → Nat
  | 0 => 0
  | n + 1 => (byte m start).toNat + 256 * readNat m (start + 1) n

def writeNat (m : M) (start n value : Nat) : M :=
  update m start n fun i => UInt8.ofNat (value >>> (8 * (i - start)))

def word (m : M) (start : Nat) : Except Fault UInt32 := do
  ensure m start 4
  return UInt32.ofNat (readNat m start 4)

@[simp] theorem size_writeNat (m : M) (start n value : Nat) :
    size (writeNat m start n value) = size m :=
  size_update _ _ _ _

theorem byte_writeNat_outside (m : M) (start n value i : Nat) (inside : start + n ≤ size m)
    (outside : i < start ∨ start + n ≤ i) : byte (writeNat m start n value) i = byte m i := by
  rw [writeNat, byte_update _ _ _ _ _ inside, if_neg (by omega)]

theorem readNat_congr {m m' : M} (start n : Nat)
    (same : ∀ i, start ≤ i → i < start + n → byte m i = byte m' i) :
    readNat m start n = readNat m' start n := by
  induction n generalizing start with
  | zero => rfl
  | succ n ih =>
    rw [readNat, readNat, same start (by omega) (by omega),
      ih (start + 1) fun i low high => same i (by omega) (by omega)]

theorem readNat_lt (m : M) (start n : Nat) : readNat m start n < 1 <<< (8 * n) := by
  rw [Nat.one_shiftLeft]
  induction n generalizing start with
  | zero => simp [readNat]
  | succ n ih =>
    have low := (byte m start).toNat_lt
    have high := ih (start + 1)
    rw [readNat, Nat.mul_succ, Nat.pow_add]
    omega

theorem readNat_add (m : M) (start low high : Nat) :
    readNat m start (low + high) =
      readNat m start low + 1 <<< (8 * low) * readNat m (start + low) high := by
  induction low generalizing start with
  | zero => simp [readNat]
  | succ low ih =>
    have shifted : start + 1 + low = start + (low + 1) := by omega
    have scaled : 1 <<< (8 * (low + 1)) = 256 * 1 <<< (8 * low) := by
      rw [Nat.one_shiftLeft, Nat.one_shiftLeft, Nat.mul_succ, Nat.pow_add, Nat.mul_comm]
    rw [Nat.succ_add, readNat, ih (start + 1), readNat, shifted, scaled, Nat.mul_add, Nat.mul_assoc,
      Nat.add_assoc]

theorem readNat_of_digits (m : M) (start n value : Nat) (fits : value < 1 <<< (8 * n))
    (digits : ∀ i < n, byte m (start + i) = UInt8.ofNat (value >>> (8 * i))) :
    readNat m start n = value := by
  induction n generalizing start value with
  | zero =>
    rw [readNat]
    simp at fits
    exact fits.symm
  | succ n ih =>
    have first := digits 0 (by omega)
    have fits' : value >>> 8 < 1 <<< (8 * n) := by
      rw [Nat.one_shiftLeft, Nat.mul_succ, Nat.pow_add] at fits
      rw [Nat.one_shiftLeft, Nat.shiftRight_eq_div_pow]
      omega
    have rest := ih (start + 1) (value >>> 8) fits' fun i below => by
      have digit := digits (i + 1) (by omega)
      rw [Nat.mul_succ, Nat.add_comm (8 * i), Nat.shiftRight_add] at digit
      rwa [Nat.add_right_comm, Nat.add_assoc]
    rw [Nat.add_zero, Nat.mul_zero, Nat.shiftRight_zero] at first
    rw [readNat, rest, first, Nat.shiftRight_eq_div_pow]
    simp
    omega

theorem readNat_writeNat (m : M) (start n value : Nat) (inside : start + n ≤ size m)
    (fits : value < 1 <<< (8 * n)) :
    readNat (writeNat m start n value) start n = value :=
  readNat_of_digits _ _ _ _ fits fun i below => by
    rw [writeNat, byte_update _ _ _ _ _ inside, if_pos (by omega), Nat.add_sub_cancel_left]

end Memory

end SegregatedFit
