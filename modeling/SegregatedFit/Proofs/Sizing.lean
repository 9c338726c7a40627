import SegregatedFit.Arena.Reservation
import SegregatedFit.Proofs.Allocation

namespace SegregatedFit

namespace Heap

theorem blockSizeFor_eq_ite (size : Nat) : blockSizeFor size =
    .ok (if blockSize size ≤ Tag.maxSize then .ok (blockSize size)
      else .error (.sizeOverflow size)) := by
  simp only [blockSizeFor_eq, blockSize_le_iff]

/-- There is an answer for all sizes, the least size of a block that serves if a tag can hold it. It
is rounded with `roundUp?`, which finds the least number of whole units wherever that is in range.
`roundUp` finds the same, unless exactly one unit is left between `n` and the end of all offsets. -/
theorem blockSizeFor_exact (size n : Nat) {k : Nat} (power : k < 64) :
    (∃ least, IsLeast {a | a % 8 = 0 ∧ 16 ≤ a ∧ size + 8 ≤ a} least ∧
      blockSizeFor size =
        .ok (if least ≤ Tag.maxSize then .ok least else .error (.sizeOverflow size))) ∧
    ∃ whole, IsLeast {m | m % (1 <<< k) = 0 ∧ n ≤ m} whole ∧
      roundUp? n (1 <<< k) = .ok (if whole < offsetLimit then some whole else none) ∧
      roundUp n (1 <<< k) =
        if whole < offsetLimit ∧ n + 1 <<< k ≠ offsetLimit then .ok whole
        else .error .overflow := by
  constructor
  · exact ⟨blockSize size, isLeast_blockSize size, blockSizeFor_eq_ite size⟩
  · refine ⟨wholeUnits n k, isLeast_wholeUnits n k, ?_, ?_⟩
    · simp only [roundUp?_eq, wholeUnits_lt_iff power]
    · simp only [roundUp_eq, add_unit_lt_iff power]

theorem largest_block_exact : 3 < 64 ∧ blockSizeFor 4294967280 = .ok (.ok 4294967288) ∧
    roundUp? (offsetLimit - 9) 8 = .ok (some (offsetLimit - 8)) ∧
    roundUp (offsetLimit - 9) 8 = .ok (offsetLimit - 8) := by
  have power : 3 < 64 := by decide
  obtain ⟨⟨size, least, answer⟩, whole, up, checked, rounded⟩ :=
    blockSizeFor_exact 4294967280 (offsetLimit - 9) power
  have size_eq : size = 4294967288 := least.unique (isLeast_blockSize 4294967280)
  have whole_eq : whole = offsetLimit - 8 := up.unique (isLeast_wholeUnits (offsetLimit - 9) 3)
  subst size_eq whole_eq
  exact ⟨power, answer, checked, rounded⟩

/-- The number of whole units is in range, but the sum that it is computed from is not. -/
theorem last_unit_overflows : roundUp? (offsetLimit - 8) 8 = .ok (some (offsetLimit - 8)) ∧
    roundUp (offsetLimit - 8) 8 = .error .overflow := by
  decide

end Heap

namespace Reservation

variable {system : System} {wanted k : Nat}

theorem new_eq (pages : system.pageSize = 1 <<< k) (wanted : Nat) : new system wanted =
    if max wanted 1 + 1 <<< k < offsetLimit then
      .ok (match system.reserve (wholeUnits (max wanted 1) k) with
        | none => .error (.arenaExhausted (wholeUnits (max wanted 1) k) 0)
        | some base => .ok (fresh base (wholeUnits (max wanted 1) k)))
    else .error .overflow := by
  simp only [new, pages, roundUp_eq]
  split
  · cases answer : system.reserve (wholeUnits (max wanted 1) k) <;>
      simp only [bind, Except.bind, answer] <;> rfl
  · rfl

/-- A region of whole pages is asked for, as few as there is room in for what is wanted, and nothing
of it is handed out yet. The system may refuse, and that is an error. There is a fault only where
the whole pages are out of range, or where exactly one page is left above what is wanted. -/
theorem acquire_answers (pages : system.pageSize = 1 <<< k) (power : k < 64) (wanted : Nat)
    (journal : Array Entry) : ∃ capacity,
      IsLeast {n | n % system.pageSize = 0 ∧ max wanted 1 ≤ n} capacity ∧
      (capacity < offsetLimit → max wanted 1 + system.pageSize ≠ offsetLimit →
        (∀ base, system.reserve capacity = some base → ∃ region,
          acquire system wanted journal =
            .ok (.ok region) (journal.push (.reserved capacity base)) ∧
          region.base = base ∧ region.capacity = capacity ∧ region.brk = 0 ∧
          region.extensions = 0) ∧
        (system.reserve capacity = none →
          acquire system wanted journal = .ok (.error (.arenaExhausted capacity 0)) journal)) ∧
      (offsetLimit ≤ capacity ∨ max wanted 1 + system.pageSize = offsetLimit →
        acquire system wanted journal = .error .overflow journal) := by
  have found := new_eq pages wanted
  have sum_lt_iff := add_unit_lt_iff (n := max wanted 1) power
  refine ⟨wholeUnits (max wanted 1) k, pages ▸ isLeast_wholeUnits (max wanted 1) k, ?_, ?_⟩
  · intro inside beside
    rw [if_pos (sum_lt_iff.mpr ⟨inside, pages ▸ beside⟩)] at found
    constructor
    · intro base granted
      rw [granted] at found
      refine ⟨fresh base (wholeUnits (max wanted 1) k), ?_, rfl, rfl, rfl, rfl⟩
      simp only [acquire, found]
      rfl
    · intro refused
      rw [refused] at found
      simp only [acquire, found]
  · intro past
    have large : ¬max wanted 1 + 1 <<< k < offsetLimit := by
      rw [sum_lt_iff, ← pages]
      omega
    rw [if_neg large] at found
    simp only [acquire, found]

theorem usual_acquire_answers : System.usual.pageSize = 1 <<< 12 ∧ 12 < 64 ∧
    (∃ region, acquire .usual 8193 #[] = .ok (.ok region) #[.reserved 12288 (127 <<< 40)] ∧
      region.base = 127 <<< 40 ∧ region.capacity = 12288 ∧ region.brk = 0 ∧
      region.extensions = 0) ∧
    acquire .usual (offsetLimit - 4097) #[] =
      .ok (.error (.arenaExhausted (offsetLimit - 4096) 0)) #[] := by
  have pages : System.usual.pageSize = 1 <<< 12 := rfl
  have power : 12 < 64 := by decide
  obtain ⟨capacity, least, answers, _⟩ := acquire_answers pages power 8193 #[]
  have three : capacity = 12288 := least.unique (isLeast_wholeUnits 8193 12)
  obtain ⟨capacity', least', answers', _⟩ := acquire_answers pages power (offsetLimit - 4097) #[]
  have most : capacity' = offsetLimit - 4096 :=
    least'.unique (isLeast_wholeUnits (offsetLimit - 4097) 12)
  subst three most
  refine ⟨pages, power, ?_, ?_⟩
  · exact (answers (by decide) (by decide)).1 (127 <<< 40) rfl
  · exact (answers' (by decide) (by decide)).2 rfl

/-- All pages but one are in range, but asking for just so many bytes has no answer. Neither has
asking for more, as in whole pages that is out of range. -/
theorem last_page_overflows :
    IsLeast {n | n % System.usual.pageSize = 0 ∧ max (offsetLimit - 4096) 1 ≤ n}
      (offsetLimit - 4096) ∧
    offsetLimit - 4096 < offsetLimit ∧ System.usual.reserve (offsetLimit - 4096) = none ∧
    acquire .usual (offsetLimit - 4096) #[] = .error .overflow #[] ∧
    IsLeast {n | n % System.usual.pageSize = 0 ∧ max (offsetLimit - 1) 1 ≤ n} offsetLimit ∧
    acquire .usual (offsetLimit - 1) #[] = .error .overflow #[] :=
  ⟨isLeast_wholeUnits (offsetLimit - 4096) 12, by decide, rfl, rfl,
    isLeast_wholeUnits (offsetLimit - 1) 12, rfl⟩

end Reservation

end SegregatedFit
