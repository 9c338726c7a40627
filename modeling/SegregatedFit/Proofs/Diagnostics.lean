import Mathlib.Algebra.BigOperators.Group.List.Basic
import SegregatedFit.Proofs.Checking

namespace SegregatedFit

namespace Block

variable {M : Type} [Memory M] {m : M} {b limit : Nat} {t : Tag}

theorem walk_outside (out : b < 4 ∨ Memory.size m < b) : walk m limit b = .ok [] := by
  cases limit with
  | zero => rfl
  | succ limit => exact if_pos out

theorem walk_empty (inside : ¬(b < 4 ∨ Memory.size m < b)) (read : tag m b = .ok t)
    (zero : t.size = 0) : walk m limit b = .ok [] := by
  cases limit with
  | zero => rfl
  | succ limit =>
    have inside : ¬(b < Tag.bytes ∨ Memory.size m < b) := inside
    simp only [walk, if_neg inside, read, zero, bind, Except.bind, if_true]
    rfl

theorem walk_block {spans : List Span} (inside : ¬(b < 4 ∨ Memory.size m < b))
    (read : tag m b = .ok t) (taken : t.size ≠ 0) (small : b + t.size < offsetLimit)
    (later : walk m limit (b + t.size) = .ok spans) :
    walk m (limit + 1) b = .ok (⟨b, t⟩ :: spans) := by
  have inside : ¬(b < Tag.bytes ∨ Memory.size m < b) := inside
  simp only [walk, if_neg inside, read, if_neg taken, plus_of_lt small, later, bind, Except.bind]
  rfl

/-- What is met on a walk from `b` with no end in sight: blocks one behind the other, the last of
which starts in the memory. -/
structure Walked (m : M) (b : Nat) (spans : List Span) : Prop where
  ran : ∀ limit, walk m limit b = .ok (spans.take limit)
  room : ∀ x ∈ spans, 0 < x.tag.size
  few : b + 8 * spans.length ≤ max b (Memory.size m + 8)
  tiled : ∃ stop, Tiles b spans stop ∧ stop ≤ max b (Memory.size m + Tag.maxSize)

theorem Walked.nil (ran : ∀ limit, walk m limit b = .ok []) : Walked m b [] where
  ran limit := by rw [ran, List.take_nil]
  room := by simp
  few := Nat.le_max_left ..
  tiled := ⟨b, rfl, Nat.le_max_left ..⟩

/-- A walk needs no limit to end: it ends on any memory, wherever it starts. -/
theorem walk_ends (bounded : Memory.size m < 1 <<< 63) (b : Nat) : ∃ spans, Walked m b spans := by
  -- The blocks ahead are fewer than the bytes ahead, so induct on a bound of these.
  obtain ⟨fuel, enough⟩ : ∃ fuel, Memory.size m < b + fuel := ⟨Memory.size m + 1, by omega⟩
  induction fuel generalizing b with
  | zero => exact ⟨[], .nil fun _ => walk_outside (.inr enough)⟩
  | succ fuel ih =>
    by_cases out : b < 4 ∨ Memory.size m < b
    · exact ⟨[], .nil fun _ => walk_outside out⟩
    · obtain ⟨t, read⟩ : ∃ t, tag m b = .ok t := tag_defined (by omega) (by omega)
      by_cases zero : t.size = 0
      · exact ⟨[], .nil fun _ => walk_empty out read zero⟩
      · have divides := t.size_mod
        have fits := t.size_le
        obtain ⟨spans, walked⟩ := ih (b + t.size) (by omega)
        obtain ⟨stop, tiles, near⟩ := walked.tiled
        refine ⟨⟨b, t⟩ :: spans, fun limit => ?_, ?_, ?_, stop, ⟨rfl, tiles⟩, by omega⟩
        · cases limit with
          | zero => rfl
          | succ limit =>
            have small : b + t.size < offsetLimit := by
              simp only [Tag.maxSize] at fits
              simp only [offsetLimit]
              omega
            exact walk_block out read zero small (walked.ran limit)
        · intro x member
          rcases List.mem_cons.mp member with rfl | later
          · exact Nat.pos_of_ne_zero zero
          · exact walked.room x later
        · have few := walked.few
          rw [List.length_cons]
          omega

namespace Walked

variable {spans : List Span}

theorem sorted (walked : Walked m b spans) : (spans.map Span.block).Pairwise (· < ·) := by
  obtain ⟨stop, tiles, _⟩ := walked.tiled
  exact tiles.sorted walked.room

theorem chain_eq (walked : Walked m b spans) : chain m b = .ok spans := by
  have few := walked.few
  have enough : spans.length ≤ Memory.size m + 1 := by omega
  calc
    chain m b = .ok (spans.take (Memory.size m + 1)) := walked.ran _
    _ = .ok spans := by rw [List.take_of_length_le enough]

theorem sum_le (walked : Walked m b spans) (near : b ≤ Memory.size m + Tag.maxSize) :
    b + (spans.map fun x => x.tag.size).sum ≤ Memory.size m + Tag.maxSize := by
  obtain ⟨stop, tiles, le⟩ := walked.tiled
  calc
    b + (spans.map fun x => x.tag.size).sum = stop := tiles.sum_sizes
    _ ≤ max b (Memory.size m + Tag.maxSize) := le
    _ = Memory.size m + Tag.maxSize := Nat.max_eq_right near

end Walked

end Block

namespace Usage

/-- All counters are numbers that an offset can be. -/
structure InRange (u : Usage) : Prop where
  heapSize : u.heapSize < offsetLimit
  allocatedBlocks : u.allocatedBlocks < offsetLimit
  allocatedBytes : u.allocatedBytes < offsetLimit
  freeBlocks : u.freeBlocks < offsetLimit
  freeBytes : u.freeBytes < offsetLimit
  largestFree : u.largestFree < offsetLimit

structure Totals (u : Usage) (blocks bytes : Nat) : Prop where
  blocks : u.allocatedBlocks + u.freeBlocks = blocks
  bytes : u.allocatedBytes + u.freeBytes = bytes
  largest : u.largestFree ≤ u.freeBytes

variable {u : Usage} {blocks bytes : Nat}

theorem Totals.count (totals : u.Totals blocks bytes) (x : Span) :
    (u.count x).Totals (blocks + 1) (bytes + x.tag.size) := by
  obtain ⟨same_blocks, same_bytes, largest⟩ := totals
  unfold Usage.count
  cases x.tag.allocated <;> constructor <;> simp <;> omega

theorem Totals.foldl (totals : u.Totals blocks bytes) (spans : List Span) :
    (spans.foldl Usage.count u).Totals (blocks + spans.length)
      (bytes + (spans.map fun x => x.tag.size).sum) := by
  induction spans generalizing u blocks bytes with
  | nil => exact totals
  | cons x rest ih =>
    have later := ih (totals.count x)
    simpa only [List.foldl_cons, List.length_cons, List.map_cons, List.sum_cons, Nat.add_assoc,
      Nat.add_comm 1] using later

theorem heapSize_foldl (spans : List Span) : (spans.foldl Usage.count u).heapSize = u.heapSize := by
  induction spans generalizing u with
  | nil => rfl
  | cons x rest ih =>
    rw [List.foldl_cons, ih]
    unfold Usage.count
    cases x.tag.allocated <;> rfl

theorem Totals.inRange (totals : u.Totals blocks bytes) (heap : u.heapSize < offsetLimit)
    (few : blocks ≤ bytes) (small : bytes < offsetLimit) : u.InRange := by
  obtain ⟨same_blocks, same_bytes, largest⟩ := totals
  constructor <;> omega

theorem inRange_foldl {spans : List Span} {size : Nat} (heap : size < offsetLimit)
    (room : ∀ x ∈ spans, 0 < x.tag.size)
    (small : (spans.map fun x => x.tag.size).sum < offsetLimit) :
    (spans.foldl Usage.count { heapSize := size }).InRange := by
  have start : ({ heapSize := size } : Usage).Totals 0 0 := ⟨rfl, rfl, Nat.le_refl _⟩
  have totals := start.foldl spans
  rw [Nat.zero_add, Nat.zero_add] at totals
  apply totals.inRange
  · rwa [heapSize_foldl]
  · have least := List.length_le_sum_of_one_le (spans.map fun x => x.tag.size)
      (List.forall_mem_map.mpr room)
    rwa [List.length_map] at least
  · exact small

end Usage

namespace Heap

variable {M : Type} [Memory M] {h : Heap M}

def verdict (context : String) (found : List Violation) : Except Report Unit :=
  if found = [] then .ok () else .error ⟨context, found⟩

def reported (h : Heap M) (context : String) (found : List Violation) : Heap M :=
  { h with journal := h.journal ++ (found.map (Entry.violated context)).toArray }

omit [Memory M] in
theorem record_all (context : String) (found : List Violation) (h : Heap M) :
    (forIn found PUnit.unit fun violation _ => do
      record (.violated context violation)
      pure (.yield PUnit.unit) : HeapM M PUnit) h = .ok PUnit.unit (h.reported context found) := by
  induction found generalizing h with
  | nil => simp [reported, pure_apply]
  | cons violation rest ih =>
    have first : (record (.violated context violation) >>= fun _ =>
        pure (.yield PUnit.unit) : HeapM M (ForInStep PUnit)) h =
          .ok (.yield PUnit.unit) (h.reported context [violation]) := by
      rw [bind_of_ok (record_apply _)]
      simp [reported, pure_apply]
    rw [List.forIn_cons, bind_of_ok first]
    refine (ih _).trans ?_
    simp [reported]

theorem check_eq {found : List Violation} (context : String) (ran : h.violations = .ok found) :
    check context h = .ok (verdict context found) (h.reported context found) := by
  unfold check
  rw [get_bind, lift_bind, ran]
  cases found with
  | nil => simp [verdict, reported, pure_apply]
  | cons violation rest => exact bind_of_ok (record_all context (violation :: rest) h)

/-- The diagnostics answer on every memory, whatever its tags and its links are. No sum on the way
to the totals leaves the range of offsets. -/
theorem diagnostics_answer (h : Heap M) (bounded : Memory.size h.memory < 1 <<< 63)
    (front : 4 ≤ h.prologue) (inside : h.prologue + 4 ≤ Memory.size h.memory) :
    (∃ found, h.violations = .ok found ∧
      ∀ context, check context h = .ok (verdict context found) (h.reported context found)) ∧
    ∃ spans, (∀ limit, Block.walk h.memory limit (h.prologue + 8) = .ok (spans.take limit)) ∧
      (spans.map Span.block).Pairwise (· < ·) ∧ h.chain = .ok spans ∧
      h.usage = .ok (spans.foldl Usage.count { heapSize := Memory.size h.memory }) ∧
      ∀ n, ((spans.take n).foldl Usage.count { heapSize := Memory.size h.memory }).InRange := by
  obtain ⟨found, ran⟩ := violations_defined bounded front inside
  obtain ⟨spans, walked⟩ := Block.walk_ends bounded (h.prologue + 8)
  have first : h.firstBlock = .ok (h.prologue + 8) :=
    plus_of_lt (by simp only [Block.overhead, offsetLimit]; omega)
  have chain : h.chain = .ok spans := by
    simp only [Heap.chain, first, bind, Except.bind, walked.chain_eq]
  refine ⟨⟨found, ran, fun context => check_eq context ran⟩, spans, walked.ran, walked.sorted, chain,
    ?_, fun n => Usage.inRange_foldl ?_ ?_ ?_⟩
  · simp only [usage, chain, bind, Except.bind, pure, Except.pure]
  · simp only [offsetLimit]
    omega
  · exact fun x member => walked.room x (List.mem_of_mem_take member)
  · have near : h.prologue + 8 ≤ Memory.size h.memory + Tag.maxSize := by
      simp only [Tag.maxSize]
      omega
    have total := walked.sum_le near
    have split := List.sum_take_add_sum_drop (spans.map fun x => x.tag.size) n
    rw [List.map_take]
    simp only [Tag.maxSize] at total
    simp only [offsetLimit]
    omega

/-- A heap of which hardly anything is left: the header of the second block says that it goes on far
behind the memory, one list links to itself, and the others start at the last offset there is. -/
def wrecked : Heap ByteArray where
  memory := ⟨#[255, 255, 255, 255, 9, 0, 0, 0, 9, 0, 0, 0, 16, 0, 0, 0, 16, 0, 0, 0, 0, 0, 0, 0,
    7, 7, 7, 7, 255, 255, 255, 255, 255, 255, 255, 255]⟩
  lists := (FreeLists.empty (offsetLimit - 1)).setHead (SizeClass.ofSize 16) 16
  prologue := 8
  config := default
  journal := #[]

theorem wrecked_answer :
    Memory.size wrecked.memory < 1 <<< 63 ∧ 4 ≤ wrecked.prologue ∧
      wrecked.prologue + 4 ≤ Memory.size wrecked.memory ∧
      (∃ found, wrecked.violations = .ok found ∧ ∀ context,
        check context wrecked = .ok (verdict context found) (wrecked.reported context found)) ∧
      ∃ spans, (∀ limit, Block.walk wrecked.memory limit (wrecked.prologue + 8) =
          .ok (spans.take limit)) ∧
        (spans.map Span.block).Pairwise (· < ·) ∧ wrecked.chain = .ok spans ∧
        wrecked.usage =
          .ok (spans.foldl Usage.count { heapSize := Memory.size wrecked.memory }) ∧
        ∀ n, ((spans.take n).foldl Usage.count
          { heapSize := Memory.size wrecked.memory }).InRange := by
  have bounded : Memory.size wrecked.memory < 1 <<< 63 := by decide
  have front : 4 ≤ wrecked.prologue := by decide
  have inside : wrecked.prologue + 4 ≤ Memory.size wrecked.memory := by decide
  exact ⟨bounded, front, inside, diagnostics_answer wrecked bounded front inside⟩

end Heap

end SegregatedFit
