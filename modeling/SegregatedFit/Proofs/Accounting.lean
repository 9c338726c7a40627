import Mathlib.Algebra.BigOperators.Group.List.Basic
import Mathlib.Order.Bounds.Basic
import SegregatedFit.Proofs.Canonical
import SegregatedFit.Proofs.Damage
import SegregatedFit.Proofs.Diagnostics
import SegregatedFit.Proofs.Search

namespace SegregatedFit

def freeSizes (spans : List Span) : Set Nat :=
  {n | n = 0 ∨ ∃ x ∈ spans, x.tag.allocated = false ∧ x.tag.size = n}

namespace Usage

/-- The counters are those of `spans`. -/
structure Counts (u : Usage) (spans : List Span) : Prop where
  allocatedBlocks : u.allocatedBlocks = (spans.filter fun x => x.tag.allocated).length
  allocatedBytes : u.allocatedBytes =
    ((spans.filter fun x => x.tag.allocated).map fun x => x.tag.size).sum
  freeBlocks : u.freeBlocks = (spans.filter fun x => !x.tag.allocated).length
  freeBytes : u.freeBytes =
    ((spans.filter fun x => !x.tag.allocated).map fun x => x.tag.size).sum
  largestFree : IsGreatest (freeSizes spans) u.largestFree

variable {u : Usage} {spans : List Span}

theorem Counts.start (size : Nat) : ({ heapSize := size } : Usage).Counts [] := by
  constructor <;> simp [freeSizes, IsGreatest, upperBounds]

theorem freeSizes_concat_used (spans : List Span) {x : Span} (used : x.tag.allocated = true) :
    freeSizes (spans ++ [x]) = freeSizes spans := by
  ext n
  simp [freeSizes, used]

theorem freeSizes_concat_free (spans : List Span) {x : Span} (unused : x.tag.allocated = false) :
    freeSizes (spans ++ [x]) = insert x.tag.size (freeSizes spans) := by
  ext n
  simp only [freeSizes, Set.mem_insert_iff, Set.mem_ofPred_eq, List.mem_append,
    List.mem_singleton]
  grind

theorem Counts.count (counts : u.Counts spans) (x : Span) : (u.count x).Counts (spans ++ [x]) := by
  obtain ⟨blocks, bytes, freeBlocks, freeBytes, largest⟩ := counts
  cases used : x.tag.allocated with
  | true =>
    have counted : u.count x = { u with
        allocatedBlocks := u.allocatedBlocks + 1
        allocatedBytes := u.allocatedBytes + x.tag.size } := by
      simp only [Usage.count, used, if_true]
    rw [counted]
    constructor
    · simp [blocks, used]
    · simp [bytes, used]
    · simp [freeBlocks, used]
    · simp [freeBytes, used]
    · rw [freeSizes_concat_used spans used]
      exact largest
  | false =>
    have counted : u.count x = { u with
        freeBlocks := u.freeBlocks + 1
        freeBytes := u.freeBytes + x.tag.size
        largestFree := max u.largestFree x.tag.size } := by
      simp only [Usage.count, used, Bool.false_eq_true, if_false]
    rw [counted]
    constructor
    · simp [blocks, used]
    · simp [bytes, used]
    · simp [freeBlocks, used]
    · simp [freeBytes, used]
    · rw [freeSizes_concat_free spans used, max_comm]
      exact largest.insert _

theorem Counts.foldl (counts : u.Counts spans) (more : List Span) :
    (more.foldl Usage.count u).Counts (spans ++ more) := by
  induction more generalizing u spans with
  | nil => simpa using counts
  | cons x rest ih =>
    rw [List.foldl_cons, List.append_cons]
    exact ih (counts.count x)

end Usage

namespace Heap

section Accounting

variable {M : Type} [Memory M] {h : Heap M} {spans kept : List Span}
  {files : SizeClass → List Nat} {stops : SizeClass → Nat}

/-- The totals tell how the bytes of the heap are used, and what its free lists hold. -/
structure Accounts (h : Heap M) (u : Usage) (lists : SizeClass → List Block) : Prop where
  listed : ∀ cls limit, Memory.size h.memory ≤ limit → h.list limit cls = .ok (lists cls)
  heapSize : u.heapSize = Memory.size h.memory
  bytes : h.prologue + 8 + u.allocatedBytes + u.freeBytes = u.heapSize
  freeBlocks : u.freeBlocks = (SizeClass.all.flatMap lists).length
  freeBytes : u.freeBytes = ((SizeClass.all.flatMap lists).map (Block.sizeAt h.memory)).sum
  largestFree : IsGreatest
    {n | n = 0 ∨ ∃ b ∈ SizeClass.all.flatMap lists, Block.sizeAt h.memory b = n} u.largestFree
  found : ∀ size, 1 ≤ size → size ≤ 1 <<< 63 → ∃ answer, firstFit size h = .ok answer h ∧
    ((∃ b, answer = some b) ↔ size ≤ u.largestFree)

theorem sum_used_free (spans : List Span) :
    ((spans.filter fun x => x.tag.allocated).map fun x => x.tag.size).sum +
      ((spans.filter fun x => !x.tag.allocated).map fun x => x.tag.size).sum =
        (spans.map fun x => x.tag.size).sum := by
  rw [← List.sum_append, ← List.map_append]
  exact ((List.filter_append_perm _ spans).map _).sum_eq

namespace Consistent

variable (consistent : h.Consistent spans files stops)

include consistent

theorem entries_perm :
    (SizeClass.all.flatMap files).Perm
      ((spans.filter fun x => !x.tag.allocated).map Span.block) := by
  have separate : ∀ c d, c ≠ d → List.Disjoint (files c) (files d) := by
    intro c d different b here there
    obtain ⟨x, member, same, _, first⟩ := (consistent.listed c b).mp here
    obtain ⟨y, other, same', _, second⟩ := (consistent.listed d b).mp there
    have equal := consistent.chained.tiles.eq_of_block consistent.room_pos member other
      (same.trans same'.symm)
    exact different (first.symm.trans (equal ▸ second))
  have blocks : (spans.map Span.block).Nodup :=
    (consistent.chained.tiles.sorted consistent.room_pos).imp Nat.ne_of_lt
  apply (List.perm_ext_iff_of_nodup ?_ ?_).mpr
  · intro b
    constructor
    · intro entry
      obtain ⟨cls, _, listed⟩ := List.mem_flatMap.mp entry
      obtain ⟨x, member, here, unused, _⟩ := (consistent.listed cls b).mp listed
      exact List.mem_map.mpr ⟨x, by simpa [unused] using member, here⟩
    · intro free
      obtain ⟨x, member, here⟩ := List.mem_map.mp free
      obtain ⟨inside, unused⟩ := List.mem_filter.mp member
      have listed := (consistent.listed x.cls b).mpr ⟨x, inside, here, by simpa using unused, rfl⟩
      exact List.mem_flatMap.mpr ⟨x.cls, List.mem_finRange _, listed⟩
  · apply List.nodup_flatMap.mpr
    constructor
    · exact fun cls _ => consistent.nodup cls
    · exact (List.nodup_finRange 25).imp (separate _ _)
  · exact blocks.sublist (List.filter_sublist.map _)

theorem map_sizeAt (among : ∀ x ∈ kept, x ∈ spans) :
    (kept.map Span.block).map (Block.sizeAt h.memory) = kept.map fun x => x.tag.size := by
  rw [List.map_map]
  apply List.map_congr_left
  intro x member
  exact Block.sizeAt_eq (consistent.chained.written x (among x member)).header

theorem mem_freeSizes {n : Nat} : n ∈ freeSizes spans ↔
    n = 0 ∨ ∃ b ∈ SizeClass.all.flatMap files, Block.sizeAt h.memory b = n := by
  unfold freeSizes
  constructor
  · rintro (zero | ⟨x, member, unused, size⟩)
    · exact .inl zero
    · have listed := (consistent.listed x.cls x.block).mpr ⟨x, member, rfl, unused, rfl⟩
      refine .inr ⟨x.block, List.mem_flatMap.mpr ⟨x.cls, List.mem_finRange _, listed⟩, ?_⟩
      rw [Block.sizeAt_eq (consistent.chained.written x member).header, size]
  · rintro (zero | ⟨b, entry, size⟩)
    · exact .inl zero
    · obtain ⟨cls, _, listed⟩ := List.mem_flatMap.mp entry
      obtain ⟨x, member, _, unused, _, read⟩ := consistent.sizeAt_listed listed
      exact .inr ⟨x, member, unused, read.symm.trans size⟩

theorem found_iff {u : Usage} {size : Nat} (counts : u.Counts spans) (positive : 1 ≤ size) :
    (∃ b, (SizeClass.all.flatMap files).find? (fun b => size ≤ Block.sizeAt h.memory b) = some b) ↔
      size ≤ u.largestFree := by
  obtain ⟨reached, bound⟩ := counts.largestFree
  constructor
  · intro ⟨b, found⟩
    by_contra small
    have missed := consistent.find_eq_none.mpr fun x member unused =>
      Nat.lt_of_le_of_lt (bound (.inr ⟨x, member, unused, rfl⟩)) (Nat.not_le.mp small)
    rw [missed] at found
    cases found
  · intro large
    cases found : (SizeClass.all.flatMap files).find?
        (fun b => size ≤ Block.sizeAt h.memory b) with
    | some b => exact ⟨b, rfl⟩
    | none =>
      have small := consistent.find_eq_none.mp found
      rcases reached with zero | ⟨x, member, unused, here⟩
      · omega
      · have := small x member unused
        omega

theorem accounts (bounded : Memory.size h.memory < offsetLimit) :
    ∃ u, h.usage = .ok u ∧ u.Counts spans ∧ h.Accounts u files := by
  have counts := (Usage.Counts.start (Memory.size h.memory)).foldl spans
  have size := Usage.heapSize_foldl (u := { heapSize := Memory.size h.memory }) spans
  have entries := consistent.entries_perm
  rw [List.nil_append] at counts
  refine ⟨_, consistent.usage_eq bounded, counts, ?_⟩
  constructor
  · exact fun cls limit enough => consistent.whole_list_eq enough cls
  · exact size
  · have total := consistent.chained.tiles.sum_sizes
    rw [counts.allocatedBytes, counts.freeBytes, size, Nat.add_assoc, sum_used_free, total]
  · rw [counts.freeBlocks, entries.length_eq, List.length_map]
  · rw [counts.freeBytes, (entries.map _).sum_eq, consistent.map_sizeAt]
    exact fun x member => (List.mem_filter.mp member).1
  · have same : freeSizes spans = _ := Set.ext fun _ => consistent.mem_freeSizes
    exact same ▸ counts.largestFree
  · intro size positive request
    exact ⟨_, consistent.firstFit_eq request, consistent.found_iff counts positive⟩

end Consistent

end Accounting

end Heap

namespace Session

variable {A : Type} [Arena A] {s : Session A} {v : View}

theorem Kept.live_counts (kept : s.Kept v) {u : Usage} (counts : u.Counts v.spans) :
    u.allocatedBlocks = s.leases.length ∧
      u.allocatedBytes = (s.live.map Prod.snd).sum := by
  have live := kept.leased.live
  have consistent := kept.consistent
  constructor
  · have same := live.length_eq
    rw [List.length_map, List.length_map] at same
    exact counts.allocatedBlocks.trans same.symm
  · have sizes : (s.live.map Prod.snd) =
        (s.leases.map Lease.block).map (Block.sizeAt s.heap.memory) := by
      simp [Session.live]
    rw [sizes, (live.map _).sum_eq, consistent.map_sizeAt fun x => View.mem_of_used]
    exact counts.allocatedBytes

end Session

/-- On every heap with which the checker finds no fault the totals account for each byte and agree
with the free lists, and in a session that can come about the blocks in use are the live ones. -/
theorem usage_accounts :
    (∀ (M : Type) [Memory M] (h : Heap M), Memory.size h.memory < 1 <<< 63 →
      h.violations = .ok [] → ∃ u lists, h.usage = .ok u ∧ h.Accounts u lists) ∧
    ∀ (A : Type) [Arena A] (s : Session A), s.Reached →
      ∃ u, s.heap.usage = .ok u ∧ u.allocatedBlocks = s.leases.length ∧
        u.allocatedBytes = (s.live.map Prod.snd).sum := by
  constructor
  · intro M _ h bounded clean
    obtain ⟨spans, files, stops, consistent⟩ := Heap.consistent_of_clean bounded clean
    obtain ⟨u, ran, _, accounts⟩ := consistent.accounts (Nat.lt_of_lt_of_le bounded (by decide))
    exact ⟨u, files, ran, accounts⟩
  · intro A _ s reached
    obtain ⟨v, kept⟩ := reached.kept
    obtain ⟨u, ran, counts, _⟩ :=
      kept.consistent.accounts (Nat.lt_of_lt_of_le kept.small (by decide))
    exact ⟨u, ran, kept.live_counts counts⟩

theorem gaps_usage : (Session.outcome (Buffer.new 352) ⟨1024, 336⟩ Session.gaps).map
    (fun ended => ended.2.heap.usage) = some (.ok ⟨352, 2, 32, 3, 304, 200⟩) := by
  decide +kernel

theorem gaps_accounted : ∃ (s : Session Buffer) (u : Usage), s.Reached ∧
    Memory.size s.heap.memory < 1 <<< 63 ∧ s.heap.violations = .ok [] ∧
    s.heap.usage = .ok u ∧ u = ⟨352, 2, 32, 3, 304, 200⟩ ∧ (∃ lists, s.heap.Accounts u lists) ∧
    u.allocatedBlocks = s.leases.length ∧ u.allocatedBytes = (s.live.map Prod.snd).sum := by
  obtain ⟨⟨answers, s⟩, ended, used⟩ := Option.map_eq_some_iff.mp gaps_usage
  have reached : s.Reached := .of_outcome (by decide) ended
  obtain ⟨v, kept⟩ := reached.kept
  have clean := kept.consistent.violations_eq kept.small
  obtain ⟨u, lists, ran, accounts⟩ := usage_accounts.1 Buffer s.heap kept.small clean
  obtain ⟨u', ran', blocks, bytes⟩ := usage_accounts.2 Buffer s reached
  have first : u = ⟨352, 2, 32, 3, 304, 200⟩ := Except.ok.inj (ran.symm.trans used)
  have second : u' = u := Except.ok.inj (ran'.symm.trans ran)
  subst second
  exact ⟨s, u', reached, kept.small, clean, ran, first, ⟨lists, accounts⟩, blocks, bytes⟩

end SegregatedFit
