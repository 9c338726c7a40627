import SegregatedFit.Proofs.Regularity

namespace SegregatedFit

namespace SizeClass

/-- The class of all sizes above `2 ^ 23`. -/
def last : SizeClass := Fin.last 24

theorem lt_of_ofSize_lt {a b : Nat} (lower : ofSize a < ofSize b) : a < b := by
  by_contra reversed
  exact Nat.not_lt.mpr (ofSize_mono (Nat.not_lt.mp reversed)) lower

theorem ofSize_of_large {size : Nat} (large : 1 <<< 23 < size) : ofSize size = last := by
  have past : ¬exponent size ≤ 23 := by
    rw [exponent_le_iff]
    exact Nat.not_le.mpr large
  apply Fin.ext
  change min (exponent size) 24 = 24
  omega

theorem lt_of_mem_take {cls : SizeClass} {k : Nat} (member : cls ∈ all.take k) : cls.val < k := by
  obtain ⟨i, inside, rfl⟩ := List.mem_take_iff_getElem.mp member
  have low : i < k := Nat.lt_of_lt_of_le inside (Nat.min_le_left _ _)
  simpa [all] using low

end SizeClass

namespace Heap

variable {M : Type} [Memory M] {h : Heap M} {spans : List Span} {files : SizeClass → List Nat}
  {size : Nat}

namespace Consistent

variable {stops : SizeClass → Nat} (consistent : h.Consistent spans files stops)

include consistent

theorem sizeAt_listed {cls : SizeClass} {b : Nat} (listed : b ∈ files cls) :
    ∃ x ∈ spans, x.block = b ∧ x.tag.allocated = false ∧ x.cls = cls ∧
      Block.sizeAt h.memory b = x.tag.size := by
  obtain ⟨x, member, rfl, unused, same⟩ := (consistent.listed cls b).mp listed
  exact ⟨x, member, rfl, unused, same,
    Block.sizeAt_eq (consistent.chained.written x member).header⟩

theorem below_small {cls : SizeClass} (below : cls < SizeClass.ofSize size) {b : Nat}
    (listed : b ∈ files cls) : Block.sizeAt h.memory b < size := by
  obtain ⟨x, _, _, _, rfl, read⟩ := consistent.sizeAt_listed listed
  rw [read]
  exact SizeClass.lt_of_ofSize_lt below

theorem find_drop :
    ((SizeClass.all.drop (SizeClass.ofSize size)).flatMap files).find?
        (fun b => size ≤ Block.sizeAt h.memory b) =
      (SizeClass.all.flatMap files).find? fun b => size ≤ Block.sizeAt h.memory b := by
  have passed : ((SizeClass.all.take (SizeClass.ofSize size)).flatMap files).find?
      (fun b => size ≤ Block.sizeAt h.memory b) = none := by
    rw [List.find?_eq_none]
    intro b skipped
    obtain ⟨cls, front, listed⟩ := List.mem_flatMap.mp skipped
    have small := consistent.below_small (SizeClass.lt_of_mem_take front) listed
    simpa using small
  conv_rhs => rw [← List.take_append_drop (SizeClass.ofSize size) SizeClass.all,
    List.flatMap_append, List.find?_append, passed, Option.none_or]

theorem find_eq_none :
    (SizeClass.all.flatMap files).find? (fun b => size ≤ Block.sizeAt h.memory b) = none ↔
      ∀ x ∈ spans, x.tag.allocated = false → x.tag.size < size := by
  rw [List.find?_eq_none]
  constructor
  · intro small x member unused
    have listed := (consistent.listed x.cls x.block).mpr ⟨x, member, rfl, unused, rfl⟩
    have searched : x.block ∈ SizeClass.all.flatMap files :=
      List.mem_flatMap.mpr ⟨x.cls, List.mem_finRange _, listed⟩
    have := small x.block searched
    rw [Block.sizeAt_eq (consistent.chained.written x member).header] at this
    simpa using this
  · intro small b searched
    obtain ⟨cls, _, listed⟩ := List.mem_flatMap.mp searched
    obtain ⟨x, member, _, unused, _, read⟩ := consistent.sizeAt_listed listed
    rw [read]
    simpa using small x member unused

theorem firstFit_drop (request : size ≤ 1 <<< 63) :
    firstFit size h = .ok (((SizeClass.all.drop (SizeClass.ofSize size)).flatMap files).find?
      fun b => size ≤ Block.sizeAt h.memory b) h := by
  have searched := FreeLists.firstFit_threaded consistent.threaded consistent.nodup
    (fun _ _ => consistent.free) (fun cls => (consistent.ends cls).1) request
  simp only [firstFit, get_bind, query, searched]

theorem firstFit_eq (request : size ≤ 1 <<< 63) :
    firstFit size h = .ok ((SizeClass.all.flatMap files).find?
      fun b => size ≤ Block.sizeAt h.memory b) h := by
  rw [consistent.firstFit_drop request, consistent.find_drop]

end Consistent

/-- The search finds the first block of all lists, one after the other, that is large enough. No
such block is on the lists it skips, all sizes above `2 ^ 23` are found on the last list alone, and
nothing is found if and only if every free block of the chain is too small. -/
theorem firstFit_searches_all (regular : h.Regular spans files) (request : size ≤ 1 <<< 63) :
    firstFit size h =
        .ok ((SizeClass.all.flatMap files).find? fun b => size ≤ Block.sizeAt h.memory b) h ∧
      (∀ cls < SizeClass.ofSize size, ∀ b ∈ files cls, Block.sizeAt h.memory b < size) ∧
      (1 <<< 23 < size →
        firstFit size h =
          .ok ((files SizeClass.last).find? fun b => size ≤ Block.sizeAt h.memory b) h) ∧
      (∀ x ∈ spans, x.tag.allocated = false → 1 <<< 23 < x.tag.size →
        x.block ∈ files SizeClass.last) ∧
      (firstFit size h = .ok none h ↔
        ∀ x ∈ spans, x.tag.allocated = false → x.tag.size < size) := by
  have consistent := regular.consistent
  have found := consistent.firstFit_eq request
  refine ⟨found, fun _ below _ => consistent.below_small below, ?_, ?_, ?_⟩
  · intro large
    rw [consistent.firstFit_drop request, SizeClass.ofSize_of_large large,
      show SizeClass.all.drop SizeClass.last = [SizeClass.last] by decide, List.flatMap_singleton]
  · intro x member unused large
    rw [← SizeClass.ofSize_of_large large]
    exact (regular.listed x.cls x.block).mpr ⟨x, member, rfl, unused, rfl⟩
  · rw [found, ← consistent.find_eq_none]
    constructor
    · intro nothing
      injection nothing
    · intro nothing
      rw [nothing]

theorem gaps_searched : ∃ (s : Session Buffer) (files : SizeClass → List Nat),
    s.heap.Regular [⟨16, ⟨40⟩⟩, ⟨56, ⟨17⟩⟩, ⟨72, ⟨64⟩⟩, ⟨136, ⟨17⟩⟩, ⟨152, ⟨200⟩⟩] files ∧
      48 ≤ 1 <<< 63 ∧ 208 ≤ 1 <<< 63 ∧
      firstFit 48 s.heap = .ok ((SizeClass.all.flatMap files).find? fun b =>
        48 ≤ Block.sizeAt s.heap.memory b) s.heap ∧
      firstFit 208 s.heap = .ok none s.heap := by
  obtain ⟨s, files, regular, _⟩ := Session.gaps_regular
  have found := firstFit_searches_all regular (show 48 ≤ 1 <<< 63 by decide)
  have missed := firstFit_searches_all regular (show 208 ≤ 1 <<< 63 by decide)
  refine ⟨s, files, regular, by decide, by decide, found.1, missed.2.2.2.2.mpr ?_⟩
  decide

end Heap

end SegregatedFit
