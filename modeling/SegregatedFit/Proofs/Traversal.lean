import Mathlib.Data.List.Induction
import SegregatedFit.Proofs.Regularity

namespace SegregatedFit

namespace Block

variable {M : Type} [Memory M] {m : M} {first : Span} {spans : List Span} {stop limit : Nat}

/-- At most `limit` blocks in front of `b`, the nearest one first. The walk ends with `first`. -/
def walkBack (m : M) (first : Block) : Nat → Block → Except Fault (List Block)
  | 0, _ => return []
  | limit + 1, b => do
    let before ← prev m b
    if before = first then return [before]
    return before :: (← walkBack m first limit before)

def chainBack (m : M) (first : Block) : Except Fault (List Block) :=
  walkBack m first (Memory.size m) (Memory.size m)

theorem walkBack_tiles (enough : spans.length < limit)
    (tiles : Tiles first.block (first :: spans) stop) (room : ∀ x ∈ first :: spans, 8 ≤ x.tag.size)
    (written : ∀ x ∈ first :: spans, x.Written m) :
    walkBack m first.block limit stop = .ok ((first :: spans).map Span.block).reverse := by
  induction spans using List.reverseRecOn generalizing limit stop with
  | nil =>
    obtain ⟨limit, rfl⟩ : ∃ n, limit = n + 1 := ⟨limit - 1, by omega⟩
    have here : first.block + first.tag.size = stop := tiles.2
    have back := (written first (by simp)).prev_eq (room first (by simp))
    rw [here] at back
    simp only [walkBack, back, bind, Except.bind, if_true]
    rfl
  | append_singleton front x ih =>
    obtain ⟨limit, rfl⟩ : ∃ n, limit = n + 1 := ⟨limit - 1, by omega⟩
    have member : x ∈ first :: (front ++ [x]) := by simp
    rw [← List.cons_append] at tiles
    obtain ⟨before, ends⟩ := tiles.around
    have here : x.block + x.tag.size = stop := ends
    have back := (written x member).prev_eq (room x member)
    rw [here] at back
    have behind : x.block ≠ first.block := by
      have := before.2.le
      have := room first (by simp)
      omega
    have rest := ih (by simpa using enough) before
      (fun y other => room y (List.mem_append_left [x] other))
      (fun y other => written y (List.mem_append_left [x] other))
    simp only [walkBack, back, bind, Except.bind, if_neg behind, rest]
    simp [pure, Except.pure]

end Block

theorem Tiles.ends {x : Span} {spans : List Span} {start stop : Nat}
    (tiles : Tiles start (x :: spans) stop) :
    ∀ c ∈ spans.map Span.block ++ [stop], ∃ y ∈ x :: spans, y.block + y.tag.size = c := by
  induction spans generalizing x start with
  | nil =>
    intro c member
    have here : x.block + x.tag.size = stop := tiles.1 ▸ tiles.2
    exact ⟨x, by simp, here.trans (List.mem_singleton.mp member).symm⟩
  | cons y rest ih =>
    intro c member
    obtain ⟨here, behind⟩ := tiles
    rcases List.mem_cons.mp member with rfl | later
    · exact ⟨x, by simp, here ▸ behind.1.symm⟩
    · obtain ⟨z, found, ends⟩ := ih behind c later
      exact ⟨z, List.mem_cons_of_mem _ found, ends⟩

namespace Heap

variable {M : Type} [Memory M] {h : Heap M} {spans : List Span} {files : SizeClass → List Nat}
  {stops : SizeClass → Nat}

namespace Consistent

variable (consistent : h.Consistent spans files stops)

include consistent

theorem tiles_prologue : Tiles h.prologue (.of h.prologue 8 true :: spans) (Memory.size h.memory) :=
  ⟨rfl, Tag.size_sentinel.symm ▸ consistent.chained.tiles⟩

theorem written_prologue : ∀ x ∈ Span.of h.prologue 8 true :: spans, x.Written h.memory :=
  List.forall_mem_cons.mpr ⟨consistent.chained.sentinel, consistent.chained.written⟩

theorem room_prologue : ∀ x ∈ Span.of h.prologue 8 true :: spans, 8 ≤ x.tag.size :=
  List.forall_mem_cons.mpr ⟨Nat.le_of_eq Tag.size_sentinel.symm, fun x member =>
    Nat.le_trans (by decide) (consistent.room x member)⟩

theorem step_back (bounded : Memory.size h.memory < offsetLimit) {x : Span}
    (member : x ∈ Span.of h.prologue 8 true :: spans) :
    Block.next h.memory x.block = .ok (x.block + x.tag.size) ∧
      Block.prev h.memory (x.block + x.tag.size) = .ok x.block := by
  have written := consistent.written_prologue x member
  have within := consistent.tiles_prologue.within member
  exact ⟨written.next_eq (by omega), written.prev_eq (consistent.room_prologue x member)⟩

theorem chainBack_eq :
    Block.chainBack h.memory h.prologue = .ok ((spans.map Span.block).reverse ++ [h.prologue]) := by
  have room : ∀ x ∈ spans, 16 ≤ x.tag.size := consistent.room
  have length := consistent.chained.tiles.length_le room
  have enough : spans.length < Memory.size h.memory := by omega
  have walked := Block.walkBack_tiles enough consistent.tiles_prologue
    consistent.room_prologue consistent.written_prologue
  rw [List.map_cons, List.reverse_cons] at walked
  exact walked

end Consistent

/-- Where the checker finds no fault, a step forwards from the prologue or from a block of the chain
is taken back by a step backwards, and a step backwards from a block of the chain or from the
epilogue by a step forwards. Steps backwards from the epilogue pass the chain in the opposite order,
and then they come to the prologue. -/
theorem chain_walked_both_ways (h : Heap M) (bounded : Memory.size h.memory < 1 <<< 63)
    (clean : h.violations = .ok []) : ∃ spans, h.chain = .ok spans ∧
      (∀ b ∈ h.prologue :: spans.map Span.block, ∃ c,
        Block.next h.memory b = .ok c ∧ Block.prev h.memory c = .ok b) ∧
      (∀ c ∈ spans.map Span.block ++ [Memory.size h.memory], ∃ b,
        Block.prev h.memory c = .ok b ∧ Block.next h.memory b = .ok c) ∧
      Block.chainBack h.memory h.prologue =
        .ok ((spans.map Span.block).reverse ++ [h.prologue]) := by
  obtain ⟨spans, files, stops, consistent⟩ := consistent_of_clean bounded clean
  have bounded' := Nat.lt_of_lt_of_le bounded (show 1 <<< 63 ≤ offsetLimit by decide)
  refine ⟨spans, consistent.chain_eq bounded', ?_, ?_, consistent.chainBack_eq⟩
  · intro b member
    rw [← Span.block_of h.prologue 8 true, ← List.map_cons] at member
    obtain ⟨x, found, here⟩ := List.mem_map.mp member
    obtain ⟨forwards, back⟩ := consistent.step_back bounded' found
    rw [here] at forwards back
    exact ⟨_, forwards, back⟩
  · intro c member
    obtain ⟨x, found, ends⟩ := consistent.tiles_prologue.ends c member
    obtain ⟨forwards, back⟩ := consistent.step_back bounded' found
    rw [ends] at forwards back
    exact ⟨_, back, forwards⟩

theorem gaps_walked_back : ∃ s : Session Buffer,
    Memory.size s.heap.memory < 1 <<< 63 ∧ s.heap.violations = .ok [] ∧
      (∃ c, Block.next s.heap.memory 8 = .ok c ∧ Block.prev s.heap.memory c = .ok 8) ∧
      (∃ b, Block.prev s.heap.memory 352 = .ok b ∧ Block.next s.heap.memory b = .ok 352) ∧
      Block.chainBack s.heap.memory 8 = .ok [152, 136, 72, 56, 16, 8] := by
  obtain ⟨s, files, regular, size⟩ := Session.gaps_regular
  have consistent := regular.consistent
  have bounded : Memory.size s.heap.memory < 1 <<< 63 := by
    rw [size]
    decide
  have clean := consistent.violations_eq bounded
  obtain ⟨spans, walked, forwards, backwards, passed⟩ := chain_walked_both_ways s.heap bounded clean
  rw [consistent.chain_eq (Nat.lt_of_lt_of_le bounded (by decide))] at walked
  cases walked
  have first : 16 = s.heap.prologue + 8 := regular.chained.tiles.1
  have prologue : s.heap.prologue = 8 := by omega
  rw [prologue] at forwards passed
  rw [size] at backwards
  exact ⟨s, bounded, clean, forwards 8 (by simp), backwards 352 (by simp), passed⟩

end Heap

end SegregatedFit
