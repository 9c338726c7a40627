import Mathlib.Algebra.GroupWithZero.Nat
import SegregatedFit.Proofs.Codec
import SegregatedFit.Proofs.Lists

/-!
The chain of blocks. The spans behind the prologue tile the memory up to the epilogue, so their
bytes are apart, and a write into payloads leaves all tags as they were.
-/

namespace SegregatedFit

theorem Span.eq_of_header {M : Type} [Memory M] {m : M} {x y : Span} (same : x.block = y.block)
    (first : Block.tag m x.block = .ok x.tag) (second : Block.tag m y.block = .ok y.tag) :
    x = y := by
  obtain ⟨b, t⟩ := x
  obtain ⟨c, u⟩ := y
  have here : b = c := same
  subst here
  rw [first] at second
  exact congrArg (Span.mk b) (Except.ok.inj second)

theorem Span.block_ne_of_nodup {spans left right : List Span} {x y : Span}
    (nodup : (spans.map Span.block).Nodup) (split : spans = left ++ x :: right)
    (outer : y ∈ left ++ right) : y.block ≠ x.block := by
  rw [split, List.map_append, List.map_cons] at nodup
  intro same
  apply not_mem_around nodup
  rw [← List.map_append, ← same]
  exact List.mem_map_of_mem outer

/-- The spans lie one behind the other, the first at `start` and the last one ending at `stop`. -/
def Tiles : Nat → List Span → Nat → Prop
  | start, [], stop => start = stop
  | start, x :: rest, stop => x.block = start ∧ Tiles (start + x.tag.size) rest stop

namespace Tiles

variable {start middle stop i : Nat} {spans left right : List Span} {x y : Span}

theorem append_iff :
    Tiles start (left ++ right) stop ↔ ∃ middle, Tiles start left middle ∧ Tiles middle right stop := by
  induction left generalizing start with
  | nil => simp [Tiles]
  | cons x left ih => simp only [List.cons_append, Tiles, ih, exists_and_left, and_assoc]

theorem append (first : Tiles start left middle) (second : Tiles middle right stop) :
    Tiles start (left ++ right) stop :=
  append_iff.mpr ⟨middle, first, second⟩

theorem le (tiles : Tiles start spans stop) : start ≤ stop := by
  induction spans generalizing start with
  | nil => exact Nat.le_of_eq tiles
  | cons x rest ih => exact Nat.le_trans (Nat.le_add_right _ _) (ih tiles.2)

theorem within (tiles : Tiles start spans stop) (member : x ∈ spans) :
    start ≤ x.block ∧ x.block + x.tag.size ≤ stop := by
  obtain ⟨left, right, rfl⟩ := List.append_of_mem member
  obtain ⟨middle, before, rfl, behind⟩ := append_iff.mp tiles
  exact ⟨before.le, behind.le⟩

theorem around (tiles : Tiles start (left ++ x :: right) stop) :
    Tiles start left x.block ∧ Tiles (x.block + x.tag.size) right stop := by
  obtain ⟨middle, before, rfl, behind⟩ := append_iff.mp tiles
  exact ⟨before, behind⟩

theorem stretch {between : List Span} (tiles : Tiles start (left ++ between ++ right) stop) :
    ∃ low high, Tiles start left low ∧ Tiles low between high ∧ Tiles high right stop := by
  obtain ⟨high, tiles, behind⟩ := append_iff.mp tiles
  obtain ⟨low, before, inside⟩ := append_iff.mp tiles
  exact ⟨low, high, before, inside, behind⟩

theorem not_covers {between : List Span} (tiles : Tiles start (left ++ between ++ right) stop)
    (outer : x ∈ left ++ right) (covers : x.Covers i) : ∀ y ∈ between, ¬y.Covers i := by
  obtain ⟨low, high, before, inside, behind⟩ := tiles.stretch
  intro y inner shared
  have bounds := inside.within inner
  unfold Span.Covers at covers shared
  rcases List.mem_append.mp outer with first | last
  · have := before.within first
    omega
  · have := behind.within last
    omega

theorem past {stop' : Nat} (tiles : Tiles start spans stop) (front : start ≤ stop')
    (apart : ∀ y ∈ spans, stop' + 4 ≤ y.block ∨ y.block + y.tag.size ≤ stop') : stop ≤ stop' := by
  induction spans generalizing start with
  | nil =>
    have here : start = stop := tiles
    exact here ▸ front
  | cons x rest ih =>
    obtain ⟨rfl, behind⟩ := tiles
    have first := apart x (by simp)
    exact ih behind (by omega) fun y member => apart y (List.mem_cons_of_mem _ member)

theorem avoid {other : List Span} {stop' : Nat} (tiles : Tiles start spans stop)
    (other_tiles : Tiles start other stop) (room : ∀ z ∈ other, 0 < z.tag.size)
    (apart : ∀ y ∈ spans, stop' + 4 ≤ y.block ∨ y.block + y.tag.size ≤ stop')
    (member : x ∈ other) : stop' + 4 ≤ x.block ∨ x.block + x.tag.size ≤ stop' := by
  have bounds := other_tiles.within member
  cases spans with
  | nil =>
    have here : start = stop := tiles
    have := room x member
    omega
  | cons y rest =>
    rcases apart y (by simp) with before | behind
    · have here : y.block = start := tiles.1
      omega
    · have here : y.block = start := tiles.1
      have : stop ≤ stop' := tiles.past (by omega) apart
      omega

theorem covered (tiles : Tiles start spans stop) (low : start ≤ i + 4) (high : i + 4 < stop) :
    ∃ y ∈ spans, y.Covers i := by
  induction spans generalizing start with
  | nil =>
    have : start = stop := tiles
    omega
  | cons x rest ih =>
    obtain ⟨rfl, behind⟩ := tiles
    by_cases here : i + 4 < x.block + x.tag.size
    · exact ⟨x, by simp, low, here⟩
    · obtain ⟨y, member, covers⟩ := ih behind (by omega)
      exact ⟨y, List.mem_cons_of_mem _ member, covers⟩

theorem apart (tiles : Tiles start spans stop) (first : x ∈ spans) (second : y ∈ spans)
    (different : x.block ≠ y.block) :
    x.block + x.tag.size ≤ y.block ∨ y.block + y.tag.size ≤ x.block := by
  obtain ⟨left, right, rfl⟩ := List.append_of_mem first
  obtain ⟨before, behind⟩ := tiles.around
  rcases List.mem_append.mp second with member | member
  · exact .inr (before.within member).2
  · rcases List.mem_cons.mp member with rfl | member
    · exact absurd rfl different
    · exact .inl (behind.within member).1

theorem block_ne (tiles : Tiles start (left ++ x :: right) stop)
    (room : ∀ z ∈ left ++ x :: right, 0 < z.tag.size) (outer : y ∈ left ++ right) :
    y.block ≠ x.block := by
  intro same
  have here := room x (by simp)
  have around := tiles.around
  rcases List.mem_append.mp outer with first | last
  · have := around.1.within first
    have := room y (by simp [first])
    omega
  · have := around.2.within last
    omega

theorem eq_of_block (tiles : Tiles start spans stop) (room : ∀ z ∈ spans, 0 < z.tag.size)
    (first : x ∈ spans) (second : y ∈ spans) (same : x.block = y.block) : x = y := by
  have here := room x first
  have there := room y second
  obtain ⟨left, right, rfl⟩ := List.append_of_mem first
  obtain ⟨before, behind⟩ := tiles.around
  rcases List.mem_append.mp second with member | member
  · have := (before.within member).2
    omega
  · rcases List.mem_cons.mp member with rfl | member
    · rfl
    · have := (behind.within member).1
      omega

theorem eq_of_covers (tiles : Tiles start spans stop) (room : ∀ z ∈ spans, 0 < z.tag.size)
    (first : x ∈ spans) (second : y ∈ spans) (here : x.Covers i) (there : y.Covers i) : x = y := by
  apply tiles.eq_of_block room first second
  apply Decidable.byContradiction
  intro different
  have := tiles.apart first second different
  unfold Span.Covers at here there
  omega

theorem sorted (tiles : Tiles start spans stop) (room : ∀ z ∈ spans, 0 < z.tag.size) :
    (spans.map Span.block).Pairwise (· < ·) := by
  induction spans generalizing start with
  | nil => exact List.Pairwise.nil
  | cons x rest ih =>
    obtain ⟨rfl, behind⟩ := tiles
    refine List.pairwise_cons.mpr ⟨fun b member => ?_, ih behind ?_⟩
    · obtain ⟨y, inside, rfl⟩ := List.mem_map.mp member
      have := (behind.within inside).1
      have := room x (by simp)
      omega
    · exact fun z member => room z (List.mem_cons_of_mem _ member)

theorem sum_sizes (tiles : Tiles start spans stop) :
    start + (spans.map fun x => x.tag.size).sum = stop := by
  induction spans generalizing start with
  | nil => simpa [Tiles] using tiles
  | cons x rest ih =>
    obtain ⟨rfl, behind⟩ := tiles
    rw [List.map_cons, List.sum_cons]
    calc
      x.block + (x.tag.size + (rest.map fun x => x.tag.size).sum) =
          x.block + x.tag.size + (rest.map fun x => x.tag.size).sum := (Nat.add_assoc ..).symm
      _ = stop := ih behind

theorem eq_nil (tiles : Tiles stop spans stop) (room : ∀ y ∈ spans, 0 < y.tag.size) :
    spans = [] := by
  cases spans with
  | nil => rfl
  | cons y rest =>
    have size := room y (by simp)
    have bounds := tiles.within (List.mem_cons_self ..)
    omega

/-- The walk over the headers: what starts at the same block is the same chain. -/
theorem eq_of_headers {M : Type} [Memory M] {m : M} {other : List Span}
    (tiles : Tiles start spans stop) (other_tiles : Tiles start other stop)
    (room : ∀ y ∈ spans, 0 < y.tag.size) (other_room : ∀ y ∈ other, 0 < y.tag.size)
    (headers : ∀ y ∈ spans, Block.tag m y.block = .ok y.tag)
    (other_headers : ∀ y ∈ other, Block.tag m y.block = .ok y.tag) : other = spans := by
  induction spans generalizing start other with
  | nil =>
    have here : start = stop := tiles
    subst here
    exact other_tiles.eq_nil other_room
  | cons y rest ih =>
    cases other with
    | nil =>
      have here : start = stop := other_tiles
      subst here
      exact (tiles.eq_nil room).symm
    | cons z rest' =>
      obtain ⟨here, behind⟩ := tiles
      obtain ⟨there, behind'⟩ := other_tiles
      have same : z = y := Span.eq_of_header (there.trans here.symm) (other_headers z (by simp))
        (headers y (by simp))
      subst same
      rw [ih behind behind' (fun w member => room w (List.mem_cons_of_mem _ member))
        (fun w member => other_room w (List.mem_cons_of_mem _ member))
        (fun w member => headers w (List.mem_cons_of_mem _ member))
        fun w member => other_headers w (List.mem_cons_of_mem _ member)]

theorem aligned (tiles : Tiles start spans stop) (front : start % 8 = 0) :
    (∀ x ∈ spans, x.block % 8 = 0) ∧ stop % 8 = 0 := by
  induction spans generalizing start with
  | nil =>
    have here : start = stop := tiles
    exact ⟨by simp, here ▸ front⟩
  | cons x rest ih =>
    obtain ⟨rfl, behind⟩ := tiles
    have divides := x.tag.size_mod
    obtain ⟨later, stops⟩ := ih behind (by omega)
    exact ⟨by simpa using ⟨front, later⟩, stops⟩

theorem not_inTags (tiles : Tiles start spans stop) (room : ∀ z ∈ spans, 8 ≤ z.tag.size)
    (first : x ∈ spans) (second : y ∈ spans) (payload : x.Payload i) : ¬y.InTags i := by
  intro tagged
  have here := room x first
  have there := room y second
  unfold Span.Payload at payload
  unfold Span.InTags at tagged
  by_cases same : x.block = y.block
  · have := tiles.eq_of_block (fun z member => Nat.lt_of_lt_of_le (by decide) (room z member))
      first second same
    subst this
    omega
  · have := tiles.apart first second same
    omega

end Tiles

/-- The prologue, the spans behind it and the epilogue at the end of the memory, all with the tags
they should have. -/
structure Chained {M : Type} [Memory M] (m : M) (prologue : Nat) (spans : List Span) : Prop where
  sentinel : Span.Written m (.of prologue 8 true)
  tiles : Tiles (prologue + 8) spans (Memory.size m)
  written : ∀ x ∈ spans, x.Written m
  epilogue : ∃ t, Block.tag m (Memory.size m) = .ok t ∧ t.size = 0 ∧ t.allocated = true

namespace Chained

variable {M : Type} [Memory M] {m m' : M} {prologue : Nat} {spans left right : List Span} {x : Span}

theorem front (chained : Chained m prologue spans) : 4 ≤ prologue :=
  (Block.tag_inside chained.sentinel.header).1

theorem sentinel_footer (chained : Chained m prologue spans) :
    Block.tagAt m prologue = .ok (Tag.of 8 true) := by
  have footer := chained.sentinel.footer
  simpa [Tag.size_sentinel] using footer

theorem end_ge (chained : Chained m prologue spans) : prologue + 8 ≤ Memory.size m :=
  chained.tiles.le

theorem of_same (chained : Chained m prologue spans) (room : ∀ x ∈ spans, 8 ≤ x.tag.size)
    (same_size : Memory.size m' = Memory.size m)
    (same : ∀ i, (i < prologue + 4 ∨ Memory.size m ≤ i + 4 ∨ ∃ x ∈ spans, x.InTags i) →
      Memory.byte m' i = Memory.byte m i) : Chained m' prologue spans where
  sentinel := by
    refine chained.sentinel.of_same (Nat.le_of_eq Tag.size_sentinel.symm) (by omega) ?_
    intro i tagged
    simp only [Span.InTags, Span.block_of, Span.tag_of, Tag.size_sentinel] at tagged
    exact same i (.inl (by omega))
  tiles := same_size ▸ chained.tiles
  written x member := by
    refine (chained.written x member).of_same (room x member) (by omega) fun i tagged => ?_
    exact same i (.inr (.inr ⟨x, member, tagged⟩))
  epilogue := by
    obtain ⟨t, read, rest⟩ := chained.epilogue
    rw [same_size]
    exact ⟨t, Block.tag_of_same (by omega) (fun i low _ => same i (.inr (.inl low))) read, rest⟩

theorem of_payloads (chained : Chained m prologue spans) (room : ∀ x ∈ spans, 8 ≤ x.tag.size)
    (same_size : Memory.size m' = Memory.size m) {changed : Nat → Prop}
    (same : ∀ i, ¬changed i → Memory.byte m' i = Memory.byte m i)
    (inside : ∀ i, changed i → ∃ x ∈ spans, x.Payload i) : Chained m' prologue spans := by
  refine chained.of_same room same_size fun i tagged => same i fun change => ?_
  obtain ⟨x, member, payload⟩ := inside i change
  have bounds := chained.tiles.within member
  have whole := payload
  unfold Span.Payload at whole
  rcases tagged with low | high | ⟨y, other, tagged⟩
  · omega
  · omega
  · exact chained.tiles.not_inTags room member other payload tagged

/-- Some blocks are replaced by others that tile the same bytes. -/
theorem retile {between between' : List Span}
    (chained : Chained m prologue (left ++ between ++ right))
    (room : ∀ x ∈ left ++ right, 8 ≤ x.tag.size)
    (tiled : ∀ low high, Tiles low between high → Tiles low between' high)
    (same_size : Memory.size m' = Memory.size m)
    (same : ∀ i, (∀ y ∈ between, ¬y.Covers i) → Memory.byte m' i = Memory.byte m i)
    (written : ∀ y ∈ between', y.Written m') : Chained m' prologue (left ++ between' ++ right) := by
  have bounds : ∀ y ∈ between, prologue + 8 ≤ y.block ∧ y.block + y.tag.size ≤ Memory.size m :=
    fun y inner => chained.tiles.within (List.mem_append_left _ (List.mem_append_right _ inner))
  constructor
  · apply chained.sentinel.of_same (Nat.le_of_eq Tag.size_sentinel.symm)
      (Nat.le_of_eq same_size.symm)
    intro i tagged
    apply same i
    intro y inner covers
    have := bounds y inner
    simp only [Span.InTags, Span.block_of, Span.tag_of, Tag.size_sentinel] at tagged
    unfold Span.Covers at covers
    omega
  · obtain ⟨low, high, before, inside, behind⟩ := chained.tiles.stretch
    rw [same_size]
    exact (before.append (tiled low high inside)).append behind
  · intro x member
    by_cases new : x ∈ between'
    · exact written x new
    · have outer := mem_around member new
      have eight := room x outer
      apply (chained.written x (mem_of_around between outer)).of_same eight
        (Nat.le_of_eq same_size.symm)
      intro i tagged
      unfold Span.InTags at tagged
      exact same i (chained.tiles.not_covers outer (by unfold Span.Covers; omega))
  · obtain ⟨t, read, rest⟩ := chained.epilogue
    rw [same_size]
    refine ⟨t, Block.tag_of_same (Nat.le_of_eq same_size.symm) (fun i low high => ?_) read, rest⟩
    apply same i
    intro y inner covers
    have := bounds y inner
    unfold Span.Covers at covers
    omega

theorem prev_eq (chained : Chained m prologue (left ++ x :: right))
    (room : ∀ y ∈ left, 8 ≤ y.tag.size) :
    (left = [] ∧ Block.prev m x.block = .ok prologue ∧
      Block.tag m prologue = .ok (Tag.of 8 true)) ∨
    ∃ before p, left = before ++ [p] ∧ Block.prev m x.block = .ok p.block ∧
      Block.tag m p.block = .ok p.tag := by
  rcases left.eq_nil_or_concat with rfl | ⟨before, p, rfl⟩
  · have here : x.block = prologue + 8 := chained.tiles.1
    have back := chained.sentinel.prev_eq (Nat.le_of_eq Tag.size_sentinel.symm)
    rw [Span.block_of, Span.tag_of, Tag.size_sentinel, ← here] at back
    exact .inl ⟨rfl, back, chained.sentinel.header⟩
  · have member : p ∈ before.concat p ++ x :: right := by simp
    have written := chained.written p member
    obtain ⟨left_tiles, _⟩ := chained.tiles.around
    rw [List.concat_eq_append] at left_tiles
    obtain ⟨_, here⟩ := left_tiles.around
    have next_block : p.block + p.tag.size = x.block := here
    have back := written.prev_eq (room p (by simp))
    exact .inr ⟨before, p, List.concat_eq_append .., next_block ▸ back, written.header⟩

theorem next_eq (chained : Chained m prologue (left ++ x :: right))
    (bounded : Memory.size m < offsetLimit) :
    Block.next m x.block = .ok (x.block + x.tag.size) ∧
    ((right = [] ∧ x.block + x.tag.size = Memory.size m ∧
        ∃ t, Block.tag m (x.block + x.tag.size) = .ok t ∧ t.allocated = true) ∨
      ∃ n behind, right = n :: behind ∧ n.block = x.block + x.tag.size ∧
        Block.tag m n.block = .ok n.tag) := by
  have member : x ∈ left ++ x :: right := by simp
  have bounds := chained.tiles.within member
  obtain ⟨_, tiles⟩ := chained.tiles.around
  refine ⟨(chained.written x member).next_eq (by omega), ?_⟩
  cases right with
  | nil =>
    have stop : x.block + x.tag.size = Memory.size m := tiles
    obtain ⟨t, read, _, used⟩ := chained.epilogue
    exact .inl ⟨rfl, stop, t, stop ▸ read, used⟩
  | cons n behind =>
    exact .inr ⟨n, behind, rfl, tiles.1, (chained.written n (by simp)).header⟩

end Chained

end SegregatedFit
