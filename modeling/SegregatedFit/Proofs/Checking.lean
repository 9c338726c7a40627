import SegregatedFit.Check
import SegregatedFit.Proofs.Consistency

/-!
The checker decides consistency. On any memory it comes to an end without a fault, and it finds
nothing exactly if the heap is consistent. Each pass has a theorem of its own that says what it
finds.
-/

namespace SegregatedFit

namespace Threaded

variable {M : Type} [Memory M] {m : M} {stop stop' b : Nat} {blocks blocks' : List Nat}

theorem unique (first : Threaded m stop b blocks) (second : Threaded m stop' b blocks')
    (free : ∀ c ∈ blocks, FreeLists.Free m c) (free' : ∀ c ∈ blocks', FreeLists.Free m c)
    (ends : FreeLists.Used m stop) (ends' : FreeLists.Used m stop') : blocks = blocks' := by
  have clash : ∀ {c}, FreeLists.Free m c → ¬FreeLists.Used m c := by
    rintro c ⟨t, read, unused⟩ ⟨t', read', used⟩
    rw [read] at read'
    cases read'
    rw [used] at unused
    exact absurd unused (by decide)
  induction blocks generalizing b blocks' with
  | nil =>
    cases blocks' with
    | nil => rfl
    | cons c rest =>
      have here : b = stop := first
      have there : b = c := second.1
      exact absurd (here ▸ ends) (clash (there ▸ free' c (by simp)))
  | cons c rest ih =>
    cases blocks' with
    | nil =>
      have here : b = c := first.1
      have there : b = stop' := second
      exact absurd (there ▸ ends') (clash (here ▸ free c (by simp)))
    | cons d rest' =>
      obtain ⟨rfl, next, link, later⟩ := first
      obtain ⟨rfl, next', link', later'⟩ := second
      rw [link] at link'
      cases link'
      rw [ih later later' (fun e member => free e (List.mem_cons_of_mem _ member))
        fun e member => free' e (List.mem_cons_of_mem _ member)]

theorem nodup (threaded : Threaded m stop b blocks) (free : ∀ c ∈ blocks, FreeLists.Free m c)
    (ends : FreeLists.Used m stop) : blocks.Nodup := by
  induction blocks generalizing b with
  | nil => exact List.nodup_nil
  | cons c rest ih =>
    have later := threaded
    obtain ⟨rfl, next, _, tail⟩ := later
    have rest_free : ∀ d ∈ rest, FreeLists.Free m d := fun d member =>
      free d (List.mem_cons_of_mem _ member)
    refine List.nodup_cons.mpr ⟨fun again => ?_, ih tail rest_free⟩
    -- from its second visit on, the list would be a copy of itself
    obtain ⟨xs, ys, rfl⟩ := List.append_of_mem again
    have copy : Threaded m stop b (b :: ys) := tail.drop_left
    have same := threaded.unique copy free
      (fun d member => free d (List.mem_cons_of_mem _ (List.mem_append_right _ member))) ends ends
    have := congrArg List.length same
    simp at this
    omega

end Threaded

namespace Check

variable {M : Type} [Memory M] {m : M} {b room : Nat} {seen : List Block}

section Lists

theorem outside_eq (bounded : Memory.size m < 1 <<< 63) (b : Nat) :
    outside m b = .ok (decide (b < 4 ∨ Memory.size m < b + 8)) := by
  unfold outside Tag.bytes
  by_cases front : b < 4
  · simp [front, pure, Except.pure]
  · have header : Block.headerOffset b = .ok (b - 4) := minus_of_le (by simp only [Tag.bytes]; omega)
    have last : Memory.last m = Memory.size m - 1 := rfl
    simp only [if_neg front, header, bind, Except.bind, pure, Except.pure]
    by_cases past : Memory.last m < b - 4
    · rw [if_pos past]
      have : Memory.size m < b + 8 := by omega
      simp [this]
    · have behind : plus b Block.linkBytes = .ok (b + 8) :=
        plus_of_lt (by simp only [Block.linkBytes, offsetLimit]; omega)
      simp only [if_neg past, behind]
      simp [front]

theorem inside_defined (inside : ¬(b < 4 ∨ Memory.size m < b + 8)) :
    (∃ t, Block.tag m b = .ok t) ∧ ∃ next, Block.link m b = .ok next := by
  exact ⟨Block.tag_defined (by omega) (by omega), Block.link_defined (by omega)⟩

theorem follow_outside (bounded : Memory.size m < 1 <<< 63) (out : b < 4 ∨ Memory.size m < b + 8) :
    follow m room b seen = .ok (seen, .outside b) := by
  cases room <;> simp [follow, outside_eq bounded, out, bind, Except.bind, pure, Except.pure]

variable {t : Tag} {next : Nat}

theorem follow_used (bounded : Memory.size m < 1 <<< 63) (inside : ¬(b < 4 ∨ Memory.size m < b + 8))
    (read : Block.tag m b = .ok t) (used : t.allocated = true) :
    follow m room b seen = .ok (seen, .terminated) := by
  cases room <;>
    simp [follow, outside_eq bounded, inside, Block.allocated_of_tag read, used, bind, Except.bind,
      pure, Except.pure]

theorem follow_free (bounded : Memory.size m < 1 <<< 63) (inside : ¬(b < 4 ∨ Memory.size m < b + 8))
    (read : Block.tag m b = .ok t) (unused : t.allocated = false)
    (link : Block.link m b = .ok next) :
    follow m (room + 1) b seen = follow m room next (b :: seen) := by
  simp [follow, outside_eq bounded, inside, Block.allocated_of_tag read, unused, link, bind,
    Except.bind]

theorem follow_endless (bounded : Memory.size m < 1 <<< 63)
    (inside : ¬(b < 4 ∨ Memory.size m < b + 8)) (read : Block.tag m b = .ok t)
    (unused : t.allocated = false) : follow m 0 b seen = .ok (seen, .endless) := by
  simp [follow, outside_eq bounded, inside, Block.allocated_of_tag read, unused, bind, Except.bind,
    pure, Except.pure]

/-- Following a list comes to an end, and if that is a block in use then the list was threaded up to
there. -/
theorem follow_spec (bounded : Memory.size m < 1 <<< 63) (room b : Nat) (seen : List Block) :
    ∃ blocks ending, follow m room b seen = .ok (blocks.reverse ++ seen, ending) ∧
      (ending = .terminated → ∃ stop, Threaded m stop b blocks ∧
        (∀ c ∈ blocks, FreeLists.Free m c) ∧ FreeLists.Used m stop ∧
        stop + 8 ≤ Memory.size m) := by
  induction room generalizing b seen with
  | zero =>
    by_cases out : b < 4 ∨ Memory.size m < b + 8
    · exact ⟨[], .outside b, follow_outside bounded out, by simp⟩
    · obtain ⟨⟨t, read⟩, _⟩ := inside_defined out
      cases used : t.allocated with
      | true =>
        exact ⟨[], .terminated, follow_used bounded out read used, fun _ =>
          ⟨b, rfl, by simp, ⟨t, read, used⟩, by omega⟩⟩
      | false => exact ⟨[], .endless, follow_endless bounded out read used, by simp⟩
  | succ room ih =>
    by_cases out : b < 4 ∨ Memory.size m < b + 8
    · exact ⟨[], .outside b, follow_outside bounded out, by simp⟩
    · obtain ⟨⟨t, read⟩, next, link⟩ := inside_defined out
      cases used : t.allocated with
      | true =>
        exact ⟨[], .terminated, follow_used bounded out read used, fun _ =>
          ⟨b, rfl, by simp, ⟨t, read, used⟩, by omega⟩⟩
      | false =>
        obtain ⟨blocks, ending, ran, stops⟩ := ih next (b :: seen)
        refine ⟨b :: blocks, ending, ?_, fun ended => ?_⟩
        · rw [follow_free bounded out read used link, ran, List.reverse_cons, List.append_assoc]
          rfl
        · obtain ⟨stop, threaded, free, ends⟩ := stops ended
          refine ⟨stop, ⟨rfl, next, link, threaded⟩, fun c member => ?_, ends⟩
          rcases List.mem_cons.mp member with rfl | later
          · exact ⟨t, read, used⟩
          · exact free c later

theorem follow_threaded {stop : Nat} {blocks : List Nat} (seen : List Block)
    (bounded : Memory.size m < 1 <<< 63)
    (threaded : Threaded m stop b blocks) (free : ∀ c ∈ blocks, FreeLists.Free m c)
    (ends : FreeLists.Used m stop) (ends_inside : stop + 8 ≤ Memory.size m)
    (enough : blocks.length ≤ room) :
    follow m room b seen = .ok (blocks.reverse ++ seen, .terminated) := by
  induction blocks generalizing b room seen with
  | nil =>
    have here : b = stop := threaded
    subst here
    obtain ⟨t, read, used⟩ := ends
    have front := (Block.tag_inside read).1
    exact follow_used bounded (by omega) read used
  | cons c rest ih =>
    obtain ⟨room, rfl⟩ : ∃ n, room = n + 1 := ⟨room - 1, by simp at enough; omega⟩
    obtain ⟨rfl, next, link, later⟩ := threaded
    obtain ⟨t, read, unused⟩ := free b (by simp)
    have front := (Block.tag_inside read).1
    have inside := (Block.link_eq_ok.mp link).1
    rw [follow_free bounded (by omega) read unused link,
      ih (b :: seen) later (fun d member => free d (List.mem_cons_of_mem _ member)) (by simpa using enough),
      List.reverse_cons, List.append_assoc]
    rfl

theorem violations_eq_nil (cls : SizeClass) (ending : ListEnd) :
    ending.violations cls = [] ↔ ending = .terminated := by
  cases ending <;> simp [ListEnd.violations]

theorem followAll_eq {lists : FreeLists} {blocks : SizeClass → List Block}
    {endings : SizeClass → ListEnd}
    (ran : ∀ cls, follow m (listRoom m) (lists.head cls) [] = .ok (blocks cls, endings cls))
    (classes : List SizeClass) :
    followAll m lists classes = .ok
      (classes.flatMap fun cls => (blocks cls).map (·, cls),
        classes.flatMap fun cls => (endings cls).violations cls) := by
  induction classes with
  | nil => rfl
  | cons cls classes ih =>
    simp only [followAll, ran, ih, bind, Except.bind]
    rfl

theorem mem_eraseReps {α : Type} [BEq α] [LawfulBEq α] {a : α} {l : List α} :
    a ∈ l.eraseReps ↔ a ∈ l := by
  have loop : ∀ (l acc : List α) (b : α),
      a ∈ List.eraseRepsBy.loop (· == ·) b l acc ↔ a ∈ acc ∨ a = b ∨ a ∈ l := by
    intro l
    induction l with
    | nil =>
      intro acc b
      simp [List.eraseRepsBy.loop, or_comm]
    | cons c l ih =>
      intro acc b
      rw [List.eraseRepsBy.loop]
      by_cases same : b = c
      · subst same
        simp [ih]
      · simp only [beq_eq_false_iff_ne.mpr same, ih, List.mem_cons]
        tauto
  cases l with
  | nil => simp [List.eraseReps, List.eraseRepsBy]
  | cons b l => simpa [List.eraseReps, List.eraseRepsBy] using loop l [] b

theorem mem_ordered {listed : Listed} {entry : Block × SizeClass} :
    entry ∈ listed.ordered ↔ entry ∈ listed := by
  unfold Listed.ordered
  rw [mem_eraseReps, List.mem_mergeSort]

end Lists

section Blocks

structure Surveyed (m : M) (x : Span) : Prop where
  header : Block.tag m x.block = .ok x.tag
  room : 8 ≤ x.tag.size
  inside : x.block + x.tag.size ≤ Memory.size m + 4

section Survey

variable {fuel : Nat} {t : Tag}

theorem survey_outside (out : Memory.size m < b) :
    survey m (fuel + 1) b = .ok ([], [.blockOutside b]) := by
  simp [survey, out, pure, Except.pure]

theorem survey_end (inside : b ≤ Memory.size m) (read : Block.tag m b = .ok t)
    (zero : t.size = 0) :
    survey m (fuel + 1) b = .ok
      ([], if t.allocated && b == Memory.size m then [] else [.malformedEpilogue b t]) := by
  simp [survey, Nat.not_lt.mpr inside, read, zero, bind, Except.bind, pure, Except.pure]

theorem footer_defined (bounded : Memory.size m < 1 <<< 63) (inside : b ≤ Memory.size m)
    (room : 8 ≤ t.size) :
    Block.footerOffset b t.size = .ok (b + t.size - 8) ∧
      plus (b + t.size - 8) Tag.bytes = .ok (b + t.size - 4) ∧
      plus b t.size = .ok (b + t.size) := by
  have small := t.size_le
  simp only [Tag.maxSize] at small
  have in_range : b + t.size < offsetLimit := by
    simp only [offsetLimit]
    omega
  have behind : plus (b + t.size - 8) Tag.bytes = .ok (b + t.size - 8 + 4) :=
    plus_of_lt (Nat.lt_of_le_of_lt (show b + t.size - 8 + 4 ≤ b + t.size by omega) in_range)
  refine ⟨Block.footerOffset_of_lt (by omega) in_range, ?_, plus_of_lt in_range⟩
  rw [behind]
  exact congrArg Except.ok (by omega)

theorem survey_cut (bounded : Memory.size m < 1 <<< 63) (inside : b ≤ Memory.size m)
    (read : Block.tag m b = .ok t) (room : 8 ≤ t.size) (cut : Memory.size m + 4 < b + t.size) :
    survey m (fuel + 1) b = .ok ([], [.blockOutside b]) := by
  obtain ⟨footer, behind, _⟩ := footer_defined bounded inside room
  have past : Memory.size m < b + t.size - 4 := by omega
  have taken : t.size ≠ 0 := by omega
  simp [survey, Nat.not_lt.mpr inside, read, taken, footer, behind, past, bind, Except.bind, pure,
    Except.pure]

theorem survey_block {spans : List Span} {found : List Violation}
    (bounded : Memory.size m < 1 <<< 63) (read : Block.tag m b = .ok t) (room : 8 ≤ t.size)
    (inside : b + t.size ≤ Memory.size m + 4)
    (later : survey m fuel (b + t.size) = .ok (spans, found)) :
    survey m (fuel + 1) b = .ok (⟨b, t⟩ :: spans, found) := by
  obtain ⟨footer, behind, sum⟩ := footer_defined (b := b) bounded (by omega) room
  have fits : ¬Memory.size m < b + t.size - 4 := by omega
  have near : ¬Memory.size m < b := by omega
  have taken : t.size ≠ 0 := by omega
  simp [survey, near, read, taken, footer, behind, fits, sum, later, bind, Except.bind, pure,
    Except.pure]

end Survey

/-- The survey comes to an end, and if it finds nothing wrong its blocks tile the memory. -/
theorem survey_spec (bounded : Memory.size m < 1 <<< 63) (fuel b : Nat) (front : 4 ≤ b)
    (near : b ≤ Memory.size m + 4) (enough : Memory.size m + 8 ≤ b + 8 * fuel) :
    ∃ spans found, survey m fuel b = .ok (spans, found) ∧ (∀ x ∈ spans, Surveyed m x) ∧
      (found = [] → Tiles b spans (Memory.size m) ∧
        ∃ t, Block.tag m (Memory.size m) = .ok t ∧ t.size = 0 ∧ t.allocated = true) := by
  induction fuel generalizing b with
  | zero => omega
  | succ fuel ih =>
    by_cases out : Memory.size m < b
    · exact ⟨[], [.blockOutside b], survey_outside out, by simp, by simp⟩
    · obtain ⟨t, read⟩ := Block.tag_defined front (Nat.not_lt.mp out)
      by_cases zero : t.size = 0
      · refine ⟨[], _, survey_end (by omega) read zero, by simp, fun proper => ?_⟩
        by_cases ended : (t.allocated && b == Memory.size m) = true
        · obtain ⟨used, here⟩ := Bool.and_eq_true_iff.mp ended
          have here : b = Memory.size m := by simpa using here
          exact ⟨here, t, here ▸ read, zero, used⟩
        · simp [ended] at proper
      · have room : 8 ≤ t.size := by
          have := t.size_mod
          omega
        by_cases cut : Memory.size m + 4 < b + t.size
        · exact ⟨[], [.blockOutside b], survey_cut bounded (by omega) read room cut, by simp,
            by simp⟩
        · obtain ⟨spans, found, ran, surveyed, ends⟩ :=
            ih (b + t.size) (by omega) (by omega) (by omega)
          refine ⟨⟨b, t⟩ :: spans, found, survey_block bounded read room (by omega) ran, ?_, ?_⟩
          · intro x member
            rcases List.mem_cons.mp member with rfl | later
            · exact ⟨read, room, by simpa using Nat.not_lt.mp cut⟩
            · exact surveyed x later
          · intro nothing
            exact ⟨⟨rfl, (ends nothing).1⟩, (ends nothing).2⟩

theorem survey_tiles {spans : List Span} (bounded : Memory.size m < 1 <<< 63) (fuel : Nat)
    (enough : spans.length < fuel) (tiles : Tiles b spans (Memory.size m))
    (headers : ∀ x ∈ spans, Block.tag m x.block = .ok x.tag)
    (room : ∀ x ∈ spans, 8 ≤ x.tag.size)
    (epilogue : ∃ t, Block.tag m (Memory.size m) = .ok t ∧ t.size = 0 ∧ t.allocated = true) :
    survey m fuel b = .ok (spans, []) := by
  induction spans generalizing b fuel with
  | nil =>
    obtain ⟨fuel, rfl⟩ : ∃ n, fuel = n + 1 := ⟨fuel - 1, by omega⟩
    have here : b = Memory.size m := tiles
    subst here
    obtain ⟨t, read, zero, used⟩ := epilogue
    rw [survey_end (Nat.le_refl _) read zero]
    simp [used]
  | cons x rest ih =>
    obtain ⟨fuel, rfl⟩ : ∃ n, fuel = n + 1 := ⟨fuel - 1, by omega⟩
    obtain ⟨rfl, behind⟩ := tiles
    have le := behind.le
    exact survey_block bounded (headers x (by simp)) (room x (by simp)) (by omega)
      (ih fuel (by simpa using enough) behind (fun y member => headers y (List.mem_cons_of_mem _ member))
        fun y member => room y (List.mem_cons_of_mem _ member))

structure Fine (m : M) (listed : Listed) (x : Span) : Prop where
  footer : Block.tagAt m (x.block + x.tag.size - 8) = .ok x.tag
  room : Block.minSize ≤ x.tag.size
  aligned : x.block % 8 = 0
  listed : x.tag.allocated = false → (x.block, x.cls) ∈ listed

theorem freeBlock_eq_nil {x : Span} {listed : Listed} {freeBefore : Option Block} :
    freeBlock listed freeBefore x = [] ↔ freeBefore = none ∧ (x.block, x.cls) ∈ listed := by
  unfold freeBlock Span.cls
  cases freeBefore <;> simp

theorem block_spec {x : Span} (bounded : Memory.size m < 1 <<< 63) (surveyed : Surveyed m x)
    (listed : Listed) (freeBefore : Option Block) :
    ∃ found, block m listed freeBefore x = .ok found ∧
      (found = [] ↔ Fine m listed x ∧ (freeBefore.isSome → x.tag.allocated = true)) := by
  have room := surveyed.room
  have inside := surveyed.inside
  obtain ⟨offset, _, _⟩ := footer_defined (b := x.block) bounded
    (Block.tag_inside surveyed.header).2 room
  obtain ⟨footer, read⟩ : ∃ t, Block.tagAt m (x.block + x.tag.size - 8) = .ok t :=
    Block.tagAt_defined (by omega)
  have ran : block m listed freeBefore x = .ok
      ((if x.tag = footer then [] else [.tagMismatch x.block x.tag footer]) ++
        (if Block.minSize ≤ x.tag.size then [] else [.blockTooSmall x.block x.tag.size]) ++
        (if x.block % Block.alignment = 0 then [] else [.misaligned x.block]) ++
        if x.tag.allocated then [] else freeBlock listed freeBefore x) := by
    simp only [block, offset, read, bind, Except.bind, pure, Except.pure]
  refine ⟨_, ran, ?_⟩
  have footer_fine : Block.tagAt m (x.block + x.tag.size - 8) = .ok x.tag ↔ x.tag = footer := by
    rw [read, Except.ok.injEq, eq_comm]
  simp only [List.append_eq_nil_iff, ite_eq_left_iff, List.cons_ne_nil, imp_false,
    Decidable.not_not, freeBlock_eq_nil]
  constructor
  · rintro ⟨⟨⟨same, enough⟩, aligned⟩, free⟩
    refine ⟨⟨footer_fine.mpr same, enough, aligned, fun unused => ?_⟩, fun behind => ?_⟩
    · exact (free (by simp [unused])).2
    · by_contra unused
      rw [(free unused).1] at behind
      exact absurd behind (by decide)
  · rintro ⟨fine, used⟩
    refine ⟨⟨⟨footer_fine.mp fine.footer, fine.room⟩, fine.aligned⟩, fun unused => ⟨?_, ?_⟩⟩
    · cases freeBefore with
      | none => rfl
      | some b => exact absurd (used rfl) unused
    · exact fine.listed (by simpa using unused)

theorem blocks_spec {spans : List Span} (bounded : Memory.size m < 1 <<< 63)
    (surveyed : ∀ x ∈ spans, Surveyed m x) (listed : Listed) (freeBefore : Option Block) :
    ∃ found, blocks m listed freeBefore spans = .ok found ∧
      (found = [] ↔ (∀ x ∈ spans, Fine m listed x) ∧ spans.IsChain NoFreePair ∧
        (freeBefore.isSome → ∀ x ∈ spans.head?, x.tag.allocated = true)) := by
  induction spans generalizing freeBefore with
  | nil => exact ⟨[], rfl, by simp⟩
  | cons x rest ih =>
    obtain ⟨here, ran, fine⟩ := block_spec bounded (surveyed x (by simp)) listed freeBefore
    obtain ⟨later, ran', rest_fine⟩ := ih (fun y member => surveyed y (List.mem_cons_of_mem _ member))
      (if x.tag.allocated then none else some x.block)
    refine ⟨here ++ later, ?_, ?_⟩
    · simp only [blocks, ran, ran', bind, Except.bind, pure, Except.pure]
    · rw [List.append_eq_nil_iff, fine, rest_fine, List.isChain_cons]
      have pairs : ((if x.tag.allocated then none else some x.block : Option Block).isSome →
          ∀ y ∈ rest.head?, y.tag.allocated = true) ↔ ∀ y ∈ rest.head?, NoFreePair x y := by
        unfold NoFreePair
        cases x.tag.allocated <;> simp
      rw [pairs]
      simp only [List.forall_mem_cons, List.head?_cons, Option.mem_some, forall_eq']
      constructor
      · rintro ⟨⟨first, free_before⟩, others, apart, pairs⟩
        exact ⟨⟨first, others⟩, ⟨pairs, apart⟩, free_before⟩
      · rintro ⟨⟨first, others⟩, ⟨pairs, apart⟩, free_before⟩
        exact ⟨⟨first, free_before⟩, others, apart, pairs⟩

end Blocks

section Members

variable {spans : List Span} {entry : Block × SizeClass}

theorem member_sound (nothing : member spans entry = []) :
    ∃ x ∈ spans, x.block = entry.1 ∧ x.cls = entry.2 := by
  unfold member at nothing
  cases found : spans.find? (·.block == entry.1) with
  | none => simp [found] at nothing
  | some x =>
    have same := List.find?_some found
    have right_class : SizeClass.ofSize x.tag.size = entry.2 := by simpa [found] using nothing
    exact ⟨x, List.mem_of_find?_eq_some found, by simpa using same, right_class⟩

theorem member_complete (unique : ∀ x ∈ spans, ∀ y ∈ spans, x.block = y.block → x = y)
    (known : ∃ x ∈ spans, x.block = entry.1 ∧ x.cls = entry.2) : member spans entry = [] := by
  obtain ⟨x, inside, here, cls⟩ := known
  have found : spans.find? (·.block == entry.1) = some x := by
    cases search : spans.find? (·.block == entry.1) with
    | none =>
      have missed := List.find?_eq_none.mp search x inside
      simp [here] at missed
    | some y =>
      have same : y.block = entry.1 := by simpa using List.find?_some search
      rw [unique y (List.mem_of_find?_eq_some search) x inside (same.trans here.symm)]
  simp only [member, found]
  exact if_pos cls

end Members

theorem prologue_eq {b : Nat} (front : 4 ≤ b) (inside : b + 4 ≤ Memory.size m) :
    ∃ found, prologue m b = .ok found ∧
      (found = [] ↔ Block.tag m b = .ok (Tag.of 8 true) ∧ Block.tagAt m b = .ok (Tag.of 8 true)) := by
  obtain ⟨header, read⟩ : ∃ t, Block.tag m b = .ok t := Block.tag_defined front (by omega)
  obtain ⟨footer, behind⟩ := Block.tagAt_defined inside
  have expected : Tag.pack Block.overhead true = .ok (Tag.of 8 true) :=
    Tag.pack_eq_of true (by decide)
  have ran : prologue m b = .ok (if header = Tag.of 8 true ∧ header = footer then []
      else [.malformedPrologue header footer]) := by
    simp only [prologue, read, behind, expected, bind, Except.bind, pure, Except.pure]
  refine ⟨_, ran, ?_⟩
  rw [read, behind, Except.ok.injEq, Except.ok.injEq]
  by_cases good : header = Tag.of 8 true ∧ header = footer
  · rw [if_pos good]
    simp [good.1, ← good.2]
  · rw [if_neg good]
    simp only [List.cons_ne_nil, false_iff]
    rintro ⟨rfl, rfl⟩
    exact good ⟨rfl, rfl⟩

end Check

namespace Heap

variable {M : Type} [Memory M] {h : Heap M}

/-- All that the checker looks at, pass by pass. -/
structure Examined (h : Heap M) (files : SizeClass → List Nat) (endings : SizeClass → Check.ListEnd)
    (listed : Check.Listed) (spans : List Span) (atEnd : List Violation) : Prop where
  followed : ∀ cls, Check.follow h.memory (Check.listRoom h.memory) (h.lists.head cls) [] =
    .ok ((files cls).reverse, endings cls)
  threaded : ∀ cls, endings cls = .terminated → ∃ stop,
    Threaded h.memory stop (h.lists.head cls) (files cls) ∧
      (∀ c ∈ files cls, FreeLists.Free h.memory c) ∧ FreeLists.Used h.memory stop ∧
      stop + 8 ≤ Memory.size h.memory
  mem_listed : ∀ b cls, (b, cls) ∈ listed ↔ b ∈ files cls
  surveyed : Check.survey h.memory (Memory.size h.memory + 1) (h.prologue + 8) = .ok (spans, atEnd)
  readable : ∀ x ∈ spans, Check.Surveyed h.memory x
  tiled : atEnd = [] → Tiles (h.prologue + 8) spans (Memory.size h.memory) ∧
    ∃ t, Block.tag h.memory (Memory.size h.memory) = .ok t ∧ t.size = 0 ∧ t.allocated = true

/-- The checker comes to an end, and it finds nothing if none of its passes does. -/
theorem violations_spec (bounded : Memory.size h.memory < 1 <<< 63) (front : 4 ≤ h.prologue)
    (inside : h.prologue + 4 ≤ Memory.size h.memory) :
    ∃ files endings listed spans atEnd found, h.Examined files endings listed spans atEnd ∧
      h.violations = .ok found ∧
      (found = [] ↔
        (Block.tag h.memory h.prologue = .ok (Tag.of 8 true) ∧
          Block.tagAt h.memory h.prologue = .ok (Tag.of 8 true)) ∧
        (∀ cls, endings cls = .terminated) ∧
        ((∀ x ∈ spans, Check.Fine h.memory listed x) ∧ spans.IsChain NoFreePair) ∧
        atEnd = [] ∧ ∀ entry ∈ listed, Check.member spans entry = []) := by
  choose files endings followed threaded using fun cls =>
    Check.follow_spec bounded (Check.listRoom h.memory) (h.lists.head cls) []
  simp only [List.append_nil] at followed
  obtain ⟨spans, atEnd, surveyed, readable, tiled⟩ := Check.survey_spec bounded
    (Memory.size h.memory + 1) (h.prologue + 8) (by omega) (by omega) (by omega)
  have lists := Check.followAll_eq followed SizeClass.all
  generalize gathered : (SizeClass.all.flatMap fun cls =>
    (files cls).reverse.map (·, cls)) = found at lists
  have mem_listed : ∀ b cls, (b, cls) ∈ Check.Listed.ordered found ↔ b ∈ files cls := by
    intro b cls
    rw [Check.mem_ordered, ← gathered]
    simp [SizeClass.all]
  obtain ⟨atPrologue, prologue, prologue_fine⟩ := Check.prologue_eq front inside
  obtain ⟨atBlocks, blocks, blocks_fine⟩ := Check.blocks_spec bounded readable
    (Check.Listed.ordered found) none
  have first : h.firstBlock = .ok (h.prologue + 8) :=
    plus_of_lt (by simp only [Block.overhead, offsetLimit]; omega)
  have ran : h.violations = .ok (atPrologue ++
      (SizeClass.all.flatMap fun cls => (endings cls).violations cls) ++ atBlocks ++ atEnd ++
      (Check.Listed.ordered found).flatMap (Check.member spans)) := by
    simp only [violations, prologue, lists, first, surveyed, blocks, bind, Except.bind, pure,
      Except.pure]
  refine ⟨files, endings, Check.Listed.ordered found, spans, atEnd, _,
    ⟨followed, threaded, mem_listed, surveyed, readable, tiled⟩, ran, ?_⟩
  have lists_fine : (SizeClass.all.flatMap fun cls => (endings cls).violations cls) = [] ↔
      ∀ cls, endings cls = .terminated := by
    simp [List.flatMap_eq_nil_iff, Check.violations_eq_nil, SizeClass.all]
  simp only [List.append_eq_nil_iff, prologue_fine, lists_fine, blocks_fine,
    List.flatMap_eq_nil_iff]
  constructor
  · rintro ⟨⟨⟨⟨sentinel, terminated⟩, fine, apart, _⟩, ended⟩, members⟩
    exact ⟨sentinel, terminated, ⟨fine, apart⟩, ended, members⟩
  · rintro ⟨sentinel, terminated, ⟨fine, apart⟩, ended, members⟩
    refine ⟨⟨⟨⟨sentinel, terminated⟩, fine, apart, fun free => ?_⟩, ended⟩, members⟩
    exact absurd free (by decide)

namespace Examined

variable {files files' : SizeClass → List Nat} {endings : SizeClass → Check.ListEnd}
  {listed : Check.Listed} {spans spans' : List Span} {atEnd : List Violation}
  {stops : SizeClass → Nat}

theorem consistent (examined : h.Examined files endings listed spans atEnd)
    (header : Block.tag h.memory h.prologue = .ok (Tag.of 8 true))
    (footer : Block.tagAt h.memory h.prologue = .ok (Tag.of 8 true))
    (terminated : ∀ cls, endings cls = .terminated)
    (fine : ∀ x ∈ spans, Check.Fine h.memory listed x) (apart : spans.IsChain NoFreePair)
    (nothing : atEnd = []) (members : ∀ entry ∈ listed, Check.member spans entry = []) :
    ∃ stops, h.Consistent spans files stops := by
  choose stops threaded free used inside using fun cls => examined.threaded cls (terminated cls)
  obtain ⟨tiles, epilogue⟩ := examined.tiled nothing
  refine ⟨stops, ⟨⟨header, ?_⟩, tiles, ?_, epilogue⟩, fun x member => (fine x member).room,
    fun x member => (fine x member).aligned, apart, threaded, fun cls => ⟨used cls, inside cls⟩,
    fun cls => (threaded cls).nodup (free cls) (used cls), fun cls b => ⟨fun visited => ?_, ?_⟩⟩
  · simpa only [Span.block_of, Span.tag_of, Tag.size_sentinel, Nat.add_sub_cancel] using footer
  · exact fun x member => ⟨(examined.readable x member).header, (fine x member).footer⟩
  · obtain ⟨x, member, here, right_class⟩ :=
      Check.member_sound (members (b, cls) ((examined.mem_listed b cls).mpr visited))
    obtain ⟨t, read, unused⟩ := free cls b visited
    have known := (examined.readable x member).header
    rw [here, read] at known
    cases known
    exact ⟨x, member, here, unused, right_class⟩
  · rintro ⟨x, member, rfl, unused, rfl⟩
    exact (examined.mem_listed x.block x.cls).mp ((fine x member).listed unused)

theorem of_consistent (examined : h.Examined files endings listed spans atEnd)
    (bounded : Memory.size h.memory < 1 <<< 63) (consistent : h.Consistent spans' files' stops) :
    spans = spans' ∧ atEnd = [] ∧ ∀ cls, files cls = files' cls ∧ endings cls = .terminated := by
  have room : ∀ x ∈ spans', 16 ≤ x.tag.size := consistent.room
  have length := consistent.chained.tiles.length_le room
  have surveyed := Check.survey_tiles bounded (Memory.size h.memory + 1) (by omega)
    consistent.chained.tiles (fun x member => (consistent.chained.written x member).header)
    (fun x member => Nat.le_trans (by decide) (room x member)) consistent.chained.epilogue
  rw [examined.surveyed] at surveyed
  have same := Prod.mk.inj (Except.ok.inj surveyed)
  refine ⟨same.1, same.2, fun cls => ?_⟩
  have few : (files' cls).length ≤ Check.listRoom h.memory := by
    -- the listed blocks are different blocks of the chain, and those take sixteen bytes each
    have within : files' cls ⊆ spans'.map Span.block := by
      intro b visited
      obtain ⟨x, member, rfl, _⟩ := (consistent.listed cls b).mp visited
      exact List.mem_map_of_mem member
    have fewer := (List.subperm_of_subset (consistent.nodup cls) within).length_le
    rw [List.length_map] at fewer
    simp only [Check.listRoom, Block.minSize]
    omega
  have followed := Check.follow_threaded [] bounded (consistent.threaded cls)
    (fun c visited => consistent.free visited) (consistent.ends cls).1 (consistent.ends cls).2 few
  rw [examined.followed cls, List.append_nil] at followed
  have same := Prod.mk.inj (Except.ok.inj followed)
  exact ⟨List.reverse_injective same.1, same.2⟩

end Examined

theorem Consistent.violations_eq {spans : List Span} {files : SizeClass → List Nat}
    {stops : SizeClass → Nat} (consistent : h.Consistent spans files stops)
    (bounded : Memory.size h.memory < 1 <<< 63) : h.violations = .ok [] := by
  have header := consistent.chained.sentinel.header
  have footer := consistent.chained.sentinel_footer
  obtain ⟨files', endings, listed, spans', atEnd, found, examined, ran, nothing⟩ :=
    violations_spec bounded consistent.chained.front (Block.tagAt_eq_ok.mp footer).1
  obtain ⟨rfl, ended, lists⟩ := examined.of_consistent bounded consistent
  have same : files' = files := funext fun cls => (lists cls).1
  subst same
  have mem_listed := examined.mem_listed
  rw [ran, nothing.mpr ⟨⟨header, footer⟩, fun cls => (lists cls).2, ⟨?_, consistent.apart⟩, ended, ?_⟩]
  · intro x member
    refine ⟨(consistent.chained.written x member).footer, consistent.room x member,
      consistent.aligned x member, fun unused => ?_⟩
    exact (mem_listed x.block x.cls).mpr
      ((consistent.listed x.cls x.block).mpr ⟨x, member, rfl, unused, rfl⟩)
  · rintro ⟨b, cls⟩ entry
    obtain ⟨x, member, here, _, right_class⟩ :=
      (consistent.listed cls b).mp ((mem_listed b cls).mp entry)
    refine Check.member_complete (fun y first z second => ?_) ⟨x, member, here, right_class⟩
    exact consistent.chained.tiles.eq_of_block consistent.room_pos first second

theorem violations_defined (bounded : Memory.size h.memory < 1 <<< 63) (front : 4 ≤ h.prologue)
    (inside : h.prologue + 4 ≤ Memory.size h.memory) : ∃ found, h.violations = .ok found := by
  obtain ⟨_, _, _, _, _, found, _, ran, _⟩ := violations_spec bounded front inside
  exact ⟨found, ran⟩

theorem readable_of_violations {found : List Violation} (ran : h.violations = .ok found) :
    4 ≤ h.prologue ∧ h.prologue + 4 ≤ Memory.size h.memory := by
  obtain ⟨_, prologue, _⟩ := of_bind_eq_ok ran
  obtain ⟨_, header, later⟩ := of_bind_eq_ok prologue
  obtain ⟨_, footer, _⟩ := of_bind_eq_ok later
  exact ⟨(Block.tag_inside header).1, (Block.tagAt_eq_ok.mp footer).1⟩

theorem consistent_of_clean (bounded : Memory.size h.memory < 1 <<< 63)
    (clean : h.violations = .ok []) : ∃ spans files stops, h.Consistent spans files stops := by
  obtain ⟨front, inside⟩ := readable_of_violations clean
  obtain ⟨files, endings, listed, spans, atEnd, found, examined, ran, nothing⟩ :=
    violations_spec bounded front inside
  rw [clean] at ran
  obtain ⟨⟨header, footer⟩, terminated, ⟨fine, apart⟩, ended, members⟩ :=
    nothing.mp (Except.ok.inj ran).symm
  obtain ⟨stops, consistent⟩ :=
    examined.consistent header footer terminated fine apart ended members
  exact ⟨spans, files, stops, consistent⟩

/-- The checker answers on every memory, and it finds nothing exactly if the heap is consistent. -/
theorem violations_nil_iff_consistent (h : Heap M) (bounded : Memory.size h.memory < 1 <<< 63)
    (front : 4 ≤ h.prologue) (inside : h.prologue + 4 ≤ Memory.size h.memory) :
    ∃ found, h.violations = .ok found ∧
      (found = [] ↔ ∃ spans files stops, h.Consistent spans files stops) := by
  obtain ⟨files, endings, listed, spans, atEnd, found, examined, ran, nothing⟩ :=
    violations_spec bounded front inside
  refine ⟨found, ran, fun none_found => ?_, ?_⟩
  · obtain ⟨⟨header, footer⟩, terminated, ⟨fine, apart⟩, ended, members⟩ := nothing.mp none_found
    obtain ⟨stops, consistent⟩ :=
      examined.consistent header footer terminated fine apart ended members
    exact ⟨spans, files, stops, consistent⟩
  · rintro ⟨spans', files', stops, consistent⟩
    have clean := consistent.violations_eq bounded
    rw [ran] at clean
    exact Except.ok.inj clean

def oneFree : Heap ByteArray where
  memory := ⟨#[0, 0, 0, 0, 9, 0, 0, 0, 9, 0, 0, 0, 16, 0, 0, 0, 8, 0, 0, 0, 0, 0, 0, 0, 16, 0, 0, 0,
    1, 0, 0, 0]⟩
  lists := (FreeLists.empty 8).setHead 4 16
  prologue := 8
  config := default
  journal := #[]

theorem oneFree_consistent :
    Memory.size oneFree.memory < 1 <<< 63 ∧ 4 ≤ oneFree.prologue ∧
      oneFree.prologue + 4 ≤ Memory.size oneFree.memory ∧
      ∃ spans files stops, oneFree.Consistent spans files stops := by
  have bounded : Memory.size oneFree.memory < 1 <<< 63 := by decide
  have front : 4 ≤ oneFree.prologue := by decide
  have inside : oneFree.prologue + 4 ≤ Memory.size oneFree.memory := by decide
  have clean : oneFree.violations = .ok [] := by decide +kernel
  obtain ⟨found, ran, nothing⟩ := violations_nil_iff_consistent oneFree bounded front inside
  rw [clean] at ran
  exact ⟨bounded, front, inside, nothing.mp (Except.ok.inj ran).symm⟩

end Heap

end SegregatedFit
