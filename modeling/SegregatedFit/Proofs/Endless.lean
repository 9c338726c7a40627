import Mathlib.Logic.Relation
import SegregatedFit.Proofs.Diagnostics

/-!
What it means that the checker calls a list endless. It gives up on a list after as many blocks as
there is room for side by side. So it notices every list that never ends, but it also gives up on a
list that does end, if that visits more places than there is room for blocks. No two blocks of a heap
are as close to each other as that takes, but forged links lead to any place.
-/

namespace SegregatedFit

namespace Check

variable {M : Type} [Memory M] {m : M} {b c next room : Nat} {seen : List Block}
  {path path' : List Nat}

/-- A list is not followed beyond a block that is in use, and not beyond one of which the header or
the link cannot be read. -/
def Ends (m : M) (b : Nat) : Prop := (b < 4 ∨ Memory.size m < b + 8) ∨ FreeLists.Used m b

instance (m : M) (b : Nat) : Decidable (Ends m b) :=
  inferInstanceAs (Decidable ((b < 4 ∨ Memory.size m < b + 8) ∨ FreeLists.Used m b))

/-- Nothing that links lead to from `b` on, however far, ends the list. -/
def NeverEnds (m : M) (b : Nat) : Prop :=
  ∀ c, Relation.ReflTransGen (fun d next => Block.link m d = .ok next) b c → ¬Ends m c

inductive EndsAfter (m : M) : Nat → List Nat → Prop
  | here {b : Nat} : Ends m b → EndsAfter m b []
  | step {b next : Nat} {path : List Nat} : ¬Ends m b → Block.link m b = .ok next →
    EndsAfter m next path → EndsAfter m b (b :: path)

/-- The places lie as far apart as blocks do. -/
def Spaced (path : List Nat) : Prop :=
  path.Pairwise fun b c => b + Block.minSize ≤ c ∨ c + Block.minSize ≤ b

section Following

theorem of_not_ends (going : ¬Ends m b) :
    (4 ≤ b ∧ b + 8 ≤ Memory.size m) ∧ (∃ t, Block.tag m b = .ok t ∧ t.allocated = false) ∧
      ∃ next, Block.link m b = .ok next := by
  have inside := mt Or.inl going
  obtain ⟨⟨t, read⟩, link⟩ := inside_defined inside
  refine ⟨by omega, ⟨t, read, ?_⟩, link⟩
  cases used : t.allocated with
  | true => exact absurd (.inr ⟨t, read, used⟩) going
  | false => rfl

variable (bounded : Memory.size m < 1 <<< 63)

include bounded

theorem follow_of_ends (room : Nat) (seen : List Block) (ends : Ends m b) :
    ∃ ending, follow m room b seen = .ok (seen, ending) ∧ ending ≠ .endless := by
  by_cases out : b < 4 ∨ Memory.size m < b + 8
  · exact ⟨.outside b, follow_outside bounded out, by simp⟩
  · obtain ⟨t, read, used⟩ := ends.resolve_left out
    exact ⟨.terminated, follow_used bounded out read used, by simp⟩

theorem follow_endless_of_ends (ends : Ends m b) :
    (∃ met, follow m room b seen = .ok (met, .endless)) ↔
      ∀ path, EndsAfter m b path → room < path.length := by
  obtain ⟨ending, ran, other⟩ := follow_of_ends bounded room seen ends
  refine iff_of_false ?_ fun long => absurd (long [] (.here ends)) (Nat.not_lt_zero _)
  rintro ⟨met, endless⟩
  rw [ran] at endless
  cases endless
  exact other rfl

theorem follow_endless_iff (room b : Nat) (seen : List Block) :
    (∃ met, follow m room b seen = .ok (met, .endless)) ↔
      ∀ path, EndsAfter m b path → room < path.length := by
  induction room generalizing b seen with
  | zero =>
    by_cases ends : Ends m b
    · exact follow_endless_of_ends bounded ends
    · obtain ⟨inside, ⟨t, read, unused⟩, _⟩ := of_not_ends ends
      refine iff_of_true ⟨seen, follow_endless bounded (by omega) read unused⟩ fun path after => ?_
      cases after with
      | here ended => exact absurd ended ends
      | step _ _ _ => exact Nat.succ_pos _
  | succ room ih =>
    by_cases ends : Ends m b
    · exact follow_endless_of_ends bounded ends
    · obtain ⟨inside, ⟨t, read, unused⟩, next, link⟩ := of_not_ends ends
      rw [follow_free bounded (by omega) read unused link, ih]
      constructor
      · intro long path after
        cases after with
        | here ended => exact absurd ended ends
        | step _ link' after =>
          rw [link] at link'
          cases link'
          exact Nat.succ_lt_succ (long _ after)
      · intro long path after
        exact Nat.lt_of_succ_lt_succ (long (b :: path) (.step ends link after))

end Following

namespace EndsAfter

theorem unique (first : EndsAfter m b path) (second : EndsAfter m b path') : path = path' := by
  induction first generalizing path' with
  | here ends =>
    cases second with
    | here _ => rfl
    | step going _ _ => exact absurd ends going
  | step going link _ ih =>
    cases second with
    | here ends => exact absurd ends going
    | step _ link' after =>
      rw [link] at link'
      cases link'
      rw [ih after]

theorem from_mem (after : EndsAfter m b path) (member : c ∈ path) :
    ∃ front behind, path = front ++ c :: behind ∧ EndsAfter m c (c :: behind) := by
  induction after with
  | here _ => cases member
  | @step b next rest going link later ih =>
    rcases List.mem_cons.mp member with rfl | farther
    · exact ⟨[], rest, rfl, .step going link later⟩
    · obtain ⟨front, behind, rfl, ends⟩ := ih farther
      exact ⟨b :: front, behind, rfl, ends⟩

theorem inside (after : EndsAfter m b path) (member : c ∈ path) :
    4 ≤ c ∧ c + 8 ≤ Memory.size m := by
  obtain ⟨_, _, _, ends⟩ := after.from_mem member
  cases ends with
  | step going _ _ => exact (of_not_ends going).1

theorem length_le (after : EndsAfter m b path) (spaced : Spaced path) :
    path.length ≤ listRoom m := by
  have units : (path.map (· / 16)).Nodup := by
    refine List.pairwise_map.mpr (spaced.imp fun {b c} apart same => ?_)
    simp only [Block.minSize] at apart
    omega
  have within : path.map (· / 16) ⊆ List.range (listRoom m) := by
    intro unit member
    obtain ⟨c, met, rfl⟩ := List.mem_map.mp member
    have := after.inside met
    simp only [List.mem_range, listRoom, Block.minSize]
    omega
  have few := (List.subperm_of_subset units within).length_le
  rwa [List.length_map, List.length_range] at few

end EndsAfter

theorem EndsAfter.of_reached
    (reached : Relation.ReflTransGen (fun d next => Block.link m d = .ok next) b c)
    (ends : Ends m c) : ∃ path, EndsAfter m b path := by
  induction reached using Relation.ReflTransGen.head_induction_on with
  | refl => exact ⟨[], .here ends⟩
  | @head d next link _ ih =>
    by_cases here : Ends m d
    · exact ⟨[], .here here⟩
    · obtain ⟨path, after⟩ := ih
      exact ⟨d :: path, .step here link after⟩

theorem neverEnds_iff : NeverEnds m b ↔ ∀ path, ¬EndsAfter m b path := by
  constructor
  · intro never path after
    induction after with
    | here ends => exact never _ .refl ends
    | step _ link _ ih => exact ih fun c reached => never c (.head link reached)
  · intro endless c reached ends
    obtain ⟨path, after⟩ := EndsAfter.of_reached reached ends
    exact endless path after

theorem follow_endless_cases (bounded : Memory.size m < 1 <<< 63) (room b : Nat)
    (seen : List Block) :
    (∃ met, follow m room b seen = .ok (met, .endless)) ↔
      NeverEnds m b ∨ ∃ path, EndsAfter m b path ∧ room < path.length := by
  rw [follow_endless_iff bounded, neverEnds_iff]
  constructor
  · intro long
    by_cases ends : ∃ path, EndsAfter m b path
    · obtain ⟨path, after⟩ := ends
      exact .inr ⟨path, after, long path after⟩
    · exact .inl (not_exists.mp ends)
  · rintro (never | ⟨path, after, long⟩) path' after'
    · exact absurd after' (never path')
    · rwa [after'.unique after]

section Passes

variable {list : Nat} {found : List Violation} {listed : Listed} {spans : List Span}

theorem followAll_endless {lists : FreeLists} {classes : List SizeClass} {cls : SizeClass}
    (ran : followAll m lists classes = .ok (listed, found)) :
    .endlessList cls ∈ found ↔ cls ∈ classes ∧
      ∃ met, follow m (listRoom m) (lists.head cls) [] = .ok (met, .endless) := by
  induction classes generalizing listed found with
  | nil =>
    cases ran
    simp
  | cons first rest ih =>
    obtain ⟨⟨blocks, ending⟩, followed, ran⟩ := of_bind_eq_ok ran
    obtain ⟨⟨listed', found'⟩, later, ran⟩ := of_bind_eq_ok ran
    cases ran
    rw [List.mem_append, ih later, List.mem_cons]
    have here : Violation.endlessList cls ∈ ending.violations first ↔
        cls = first ∧ ending = .endless := by
      cases ending <;> simp [ListEnd.violations, Fin.ext_iff]
    rw [here]
    constructor
    · rintro (⟨rfl, rfl⟩ | ⟨member, endless⟩)
      · exact ⟨.inl rfl, blocks, followed⟩
      · exact ⟨.inr member, endless⟩
    · rintro ⟨rfl | member, met, endless⟩
      · rw [followed] at endless
        cases endless
        exact .inl ⟨rfl, rfl⟩
      · exact .inr ⟨member, met, endless⟩

theorem prologue_not_endless (ran : prologue m b = .ok found) :
    .endlessList list ∉ found := by
  obtain ⟨header, _, ran⟩ := of_bind_eq_ok ran
  obtain ⟨footer, _, ran⟩ := of_bind_eq_ok ran
  obtain ⟨expected, _, ran⟩ := of_bind_eq_ok ran
  cases ran
  split <;> simp

theorem survey_not_endless {fuel : Nat} (ran : survey m fuel b = .ok (spans, found)) :
    .endlessList list ∉ found := by
  induction fuel generalizing b spans with
  | zero => cases ran
  | succ fuel ih =>
    unfold survey at ran
    split at ran
    · cases ran
      simp
    · obtain ⟨tag, _, ran⟩ := of_bind_eq_ok ran
      split at ran
      · cases ran
        split <;> simp
      · obtain ⟨footer, _, ran⟩ := of_bind_eq_ok ran
        obtain ⟨behind, _, ran⟩ := of_bind_eq_ok ran
        split at ran
        · cases ran
          simp
        · obtain ⟨next, _, ran⟩ := of_bind_eq_ok ran
          obtain ⟨⟨spans', found'⟩, later, ran⟩ := of_bind_eq_ok ran
          cases ran
          exact ih later

theorem block_not_endless {x : Span} {freeBefore : Option Block}
    (ran : block m listed freeBefore x = .ok found) : .endlessList list ∉ found := by
  obtain ⟨offset, _, ran⟩ := of_bind_eq_ok ran
  obtain ⟨footer, _, ran⟩ := of_bind_eq_ok ran
  cases ran
  simp only [List.mem_append, not_or]
  refine ⟨⟨⟨?_, ?_⟩, ?_⟩, ?_⟩
  · split <;> simp
  · split <;> simp
  · split <;> simp
  · unfold freeBlock
    cases freeBefore <;> grind

theorem blocks_not_endless {freeBefore : Option Block}
    (ran : blocks m listed freeBefore spans = .ok found) : .endlessList list ∉ found := by
  induction spans generalizing freeBefore found with
  | nil =>
    cases ran
    exact List.not_mem_nil
  | cons x rest ih =>
    obtain ⟨here, first, ran⟩ := of_bind_eq_ok ran
    obtain ⟨later, second, ran⟩ := of_bind_eq_ok ran
    cases ran
    rw [List.mem_append, not_or]
    exact ⟨block_not_endless first, ih second⟩

theorem member_not_endless (entry : Block × SizeClass) :
    .endlessList list ∉ member spans entry := by
  unfold member
  split
  · simp
  · split <;> simp

end Passes

end Check

namespace Heap

variable {M : Type} [Memory M] {h : Heap M}

theorem endless_mem_iff {found : List Violation} (ran : h.violations = .ok found)
    (cls : SizeClass) : .endlessList cls ∈ found ↔
      ∃ met, Check.follow h.memory (Check.listRoom h.memory) (h.lists.head cls) [] =
        .ok (met, .endless) := by
  obtain ⟨atPrologue, prologue, ran⟩ := of_bind_eq_ok ran
  obtain ⟨⟨listed, atLists⟩, followed, ran⟩ := of_bind_eq_ok ran
  obtain ⟨first, _, ran⟩ := of_bind_eq_ok ran
  obtain ⟨⟨spans, atEnd⟩, surveyed, ran⟩ := of_bind_eq_ok ran
  obtain ⟨atBlocks, blocks, ran⟩ := of_bind_eq_ok ran
  cases ran
  have known : cls ∈ SizeClass.all := List.mem_finRange cls
  simp only [List.mem_append, List.mem_flatMap, Check.followAll_endless followed, known, true_and,
    Check.prologue_not_endless prologue, Check.blocks_not_endless blocks,
    Check.survey_not_endless surveyed, Check.member_not_endless, and_false, exists_false, false_or,
    or_false]

/-- On every memory the checker calls those lists endless that never end, and also those that end
behind more places than there is room for blocks. Of a list whose places lie as far apart as blocks
do it is right: that list is called endless if and only if it never ends. -/
theorem endless_found_iff (h : Heap M) (bounded : Memory.size h.memory < 1 <<< 63)
    (front : 4 ≤ h.prologue) (inside : h.prologue + 4 ≤ Memory.size h.memory) :
    ∃ found, h.violations = .ok found ∧ ∀ cls,
      (.endlessList cls ∈ found ↔ Check.NeverEnds h.memory (h.lists.head cls) ∨
        ∃ path, Check.EndsAfter h.memory (h.lists.head cls) path ∧
          Check.listRoom h.memory < path.length) ∧
      ((∀ path, Check.EndsAfter h.memory (h.lists.head cls) path → Check.Spaced path) →
        (.endlessList cls ∈ found ↔ Check.NeverEnds h.memory (h.lists.head cls))) := by
  obtain ⟨found, ran⟩ := violations_defined bounded front inside
  refine ⟨found, ran, fun cls => ?_⟩
  have given := (endless_mem_iff ran cls).trans (Check.follow_endless_cases bounded _ _ _)
  refine ⟨given, fun spaced => given.trans ⟨?_, .inl⟩⟩
  rintro (never | ⟨path, after, long⟩)
  · exact never
  · exact absurd (after.length_le (spaced path after)) (Nat.not_le.mpr long)

theorem wrecked_never_ends : Check.NeverEnds wrecked.memory 16 := by
  intro c reached
  have here : c = 16 := by
    induction reached with
    | refl => rfl
    | tail _ link same =>
      have itself : Block.link wrecked.memory 16 = .ok 16 := by decide
      rw [same, itself] at link
      exact (Except.ok.inj link).symm
  subst here
  decide

theorem wrecked_endless :
    Memory.size wrecked.memory < 1 <<< 63 ∧ 4 ≤ wrecked.prologue ∧
      wrecked.prologue + 4 ≤ Memory.size wrecked.memory ∧
      Check.NeverEnds wrecked.memory (wrecked.lists.head 4) ∧
      ∃ found, wrecked.violations = .ok found ∧ .endlessList 4 ∈ found := by
  have bounded : Memory.size wrecked.memory < 1 <<< 63 := by decide
  have front : 4 ≤ wrecked.prologue := by decide
  have inside : wrecked.prologue + 4 ≤ Memory.size wrecked.memory := by decide
  obtain ⟨found, ran, given⟩ := endless_found_iff wrecked bounded front inside
  have never : Check.NeverEnds wrecked.memory (wrecked.lists.head 4) := wrecked_never_ends
  exact ⟨bounded, front, inside, never, found, ran, (given 4).1.mpr (.inl never)⟩

/-- One free block that takes up the whole heap, with a link in every eight bytes of its payload: each
leads to the next, and the last one to the prologue, which is in use. -/
def crowded : Heap ByteArray where
  memory := ⟨#[0, 0, 0, 0, 9, 0, 0, 0, 9, 0, 0, 0, 64, 0, 0, 0, 24, 0, 0, 0, 0, 0, 0, 0,
    32, 0, 0, 0, 0, 0, 0, 0, 40, 0, 0, 0, 0, 0, 0, 0, 48, 0, 0, 0, 0, 0, 0, 0,
    56, 0, 0, 0, 0, 0, 0, 0, 64, 0, 0, 0, 0, 0, 0, 0, 8, 0, 0, 0, 0, 0, 0, 0, 64, 0, 0, 0, 1, 0, 0, 0]⟩
  lists := (FreeLists.empty 8).setHead (SizeClass.ofSize 64) 16
  prologue := 8
  config := default
  journal := #[]

theorem crowded_ends :
    Check.EndsAfter crowded.memory (crowded.lists.head 6) [16, 24, 32, 40, 48, 56, 64] := by
  have links : ∀ b ∈ [16, 24, 32, 40, 48, 56], ¬Check.Ends crowded.memory b ∧
      Block.link crowded.memory b = .ok (b + 8) := by decide
  have step : ∀ b ∈ [16, 24, 32, 40, 48, 56], ∀ path,
      Check.EndsAfter crowded.memory (b + 8) path →
      Check.EndsAfter crowded.memory b (b :: path) :=
    fun b member path after => .step (links b member).1 (links b member).2 after
  have last : Check.EndsAfter crowded.memory 64 [64] :=
    .step (by decide) (show Block.link crowded.memory 64 = .ok 8 by decide) (.here (by decide))
  exact step 16 (by simp) _ <| step 24 (by simp) _ <| step 32 (by simp) _ <|
    step 40 (by simp) _ <| step 48 (by simp) _ <| step 56 (by simp) _ last

theorem crowded_misjudged : ¬Check.NeverEnds crowded.memory (crowded.lists.head 6) ∧
    ∃ found, crowded.violations = .ok found ∧ .endlessList 6 ∈ found := by
  refine ⟨fun never => Check.neverEnds_iff.mp never _ crowded_ends, ?_⟩
  obtain ⟨found, ran⟩ : ∃ found, crowded.violations = .ok found :=
    violations_defined (by decide) (by decide) (by decide)
  have given_up : Check.follow crowded.memory 6 16 [] =
      .ok ([56, 48, 40, 32, 24, 16], .endless) := by decide +kernel
  exact ⟨found, ran, (endless_mem_iff ran 6).mpr ⟨_, given_up⟩⟩

end Heap

end SegregatedFit
