import SegregatedFit.Proofs.Effects
import SegregatedFit.Proofs.Guarantees

namespace SegregatedFit

namespace Session

variable {A : Type} [Arena A] {arena : A} {config : Config} {entries : Array Entry}
  {s s' : Session A} {r : Request} {requests : List Request}

inductive Reached : Session A → Prop
  | start {arena : A} {config : Config} {journal entries : Array Entry} {h : Heap A} :
    Heap.create arena config journal = .ok (.ok h) entries → 16 ≤ config.chunkSize →
      Reached ⟨h, []⟩
  | step {s s' : Session A} {r : Request} {answer : Answer} :
    Reached s → r.allowed s = true → perform r s = .ok answer s' → Reached s'

theorem of_play_append {first rest : List Request} {answers : List Answer}
    (played : play (first ++ rest) s = .ok answers s') :
    ∃ before s₁ behind, play first s = .ok before s₁ ∧ play rest s₁ = .ok behind s' ∧
      answers = before ++ behind := by
  induction first generalizing s answers with
  | nil => exact ⟨[], s, answers, rfl, played, rfl⟩
  | cons r first ih =>
    obtain ⟨answer, s₁, later, performed, ran, rfl⟩ := of_play_cons played
    obtain ⟨before, s₂, behind, ran₁, ran₂, rfl⟩ := ih ran
    exact ⟨answer :: before, s₂, behind, play_cons performed ran₁, ran₂, rfl⟩

theorem honours_of_played {first rest : List Request} {before : List Answer}
    (played : play first s = .ok before s') (honoured : honours (first ++ rest) s = true) :
    honours rest s' = true := by
  induction first generalizing s before with
  | nil =>
    cases played
    exact honoured
  | cons r first ih =>
    obtain ⟨answer, s₁, later, performed, ran, rfl⟩ := of_play_cons played
    exact ih ran (honours_tail honoured performed)

theorem traced_of_play {answers : List Answer} (played : play requests s = .ok answers s') :
    ∃ sizes, s.heap.Traced s'.heap sizes := by
  induction requests generalizing s answers with
  | nil =>
    cases played
    exact ⟨[], .refl _⟩
  | cons r rest ih =>
    obtain ⟨answer, s₁, later, performed, ran, _⟩ := of_play_cons played
    obtain ⟨sizes, first⟩ := traced performed
    obtain ⟨sizes', behind⟩ := ih ran
    exact ⟨sizes ++ sizes', first.trans behind⟩

namespace Reached

theorem kept (reached : Reached s) : ∃ v, s.Kept v := by
  induction reached with
  | start created chunk => exact kept_start created chunk
  | step _ allowed performed ih =>
    obtain ⟨v, kept⟩ := ih
    obtain ⟨_, _, v', ran, kept', _⟩ := kept.performs allowed
    rw [performed] at ran
    cases ran
    exact ⟨v', kept'⟩

theorem of_play {answers : List Answer} (reached : Reached s)
    (honoured : honours requests s = true)
    (played : play requests s = .ok answers s') : Reached s' := by
  induction requests generalizing s answers with
  | nil =>
    cases played
    exact reached
  | cons r rest ih =>
    obtain ⟨answer, s₁, later, performed, ran, rfl⟩ := of_play_cons played
    have allowed := (Bool.and_eq_true_iff.mp honoured).1
    exact ih (reached.step allowed performed) (honours_tail honoured performed) ran

theorem extent (reached : Reached s) : s.heap.prologue + 8 < Memory.size s.heap.memory := by
  induction reached with
  | start created chunk =>
    obtain ⟨_, _, _, _, _, _, _, _, room, _⟩ := Heap.create_shows created chunk
    exact room
  | step _ _ performed ih =>
    obtain ⟨sizes, traced⟩ := traced performed
    have := traced.size_eq
    rw [traced.prologue]
    omega

end Reached

/-- What a heap in `arena` answers to requests that keep to the rules, and the session they lead
to. -/
def outcome (arena : A) (config : Config) (requests : List Request) :
    Option (List Answer × Session A) :=
  match Heap.create arena config #[] with
  | .ok (.ok h) _ =>
    if honours requests ⟨h, []⟩ then
      match play requests ⟨h, []⟩ with
      | .ok answers s => some (answers, s)
      | .error _ _ => none
    else none
  | .ok (.error _) _ | .error _ _ => none

theorem outcome_eq_some {answers : List Answer}
    (ended : outcome arena config requests = some (answers, s)) :
    ∃ h entries, Heap.create arena config #[] = .ok (.ok h) entries ∧
      honours requests ⟨h, []⟩ = true ∧ play requests ⟨h, []⟩ = .ok answers s := by
  unfold outcome at ended
  split at ended
  next h entries created =>
    split at ended
    next honoured =>
      split at ended
      next answers' s' played =>
        cases ended
        exact ⟨h, entries, created, honoured, played⟩
      · cases ended
    · cases ended
  · cases ended
  · cases ended

theorem outcome_of_created {answers : List Answer} {h : Heap A}
    (created : Heap.create arena config #[] = .ok (.ok h) entries)
    (honoured : honours requests ⟨h, []⟩ = true)
    (played : play requests ⟨h, []⟩ = .ok answers s) :
    outcome arena config requests = some (answers, s) := by
  simp only [outcome, created, if_pos honoured, played]

theorem of_outcome_concat {answers : List Answer}
    (ended : outcome arena config (requests ++ [r]) = some (answers, s')) :
    ∃ before answer s, outcome arena config requests = some (before, s) ∧ r.allowed s = true ∧
      perform r s = .ok answer s' ∧ answers = before ++ [answer] := by
  obtain ⟨h, entries, created, honoured, played⟩ := outcome_eq_some ended
  obtain ⟨before, s, behind, ran, last, rfl⟩ := of_play_append played
  obtain ⟨answer, s₁, later, performed, finished, rfl⟩ := of_play_cons last
  obtain ⟨allowed, _⟩ := Bool.and_eq_true_iff.mp (honours_of_played ran honoured)
  cases finished
  exact ⟨before, answer, s, outcome_of_created created (honours_of_append honoured) ran, allowed,
    performed, rfl⟩

theorem Reached.of_outcome {answers : List Answer} (chunk : 16 ≤ config.chunkSize)
    (ended : outcome arena config requests = some (answers, s)) : Reached s := by
  obtain ⟨h, entries, created, honoured, played⟩ := outcome_eq_some ended
  exact (Reached.start created chunk).of_play honoured played

end Session

end SegregatedFit
