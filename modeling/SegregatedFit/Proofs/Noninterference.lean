import SegregatedFit.Proofs.Effects
import SegregatedFit.Proofs.Guarantees
import SegregatedFit.Proofs.Refinement

/-!
What clients write to their payloads has no influence on the heap. Neither the view of the heap nor
the terms for growth depend on payloads, so two sessions with the same calls and different writes
cannot be told apart by anything but those.
-/

namespace SegregatedFit

section Growth

variable {A : Type}

/-- What was written to an arena has no say in whether it admits growth that a tag can hold. -/
def Arena.Blind (A : Type) [Arena A] : Prop :=
  ∀ (a b c : A) (sizes : List Nat) (n : Nat), Grown a sizes b → Grown a sizes c →
    Memory.size b + n ≤ Tag.maxSize → admits b n = admits c n

theorem BoundedArena.blind [BoundedArena A] : Arena.Blind A := by
  intro a b c sizes n first second fits
  have size : Memory.size c = Memory.size b := by rw [first.size_eq, second.size_eq]
  have capacity : capacity c = capacity b := by rw [first.capacity_eq, second.capacity_eq]
  have same : Arena.admits b n = .ok false ↔ Arena.admits c n = .ok false := by
    rw [admits_eq_false, admits_eq_false, size, capacity]
  have limit : Tag.maxSize < 1 <<< 63 := by decide
  obtain ⟨answer, defined⟩ := Arena.admits_defined b n (by omega)
  obtain ⟨answer', defined'⟩ := Arena.admits_defined c n (by omega)
  rw [defined, defined'] at same ⊢
  cases answer <;> cases answer' <;> simp at same ⊢

end Growth

namespace Heap

variable {A : Type} [Arena A] {h h' k k' : Heap A} {sizes sizes' : List Nat}

theorem Traced.sizes_eq (first : h.Traced h' sizes) (second : k.Traced k' sizes')
    (before : h.journal = k.journal) (after : h'.journal = k'.journal) : sizes = sizes' := by
  obtain ⟨entries, journal, rfl⟩ := first.told
  obtain ⟨entries', journal', rfl⟩ := second.told
  rw [before, after, journal'] at journal
  rw [List.append_cancel_left journal]

/-- Two heaps that only differ in payloads, as far as can be seen. -/
structure Mirrors (h k : Heap A) : Prop where
  chain : ∃ spans, h.chain = .ok spans ∧ k.chain = .ok spans
  lists : ∀ cls limit, ∃ blocks, h.list limit cls = .ok blocks ∧ k.list limit cls = .ok blocks
  usage : ∃ usage, h.usage = .ok usage ∧ k.usage = .ok usage
  journal : h.journal = k.journal

end Heap

namespace Session

variable {A : Type} [Arena A] {s k s' k' : Session A} {v : View} {r : Request}

/-- Two sessions that show the same view, on arenas that came of the same one by the same growth. -/
structure Twins (s k : Session A) (v : View) : Prop where
  one : s.Kept v
  other : k.Kept v
  prologue : s.heap.prologue = k.heap.prologue
  config : s.heap.config = k.heap.config
  origin : ∃ a sizes, Arena.Grown a sizes s.heap.memory ∧ Arena.Grown a sizes k.heap.memory

namespace Twins

theorem symm (twins : Twins s k v) : Twins k s v where
  one := twins.other
  other := twins.one
  prologue := twins.prologue.symm
  config := twins.config.symm
  origin := by
    obtain ⟨a, sizes, first, second⟩ := twins.origin
    exact ⟨a, sizes, second, first⟩

theorem journal (twins : Twins s k v) : s.heap.journal = k.heap.journal :=
  twins.one.sound.shown.journal.trans twins.other.sound.shown.journal.symm

theorem size (twins : Twins s k v) : Memory.size s.heap.memory = Memory.size k.heap.memory := by
  obtain ⟨a, sizes, first, second⟩ := twins.origin
  rw [first.size_eq, second.size_eq]

theorem terms (twins : Twins s k v) (blind : Arena.Blind A) : s.heap.terms = k.heap.terms := by
  obtain ⟨a, sizes, first, second⟩ := twins.origin
  have grants : s.heap.terms.grants = k.heap.terms.grants := by
    funext n
    simp only [Heap.terms, ← twins.size]
    by_cases fits : Memory.size s.heap.memory + n ≤ Tag.maxSize
    · rw [blind a _ _ sizes n first second fits]
    · simp [fits]
  have size : s.heap.terms.size = k.heap.terms.size := twins.size
  have chunk : s.heap.terms.chunk = k.heap.terms.chunk := congrArg Config.chunkSize twins.config
  calc
    s.heap.terms = ⟨s.heap.terms.size, s.heap.terms.chunk, s.heap.terms.grants⟩ := rfl
    _ = k.heap.terms := by rw [size, chunk, grants]

theorem step {sizes sizes' : List Nat} {v' : View} (twins : Twins s k v)
    (traced : s.heap.Traced s'.heap sizes) (traced' : k.heap.Traced k'.heap sizes')
    (kept : s'.Kept v') (kept' : k'.Kept v') : Twins s' k' v' := by
  obtain ⟨a, grown, first, second⟩ := twins.origin
  have journal : s'.heap.journal = k'.heap.journal :=
    kept.sound.shown.journal.trans kept'.sound.shown.journal.symm
  have same : sizes = sizes' := traced.sizes_eq traced' twins.journal journal
  subst same
  refine ⟨kept, kept', ?_, ?_, a, grown ++ sizes, first.trans traced.grown,
    second.trans traced'.grown⟩
  · rw [traced.prologue, traced'.prologue, twins.prologue]
  · rw [traced.config, traced'.config, twins.config]

theorem call (twins : Twins s k v) (blind : Arena.Blind A) (allowed : r.allowed s = true)
    (allowed' : r.allowed k = true) :
    ∃ answer s' k' v', perform r s = .ok answer s' ∧ perform r k = .ok answer k' ∧
      Twins s' k' v' := by
  obtain ⟨s', performed, kept, _⟩ := twins.one.performs_view allowed rfl
  obtain ⟨k', performed', kept', _⟩ :=
    twins.other.performs_view allowed' (congrArg (v.perform · r) (twins.terms blind).symm)
  obtain ⟨sizes, traced⟩ := traced performed
  obtain ⟨sizes', traced'⟩ := Session.traced performed'
  exact ⟨_, s', k', _, performed, performed', twins.step traced traced' kept kept'⟩

theorem write {b start : Nat} {bytes : ByteArray} (twins : Twins s k v)
    (allowed : (Request.write b start bytes).allowed s = true) :
    ∃ s', perform (.write b start bytes) s = .ok (.ok none) s' ∧ Twins s' k v := by
  obtain ⟨s', performed, kept, _⟩ := twins.one.performs_view allowed rfl
  obtain ⟨sizes, traced⟩ := traced performed
  exact ⟨s', performed, twins.step traced (.refl k.heap) kept twins.other⟩

theorem mirrors (twins : Twins s k v) : s.heap.Mirrors k.heap := by
  have one := twins.one.consistent
  have other := twins.other.consistent
  refine ⟨⟨v.spans, twins.one.chain_eq, twins.other.chain_eq⟩,
    fun cls limit => ⟨_, one.list_eq limit cls, other.list_eq limit cls⟩, ?_, twins.journal⟩
  exact ⟨_, twins.one.usage_eq, twins.size ▸ twins.other.usage_eq⟩

end Twins

end Session

def Request.isCall : Request → Bool
  | .write _ _ _ => false
  | .allocate _ | .allocateZeroed _ _ | .release _ | .reallocate _ _ => true

namespace Session

def calls (requests : List Request) : List Request := requests.filter Request.isCall

def replies (requests : List Request) (answers : List Answer) : List Answer :=
  ((requests.zip answers).filter fun entry => entry.1.isCall).map Prod.snd

/-- Sequences of requests with the same calls and any writes in between. -/
inductive SameCalls : List Request → List Request → Prop
  | nil : SameCalls [] []
  | call {first second : List Request} (r : Request) :
    r.isCall = true → SameCalls first second → SameCalls (r :: first) (r :: second)
  | left {first second : List Request} (b start : Nat) (bytes : ByteArray) :
    SameCalls first second → SameCalls (.write b start bytes :: first) second
  | right {first second : List Request} (b start : Nat) (bytes : ByteArray) :
    SameCalls first second → SameCalls first (.write b start bytes :: second)

theorem isCall_eq_false {r : Request} (other : ¬r.isCall = true) :
    ∃ b start bytes, r = .write b start bytes := by
  cases r with
  | write b start bytes => exact ⟨b, start, bytes, rfl⟩
  | _ => exact absurd rfl other

theorem sameCalls_of_calls_eq {first second : List Request}
    (same : calls first = calls second) : SameCalls first second := by
  induction first generalizing second with
  | nil =>
    induction second with
    | nil => exact .nil
    | cons r rest ih =>
      by_cases call : r.isCall = true
      · simp [calls, call] at same
      · obtain ⟨b, start, bytes, rfl⟩ := isCall_eq_false call
        exact .right b start bytes (ih same)
  | cons r rest ih =>
    by_cases call : r.isCall = true
    · induction second with
      | nil => simp [calls, call] at same
      | cons r' rest' ih' =>
        by_cases call' : r'.isCall = true
        · simp only [calls, List.filter_cons_of_pos call, List.filter_cons_of_pos call',
            List.cons.injEq] at same
          obtain ⟨rfl, same⟩ := same
          exact .call r call (ih same)
        · obtain ⟨b, start, bytes, rfl⟩ := isCall_eq_false call'
          exact .right b start bytes (ih' same)
    · obtain ⟨b, start, bytes, rfl⟩ := isCall_eq_false call
      exact .left b start bytes (ih same)

variable {A : Type} [Arena A] {s k s' k' : Session A} {v : View} {r : Request}
  {first second requests : List Request}

theorem Twins.play (twins : Twins s k v) (blind : Arena.Blind A) (same : SameCalls first second)
    (honoured : honours first s = true) (honoured' : honours second k = true) :
    ∃ answers answers' s' k' v', Session.play first s = .ok answers s' ∧
      Session.play second k = .ok answers' k' ∧ replies first answers = replies second answers' ∧
      Twins s' k' v' := by
  induction same generalizing s k v with
  | nil => exact ⟨[], [], s, k, v, rfl, rfl, rfl, twins⟩
  | call r call _ ih =>
    have allowed := (Bool.and_eq_true_iff.mp honoured).1
    have allowed' := (Bool.and_eq_true_iff.mp honoured').1
    obtain ⟨answer, s₁, k₁, v₁, performed, performed', twins₁⟩ := twins.call blind allowed allowed'
    obtain ⟨answers, answers', s₂, k₂, v₂, played, played', replied, twins₂⟩ :=
      ih twins₁ (honours_tail honoured performed) (honours_tail honoured' performed')
    refine ⟨answer :: answers, answer :: answers', s₂, k₂, v₂, play_cons performed played,
      play_cons performed' played', ?_, twins₂⟩
    unfold replies at replied ⊢
    simp [call, replied]
  | left b start bytes _ ih =>
    obtain ⟨s₁, performed, twins₁⟩ := twins.write (Bool.and_eq_true_iff.mp honoured).1
    obtain ⟨answers, answers', s₂, k₂, v₂, played, played', replied, twins₂⟩ :=
      ih twins₁ (honours_tail honoured performed) honoured'
    exact ⟨.ok none :: answers, answers', s₂, k₂, v₂, play_cons performed played, played', replied,
      twins₂⟩
  | right b start bytes _ ih =>
    obtain ⟨k₁, performed, twins₁⟩ := twins.symm.write (Bool.and_eq_true_iff.mp honoured').1
    obtain ⟨answers, answers', s₂, k₂, v₂, played, played', replied, twins₂⟩ :=
      ih twins₁.symm honoured (honours_tail honoured' performed)
    exact ⟨answers, .ok none :: answers', s₂, k₂, v₂, played, play_cons performed played', replied,
      twins₂⟩

variable {arena : A} {config : Config} {journal entries : Array Entry} {h : Heap A}

theorem twins_start (created : Heap.create arena config journal = .ok (.ok h) entries)
    (chunk : 16 ≤ config.chunkSize) : ∃ v, Twins ⟨h, []⟩ ⟨h, []⟩ v := by
  obtain ⟨v, kept⟩ := kept_start created chunk
  exact ⟨v, kept, kept, rfl, rfl, h.memory, [], .refl, .refl⟩

/-- Two runs with the same calls, in which clients write what they like to their payloads, get the
same answers and lead to the same chain, lists, usage and journal. By `honours_of_append` it is so
after each call. Bounded arenas are blind (`BoundedArena.blind`). -/
theorem writes_unnoticed (blind : Arena.Blind A)
    (created : Heap.create arena config journal = .ok (.ok h) entries)
    (chunk : 16 ≤ config.chunkSize) (honoured : honours first ⟨h, []⟩ = true)
    (honoured' : honours second ⟨h, []⟩ = true) (same : calls first = calls second) :
    ∃ answers answers' s k, play first ⟨h, []⟩ = .ok answers s ∧
      play second ⟨h, []⟩ = .ok answers' k ∧ replies first answers = replies second answers' ∧
      s.heap.Mirrors k.heap := by
  obtain ⟨v, twins⟩ := twins_start created chunk
  obtain ⟨answers, answers', s, k, v', played, played', replied, twins'⟩ :=
    twins.play blind (sameCalls_of_calls_eq same) honoured honoured'
  exact ⟨answers, answers', s, k, played, played', replied, twins'.mirrors⟩

def modest : List Request :=
  [.allocate 5, .write 16 0 ⟨#[1]⟩, .allocate 20, .release (some 16), .reallocate (some 32) 90]

def devious : List Request :=
  [.allocate 5, .allocate 20, .write 32 8 ⟨#[17, 0, 0, 0, 16, 0, 0, 0]⟩,
    .write 16 0 ⟨#[32, 0, 0, 0, 16, 0, 0, 0]⟩, .release (some 16), .reallocate (some 32) 90]

theorem modest_feasible : feasible (Buffer.new 300) ⟨256, 64⟩ #[] modest = true := by
  decide +kernel

theorem devious_feasible : feasible (Buffer.new 300) ⟨256, 64⟩ #[] devious = true := by
  decide +kernel

theorem devious_unnoticed :
    ∃ h entries, Arena.Blind Buffer ∧
      Heap.create (Buffer.new 300) ⟨256, 64⟩ #[] = .ok (.ok h) entries ∧
      16 ≤ (⟨256, 64⟩ : Config).chunkSize ∧ honours modest ⟨h, []⟩ = true ∧
      honours devious ⟨h, []⟩ = true ∧ calls modest = calls devious ∧
      ∃ answers answers' s k, play modest ⟨h, []⟩ = .ok answers s ∧
        play devious ⟨h, []⟩ = .ok answers' k ∧
        replies modest answers = replies devious answers' ∧ s.heap.Mirrors k.heap := by
  obtain ⟨h, entries, created, honoured⟩ := feasible_iff.mp modest_feasible
  obtain ⟨h', entries', created', honoured'⟩ := feasible_iff.mp devious_feasible
  rw [created] at created'
  cases created'
  exact ⟨h, entries, BoundedArena.blind, created, by decide, honoured, honoured', rfl,
    writes_unnoticed BoundedArena.blind created (by decide) honoured honoured' rfl⟩

end Session

end SegregatedFit
