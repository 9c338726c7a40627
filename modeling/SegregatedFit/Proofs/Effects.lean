import SegregatedFit.Proofs.Requests
import SegregatedFit.Session

namespace SegregatedFit

namespace Arena

variable {A : Type} [Arena A]

/-- The second arena came of the first by writing and by growing it, by `sizes` in this order. -/
inductive Grown (a : A) : List Nat → A → Prop
  | refl : Grown a [] a
  | write {sizes : List Nat} {b : A} (start count : Nat) (value : Nat → UInt8) :
    Grown a sizes b → Grown a sizes (Memory.update b start count value)
  | extend {sizes : List Nat} {b : A} {n : Nat} :
    Grown a sizes b → admits b n = .ok true → Grown a (sizes ++ [n]) (extend b n)

namespace Grown

variable {a b c : A} {sizes later : List Nat}

theorem trans (first : Grown a sizes b) (second : Grown b later c) :
    Grown a (sizes ++ later) c := by
  induction second with
  | refl => simpa using first
  | write start count value _ ih => exact ih.write start count value
  | extend _ admitted ih =>
    rw [← List.append_assoc]
    exact ih.extend admitted

theorem size_eq (grown : Grown a sizes b) : Memory.size b = Memory.size a + sizes.sum := by
  induction grown with
  | refl => simp
  | write start count value _ ih => simpa using ih
  | extend _ admitted ih =>
    rw [size_extend _ _ admitted, ih, List.sum_append, List.sum_singleton, Nat.add_assoc]

theorem capacity_eq {A : Type} [BoundedArena A] {a b : A} {sizes : List Nat}
    (grown : Grown a sizes b) : BoundedArena.capacity b = BoundedArena.capacity a := by
  induction grown with
  | refl => rfl
  | write start count value _ ih => rw [BoundedArena.capacity_update, ih]
  | extend _ _ ih => rw [BoundedArena.capacity_extend, ih]

end Grown

end Arena

def Entry.growths (entries : List Entry) : List Nat :=
  entries.filterMap fun
    | .extended size _ => some size
    | _ => none

namespace Heap

variable {A α β : Type} [Arena A] {h h' h'' : Heap A} {sizes later : List Nat}

/-- The arena was written to and grew by `sizes`, and the journal tells this growth. -/
structure Traced (h h' : Heap A) (sizes : List Nat) : Prop where
  prologue : h'.prologue = h.prologue
  config : h'.config = h.config
  grown : Arena.Grown h.memory sizes h'.memory
  told : ∃ entries, h'.journal.toList = h.journal.toList ++ entries ∧ Entry.growths entries = sizes

namespace Traced

theorem refl (h : Heap A) : h.Traced h [] := ⟨rfl, rfl, .refl, [], by simp, rfl⟩

theorem trans (first : h.Traced h' sizes) (second : h'.Traced h'' later) :
    h.Traced h'' (sizes ++ later) where
  prologue := second.prologue.trans first.prologue
  config := second.config.trans first.config
  grown := first.grown.trans second.grown
  told := by
    obtain ⟨entries, journal, rfl⟩ := first.told
    obtain ⟨entries', journal', rfl⟩ := second.told
    refine ⟨entries ++ entries', ?_, List.filterMap_append⟩
    rw [journal', journal, List.append_assoc]

theorem written (h : Heap A) (start count : Nat) (value : Nat → UInt8) :
    h.Traced { h with memory := Memory.update h.memory start count value } [] :=
  ⟨rfl, rfl, .write start count value .refl, [], by simp, rfl⟩

theorem recorded (h : Heap A) {entry : Entry} (other : Entry.growths [entry] = []) :
    h.Traced { h with journal := h.journal.push entry } [] :=
  ⟨rfl, rfl, .refl, [entry], by simp, other⟩

theorem size_eq (traced : h.Traced h' sizes) :
    Memory.size h'.memory = Memory.size h.memory + sizes.sum :=
  traced.grown.size_eq

end Traced

def Quiet (step : HeapM A α) : Prop := ∀ h a h', step h = .ok a h' → h.Traced h' []

def Steady (step : HeapM A α) : Prop := ∀ h a h', step h = .ok a h' → ∃ sizes, h.Traced h' sizes

namespace Quiet

variable {first second : HeapM A α} {next : α → HeapM A β} {c : Prop} [Decidable c]

theorem pure (a : α) : Quiet (A := A) (Pure.pure a) := by
  intro h b h' ran
  cases ran
  exact .refl h

theorem throw (fault : Fault) : Quiet (A := A) (α := α) (MonadExcept.throw fault) := by
  intro h b h' ran
  cases ran

theorem get : Quiet (A := A) MonadState.get := by
  intro h a h' ran
  cases ran
  exact .refl h

theorem query (read : A → Except Fault α) : Quiet (Heap.query read) := by
  intro h a h' ran
  obtain ⟨_, rfl⟩ := of_query_ok ran
  exact .refl h

theorem lift (read : Except Fault α) : Quiet (A := A) (liftM read) := by
  intro h a h' ran
  obtain ⟨_, rfl⟩ := of_lift_ok ran
  exact .refl h

theorem setHead (cls : SizeClass) (b : Block) : Quiet (A := A) (Heap.setHead cls b) := by
  intro h a h' ran
  cases ran
  exact ⟨rfl, rfl, .refl, [], by simp, rfl⟩

theorem record {entry : Entry} (other : Entry.growths [entry] = []) :
    Quiet (A := A) (Heap.record entry) := by
  intro h a h' ran
  cases ran
  exact .recorded h other

theorem bind (quiet : Quiet first) (later : ∀ a, Quiet (next a)) : Quiet (first >>= next) := by
  intro h b h'' ran
  obtain ⟨a, h', started, ended⟩ := of_bind_ok ran
  exact (quiet h a h' started).trans (later a h' b h'' ended)

theorem choice (one : Quiet first) (other : Quiet second) :
    Quiet (if c then first else second) := by
  split
  · exact one
  · exact other

theorem either (one : Quiet first) (other : Quiet second) (later : ∀ a, Quiet (next a)) :
    Quiet (if c then first >>= next else second >>= next) :=
  choice (one.bind later) (other.bind later)

theorem skip {step : HeapM A Unit} {next : Unit → HeapM A β} (quiet : Quiet step)
    (later : ∀ a, Quiet (next a)) : Quiet (if c then next () else step >>= next) :=
  choice (later ()) (quiet.bind later)

theorem steady (quiet : Quiet first) : Steady first := fun h a h' ran => ⟨[], quiet h a h' ran⟩

end Quiet

namespace Steady

variable {first : HeapM A α} {next : α → HeapM A β}

theorem bind (steady : Steady first) (later : ∀ a, Steady (next a)) : Steady (first >>= next) := by
  intro h b h'' ran
  obtain ⟨a, h', started, ended⟩ := of_bind_ok ran
  obtain ⟨sizes, traced⟩ := steady h a h' started
  obtain ⟨sizes', traced'⟩ := later a h' b h'' ended
  exact ⟨sizes ++ sizes', traced.trans traced'⟩

end Steady

section Writing

theorem setNat_quiet (offset bytes value : Nat) : Quiet (A := A) (setNat offset bytes value) := by
  refine .bind (.query _) fun _ h a h' ran => ?_
  cases ran
  exact .written h _ _ _

theorem setBytes_quiet (offset : Nat) (bytes : ByteArray) :
    Quiet (A := A) (setBytes offset bytes) := by
  refine .bind (.query _) fun _ h a h' ran => ?_
  cases ran
  exact .written h _ _ _

theorem fillBytes_quiet (offset count : Nat) (value : UInt8) :
    Quiet (A := A) (fillBytes offset count value) := by
  refine .bind (.query _) fun _ h a h' ran => ?_
  cases ran
  exact .written h _ _ _

theorem setTags_quiet (b size : Nat) (allocated : Bool) :
    Quiet (A := A) (setTags b size allocated) :=
  .bind (.lift _) fun _ => .bind (.lift _) fun _ => .bind (setNat_quiet _ _ _) fun _ =>
    .bind (.lift _) fun _ => setNat_quiet _ _ _

theorem insert_quiet (b : Block) : Quiet (A := A) (insert b) :=
  .bind (.query _) fun _ => .bind (.bind .get fun _ => .pure _) fun _ =>
    .bind (setNat_quiet _ _ _) fun _ => .bind (.setHead _ _) fun _ => .record rfl

theorem remove_quiet (b : Block) : Quiet (A := A) (remove b) := by
  refine .bind (.query _) fun _ => .bind (.query _) fun _ => .bind (.query _) fun _ =>
    .bind (.bind .get fun _ => .pure _) fun _ => .bind .get fun _ => .choice ?_ ?_
  · exact .bind (.setHead _ _) fun _ => .record rfl
  · refine .bind (.query _) fun before => ?_
    cases before with
    | none => exact .throw _
    | some p => exact .bind (setNat_quiet _ _ _) fun _ => .record rfl

theorem coalesce_quiet (b : Block) : Quiet (A := A) (coalesce b) := by
  refine .bind (.query _) fun _ => .bind (.query _) fun _ => .bind (.query _) fun _ =>
    .bind (.query _) fun _ => .bind (.query _) fun _ => ?_
  refine .skip (remove_quiet _) fun _ => .skip (remove_quiet _) fun _ => ?_
  refine .either (.pure _) (.query _) fun _ => .either (.pure _) (.query _) fun _ => ?_
  exact .skip (setTags_quiet _ _ _) fun _ => .bind (.record rfl) fun _ =>
    .bind (insert_quiet _) fun _ => .pure _

theorem discard_quiet {step : HeapM A α} (quiet : Quiet step) :
    Quiet (discard step : HeapM A Unit) := by
  rw [show (discard step : HeapM A Unit) = step >>= fun _ => pure () from ?_]
  · exact .bind quiet fun _ => .pure _
  · funext h
    simp only [discard, Functor.mapConst, Function.comp, EStateM.map, bind, EStateM.bind]
    cases step h <;> rfl

theorem carve_quiet (b : Block) (size : Nat) : Quiet (A := A) (carve b size) := by
  refine .bind (.query _) fun _ => .skip (.throw _) fun _ => .bind (remove_quiet _) fun _ =>
    .choice ?_ ?_
  · exact .bind (setTags_quiet _ _ _) fun _ => .bind (.query _) fun _ =>
      .bind (setTags_quiet _ _ _) fun _ => .bind (.record rfl) fun _ =>
        discard_quiet (coalesce_quiet _)
  · exact .bind (setTags_quiet _ _ _) fun _ => .record rfl

theorem releaseBlock_quiet (b : Block) : Quiet (A := A) (releaseBlock b) :=
  .bind (.query _) fun _ => .bind (setTags_quiet _ _ _) fun _ => .bind (.record rfl) fun _ =>
    discard_quiet (coalesce_quiet _)

theorem release_quiet (block : Option Block) : Quiet (A := A) (release block) := by
  cases block with
  | none => exact .pure _
  | some b => exact releaseBlock_quiet b

theorem writePayload_quiet (b : Block) (start : Nat) (bytes : ByteArray) :
    Quiet (A := A) (writePayload b start bytes) :=
  .bind (.query _) fun _ => .bind (.query _) fun _ =>
    .skip (.throw _) fun _ => setBytes_quiet _ _

end Writing

section Growing

theorem of_extendArena_ok {n : Nat} {start : Option Nat} (ran : extendArena n h = .ok start h') :
    start = none ∧ Arena.admits h.memory n = .ok false ∧ h' = h ∨
      start = some (Memory.size h.memory) ∧ Arena.admits h.memory n = .ok true ∧
        h' = { h with memory := Arena.extend h.memory n } := by
  cases answer : Arena.admits h.memory n with
  | error fault =>
    rw [extendArena_of_fault answer] at ran
    cases ran
  | ok admitted =>
    cases admitted with
    | false =>
      rw [extendArena_of_refused answer] at ran
      cases ran
      exact .inl ⟨rfl, rfl, rfl⟩
    | true =>
      rw [extendArena_of_admitted answer] at ran
      cases ran
      exact .inr ⟨rfl, rfl, rfl⟩

/-- All that growing may do: it is refused, or the arena grows once. -/
theorem of_grow_ok {bytes : Nat} {answer : Except HeapError Block}
    (ran : grow bytes h = .ok answer h') :
    ∃ size, roundUp bytes Block.alignment = .ok size ∧
      (Refused h.memory size ∧ answer = .error (.arenaExhausted size (Memory.size h.memory)) ∧
          h' = { h with journal := h.journal.push (.exhausted (Memory.size h.memory) size) } ∨
        (∃ b, answer = .ok b) ∧ h.Traced h' [size]) := by
  have whole := ran
  obtain ⟨size, _, lifted, ran⟩ := of_bind_ok ran
  obtain ⟨rounded, rfl⟩ := of_lift_ok lifted
  refine ⟨size, rounded, ?_⟩
  by_cases refused : Refused h.memory size
  · rw [grow_of_refused rounded refused] at whole
    cases whole
    exact .inl ⟨refused, rfl, rfl⟩
  · unfold Refused at refused
    rw [not_or, Nat.not_lt] at refused
    rw [bind_of_ok memorySize_apply, if_pos refused.1] at ran
    obtain ⟨start, h₁, extended, ran⟩ := of_bind_ok ran
    obtain ⟨_, answer, _⟩ | ⟨rfl, admitted, rfl⟩ := of_extendArena_ok extended
    · exact absurd answer refused.2
    · -- the steps behind the growth write, and one of them notes the growth
      obtain ⟨_, h₂, tagged, ran⟩ := of_bind_ok ran
      obtain ⟨_, _, found, ran⟩ := of_bind_ok ran
      obtain ⟨_, rfl⟩ := of_query_ok found
      obtain ⟨_, _, header, ran⟩ := of_bind_ok ran
      obtain ⟨_, rfl⟩ := of_lift_ok header
      obtain ⟨_, _, packed, ran⟩ := of_bind_ok ran
      obtain ⟨_, rfl⟩ := of_lift_ok packed
      obtain ⟨_, h₃, closed, ran⟩ := of_bind_ok ran
      rw [bind_of_ok (record_apply _)] at ran
      obtain ⟨b, h₄, merged, ran⟩ := of_bind_ok ran
      cases ran
      have before := (setTags_quiet _ _ _ _ _ _ tagged).trans (setNat_quiet _ _ _ _ _ _ closed)
      have behind := coalesce_quiet _ _ _ _ merged
      obtain ⟨entries, noted, none_told⟩ := before.told
      obtain ⟨entries', noted', none_told'⟩ := behind.told
      refine .inr ⟨⟨b, rfl⟩, behind.prologue.trans before.prologue,
        behind.config.trans before.config, ?_,
        entries ++ .extended size (Memory.size h.memory) :: entries', ?_, ?_⟩
      · exact ((Arena.Grown.refl.extend admitted).trans before.grown).trans behind.grown
      · simp [noted', noted]
      · calc
          Entry.growths (entries ++ .extended size (Memory.size h.memory) :: entries') =
              Entry.growths entries ++ size :: Entry.growths entries' := List.filterMap_append
          _ = [size] := by rw [none_told, none_told']; rfl

theorem grow_steady (bytes : Nat) : Steady (A := A) (grow bytes) := by
  intro h answer h' ran
  obtain ⟨size, _, ⟨_, _, rfl⟩ | ⟨_, traced⟩⟩ := of_grow_ok ran
  · exact ⟨[], .recorded h rfl⟩
  · exact ⟨[size], traced⟩

theorem handOut_quiet (size wanted : Nat) (found : Except HeapError Block) :
    Quiet (A := A) (handOut size wanted found) := by
  cases found with
  | error error => exact .pure _
  | ok b => exact .bind (carve_quiet _ _) fun _ => .bind (.record rfl) fun _ => .pure _

theorem allocate_steady (size : Nat) : Steady (A := A) (allocate size) := by
  refine .bind (Quiet.lift _).steady fun needed => ?_
  cases needed with
  | error error => exact (Quiet.pure _).steady
  | ok wanted =>
    have search : Quiet (A := A) (firstFit wanted) := .bind .get fun _ => .query _
    refine .bind Quiet.get.steady fun _ => .bind search.steady fun fit => ?_
    cases fit with
    | some b => exact (Quiet.bind (.pure _) (handOut_quiet size wanted)).steady
    | none => exact .bind (grow_steady _) fun found => (handOut_quiet size wanted found).steady

theorem reallocate_steady (block : Option Block) (size : Nat) :
    Steady (A := A) (reallocate block size) := by
  intro h answer h' ran
  unfold reallocate at ran
  split at ran
  · exact (Quiet.bind (release_quiet block) fun _ => .pure _).steady h answer h' ran
  · cases block with
    | none => exact Steady.bind (allocate_steady _) (fun _ => (Quiet.pure _).steady) h answer h' ran
    | some old =>
      refine Steady.bind (allocate_steady _) (fun granted => ?_) h answer h' ran
      cases granted with
      | error error => exact (Quiet.pure _).steady
      | ok new =>
        refine Quiet.steady (.bind (.query _) fun _ => .bind ?_ fun _ =>
          .bind (releaseBlock_quiet _) fun _ => .bind (.record rfl) fun _ => .pure _)
        exact .bind (.query _) fun _ => setBytes_quiet _ _

theorem allocateZeroed_steady (count size : Nat) :
    Steady (A := A) (allocateZeroed count size) := by
  unfold allocateZeroed
  cases times? count size with
  | none => exact (Quiet.pure _).steady
  | some bytes =>
    refine .bind (allocate_steady _) fun granted => ?_
    cases granted with
    | error error => exact (Quiet.pure _).steady
    | ok b =>
      have cleared : Quiet (A := A) (clear b) := .bind (.query _) fun _ => fillBytes_quiet _ _ _
      exact (cleared.bind fun _ => .pure _).steady

end Growing

section Creating

variable {arena : A} {config : Config} {journal entries : Array Entry}

theorem grown_sentinels (admitted : Arena.admits arena 16 = .ok true) :
    Arena.Grown arena [16] (sentinels arena) :=
  .write _ _ _ (.write _ _ _ (.write _ _ _ (.write _ _ _ (.extend .refl admitted))))

theorem of_create_ok (created : create arena config journal = .ok (.ok h) entries) :
    config.validate = .ok () ∧ Arena.Grown arena [16] (sentinels arena) ∧
      (empty arena config journal).Traced h [config.chunkSize] := by
  have ran := initialise_of_create created
  obtain ⟨valid, admitted, aligned⟩ := admitted_of_initialise ran
  refine ⟨valid, grown_sentinels admitted, ?_⟩
  rw [initialise_of_admitted valid admitted aligned] at ran
  obtain ⟨answer, h₁, grown, ran⟩ := of_bind_ok ran
  obtain ⟨size, same, ⟨_, rfl, _⟩ | ⟨⟨b, rfl⟩, traced⟩⟩ := of_grow_ok grown
  · cases ran
  · rw [roundUp_chunk valid] at same
    cases same
    dsimp only at ran
    rw [bind_of_ok memorySize_apply, bind_of_ok (record_apply _)] at ran
    cases ran
    exact traced.trans (.recorded h₁ rfl)

theorem grown_of_create (created : create arena config journal = .ok (.ok h) entries) :
    Arena.Grown arena [16, config.chunkSize] h.memory := by
  obtain ⟨_, opened, traced⟩ := of_create_ok created
  exact opened.trans traced.grown

end Creating

end Heap

namespace Session

variable {A : Type} [Arena A] {s s' : Session A}

theorem run_steady (r : Request) : Heap.Steady (A := A) r.run := by
  cases r with
  | allocate size => exact .bind (Heap.allocate_steady _) fun _ => (Heap.Quiet.pure _).steady
  | allocateZeroed count size =>
    exact .bind (Heap.allocateZeroed_steady _ _) fun _ => (Heap.Quiet.pure _).steady
  | release block => exact (Heap.Quiet.bind (Heap.release_quiet _) fun _ => .pure _).steady
  | reallocate block size => exact Heap.reallocate_steady _ _
  | write b start bytes =>
    exact (Heap.Quiet.bind (Heap.writePayload_quiet _ _ _) fun _ => .pure _).steady

theorem of_perform_ok {r : Request} {answer : Answer} (performed : perform r s = .ok answer s') :
    r.run s.heap = .ok answer s'.heap ∧ s'.leases = r.settle s.leases answer := by
  unfold perform at performed
  cases ran : r.run s.heap with
  | error fault h => simp [ran] at performed
  | ok given h =>
    simp only [ran] at performed
    cases performed
    exact ⟨rfl, rfl⟩

theorem traced {r : Request} {answer : Answer} (performed : perform r s = .ok answer s') :
    ∃ sizes, s.heap.Traced s'.heap sizes :=
  run_steady r _ _ _ (of_perform_ok performed).1

end Session

end SegregatedFit
