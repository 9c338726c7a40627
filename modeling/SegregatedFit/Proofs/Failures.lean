import SegregatedFit.Proofs.Reachability

/-!
Requests that fail. An allocation fails because no tag could hold the block, or because no free
block is large enough and the arena refuses to grow. Both are found out before anything is written,
so a request that fails leaves a note in the journal at most, and it fails again when it is
repeated.
-/

namespace SegregatedFit

namespace Heap

variable {A : Type} [Arena A] {h h' : Heap A} {size wanted : Nat} {error : HeapError}

/-- Why an allocation of `size` bytes fails. -/
inductive Fails (h : Heap A) (size : Nat) : HeapError → Prop
  | tooLarge {error : HeapError} : blockSizeFor size = .ok (.error error) → Fails h size error
  | exhausted {wanted growth : Nat} : blockSizeFor size = .ok (.ok wanted) →
    h.lists.firstFit h.memory wanted = .ok none →
    roundUp (max wanted h.config.chunkSize) Block.alignment = .ok growth →
    Refused h.memory growth → Fails h size (.arenaExhausted growth (Memory.size h.memory))

theorem Fails.rejournal (fails : h.Fails size error) (journal : Array Entry) :
    ({ h with journal := journal } : Heap A).Fails size error := by
  cases fails with
  | tooLarge overflow => exact .tooLarge overflow
  | exhausted needed search rounded refused => exact .exhausted needed search rounded refused

theorem of_firstFit_ok {found : Option Block} (ran : firstFit wanted h = .ok found h') :
    h.lists.firstFit h.memory wanted = .ok found ∧ h = h' := by
  unfold firstFit at ran
  rw [get_bind] at ran
  exact of_query_ok ran

theorem of_handOut_ok {b : Block} {answer : Except HeapError Block}
    (ran : handOut size wanted (.ok b) h = .ok answer h') : answer = .ok b := by
  obtain ⟨_, _, _, ran⟩ := of_bind_ok ran
  obtain ⟨_, _, _, ran⟩ := of_bind_ok ran
  cases ran
  rfl

theorem of_allocate_error (ran : allocate size h = .ok (.error error) h') :
    h.Fails size error ∧ h' = { h with journal := h'.journal } := by
  obtain ⟨needed, _, lifted, ran⟩ := of_bind_ok ran
  obtain ⟨needs, rfl⟩ := of_lift_ok lifted
  cases needed with
  | error reason =>
    cases ran
    exact ⟨.tooLarge needs, rfl⟩
  | ok wanted =>
    obtain ⟨_, _, read, ran⟩ := of_bind_ok ran
    cases read
    obtain ⟨fit, _, searched, ran⟩ := of_bind_ok ran
    obtain ⟨search, rfl⟩ := of_firstFit_ok searched
    cases fit with
    | some b =>
      have handed : handOut size wanted (.ok b) h = .ok (.error error) h' := ran
      cases of_handOut_ok handed
    | none =>
      obtain ⟨found, h₁, grown, ran⟩ := of_bind_ok ran
      obtain ⟨growth, rounded, ⟨refused, rfl, rfl⟩ | ⟨⟨b, rfl⟩, _⟩⟩ := of_grow_ok grown
      · cases ran
        exact ⟨.exhausted needs search rounded refused, rfl⟩
      · have handed : handOut size wanted (.ok b) h₁ = .ok (.error error) h' := ran
        cases of_handOut_ok handed

omit [Arena A] in
theorem of_map_some {step : HeapM A (Except HeapError Block)}
    (ran : (do return (← step).map some : HeapM A (Except HeapError (Option Block))) h =
      .ok (.error error) h') : step h = .ok (.error error) h' := by
  obtain ⟨answer, h₁, stepped, ran⟩ := of_bind_ok ran
  cases answer <;> cases ran
  exact stepped

theorem of_allocateZeroed_error {count : Nat}
    (ran : allocateZeroed count size h = .ok (.error error) h') :
    (times? count size = none ∧ error = .sizeOverflow (offsetLimit - 1) ∨
      ∃ bytes, times? count size = some bytes ∧ h.Fails bytes error) ∧
        h' = { h with journal := h'.journal } := by
  unfold allocateZeroed at ran
  cases product : times? count size with
  | none =>
    rw [product] at ran
    cases ran
    exact ⟨.inl ⟨rfl, rfl⟩, rfl⟩
  | some bytes =>
    rw [product] at ran
    obtain ⟨granted, h₁, allocated, ran⟩ := of_bind_ok ran
    cases granted with
    | error reason =>
      cases ran
      obtain ⟨fails, same⟩ := of_allocate_error allocated
      exact ⟨.inr ⟨bytes, rfl, fails⟩, same⟩
    | ok b =>
      obtain ⟨_, _, _, ran⟩ := of_bind_ok ran
      cases ran

theorem of_reallocate_error {block : Option Block}
    (ran : reallocate block size h = .ok (.error error) h') :
    size ≠ 0 ∧ h.Fails size error ∧ h' = { h with journal := h'.journal } := by
  unfold reallocate at ran
  by_cases nothing : size = 0
  · rw [if_pos nothing] at ran
    obtain ⟨_, _, _, ran⟩ := of_bind_ok ran
    cases ran
  · rw [if_neg nothing] at ran
    refine ⟨nothing, ?_⟩
    cases block with
    | none => exact of_allocate_error (of_map_some ran)
    | some old =>
      obtain ⟨granted, h₁, allocated, ran⟩ := of_bind_ok ran
      cases granted with
      | error reason =>
        cases ran
        exact of_allocate_error allocated
      | ok new =>
        -- from here on the new block is there, and the last step answers with it
        obtain ⟨_, _, _, ran⟩ := of_bind_ok ran
        obtain ⟨_, _, _, ran⟩ := of_bind_ok ran
        obtain ⟨_, _, _, ran⟩ := of_bind_ok ran
        obtain ⟨_, _, _, ran⟩ := of_bind_ok ran
        cases ran

theorem allocate_of_fails (fails : h.Fails size error) :
    ∃ journal, allocate size h = .ok (.error error) { h with journal := journal } := by
  cases fails with
  | tooLarge overflow =>
    refine ⟨h.journal, ?_⟩
    simp only [allocate, lift_bind, overflow]
    rfl
  | @exhausted wanted growth needed search rounded refused =>
    have searched : firstFit wanted h = .ok none h := by
      simp only [firstFit, get_bind, query, search]
    refine ⟨h.journal.push (.exhausted (Memory.size h.memory) growth), ?_⟩
    simp only [allocate, lift_bind, needed, get_bind]
    rw [bind_of_ok searched]
    exact bind_of_ok (grow_of_refused rounded refused)

end Heap

namespace Request

variable {A : Type} [Arena A] {h h' : Heap A} {r : Request} {error : HeapError}

/-- Why a request fails. Only those that need a new block can fail. -/
def Fails (h : Heap A) (error : HeapError) : Request → Prop
  | .allocate size => h.Fails size error
  | .allocateZeroed count size =>
    times? count size = none ∧ error = .sizeOverflow (offsetLimit - 1) ∨
      ∃ bytes, times? count size = some bytes ∧ h.Fails bytes error
  | .reallocate _ size => size ≠ 0 ∧ h.Fails size error
  | .release _ | .write _ _ _ => False

theorem Fails.rejournal (fails : r.Fails h error) (journal : Array Entry) :
    r.Fails { h with journal := journal } error := by
  cases r with
  | allocate size => exact Heap.Fails.rejournal fails journal
  | allocateZeroed count size =>
    obtain overflow | ⟨bytes, product, fails⟩ := fails
    · exact .inl overflow
    · exact .inr ⟨bytes, product, fails.rejournal journal⟩
  | release block => exact fails
  | reallocate block size => exact ⟨fails.1, fails.2.rejournal journal⟩
  | write b start bytes => exact fails

theorem of_run_error (ran : r.run h = .ok (.error error) h') :
    r.Fails h error ∧ h' = { h with journal := h'.journal } := by
  cases r with
  | allocate size => exact Heap.of_allocate_error (Heap.of_map_some ran)
  | allocateZeroed count size => exact Heap.of_allocateZeroed_error (Heap.of_map_some ran)
  | release block =>
    obtain ⟨_, _, _, ran⟩ := Heap.of_bind_ok ran
    cases ran
  | reallocate block size =>
    obtain ⟨some_bytes, fails, same⟩ := Heap.of_reallocate_error ran
    exact ⟨⟨some_bytes, fails⟩, same⟩
  | write b start bytes =>
    obtain ⟨_, _, _, ran⟩ := Heap.of_bind_ok ran
    cases ran

theorem run_of_fails (fails : r.Fails h error) :
    ∃ journal, r.run h = .ok (.error error) { h with journal := journal } := by
  cases r with
  | allocate size =>
    obtain ⟨journal, ran⟩ := Heap.allocate_of_fails fails
    exact ⟨journal, Heap.bind_of_ok ran⟩
  | allocateZeroed count size =>
    obtain ⟨product, rfl⟩ | ⟨bytes, product, fails⟩ := fails
    · refine ⟨h.journal, ?_⟩
      simp only [run, Heap.allocateZeroed, product]
      rfl
    · obtain ⟨journal, ran⟩ := Heap.allocate_of_fails fails
      refine ⟨journal, ?_⟩
      have zeroed : Heap.allocateZeroed count size h =
          .ok (.error error) { h with journal := journal } := by
        simp only [Heap.allocateZeroed, product]
        exact Heap.bind_of_ok ran
      exact Heap.bind_of_ok zeroed
  | release block => exact fails.elim
  | reallocate block size =>
    obtain ⟨some_bytes, fails⟩ := fails
    obtain ⟨journal, ran⟩ := Heap.allocate_of_fails fails
    refine ⟨journal, ?_⟩
    simp only [run, Heap.reallocate, if_neg some_bytes]
    cases block <;> exact Heap.bind_of_ok ran
  | write b start bytes => exact fails.elim

theorem settle_error (leases : List Lease) (r : Request) :
    r.settle leases (.error error) = leases := by
  rcases r with _ | _ | (_ | _) | ⟨_ | _, _⟩ | _ <;> rfl

end Request

namespace Session

variable {A : Type} [Arena A] {s s' : Session A} {r : Request} {error : HeapError}

theorem Isolated.rejournal {spans : List Span} (isolated : s.Isolated spans)
    (journal : Array Entry) :
    Isolated ⟨{ s.heap with journal := journal }, s.leases⟩ spans :=
  { isolated with }

/-- A request that fails, whatever it asks for, changes nothing but the journal: the arena, the
lists, the prologue and all live blocks stay as they are. Repeated, it fails in the same way. -/
theorem failed_request_unchanged (reached : Reached s)
    (failed : perform r s = .ok (.error error) s') :
    s'.heap = { s.heap with journal := s'.heap.journal } ∧ s'.leases = s.leases ∧
      (∃ spans, s.Isolated spans ∧ s'.Isolated spans) ∧
      ∃ s'', perform r s' = .ok (.error error) s'' := by
  obtain ⟨ran, leases⟩ := of_perform_ok failed
  obtain ⟨fails, same⟩ := Request.of_run_error ran
  rw [Request.settle_error] at leases
  refine ⟨same, leases, ?_, ?_⟩
  · obtain ⟨v, kept⟩ := reached.kept
    refine ⟨v.spans, kept.isolated, ?_⟩
    obtain ⟨h', leases'⟩ := s'
    dsimp only at same leases
    rw [same, leases]
    exact kept.isolated.rejournal h'.journal
  · have again := fails.rejournal s'.heap.journal
    rw [← same] at again
    obtain ⟨journal, ran⟩ := Request.run_of_fails again
    exact ⟨_, perform_of_ok ran⟩

def overdraft : List Request :=
  [.allocate 5, .write 16 3 ⟨#[7, 9]⟩] ++ [.reallocate (some 16) 1000]

theorem overdraft_refused :
    (outcome (Buffer.new 96) ⟨128, 32⟩ overdraft).map Prod.fst =
      some [.ok (some 16), .ok none, .error (.arenaExhausted 1008 48)] := by
  decide +kernel

theorem overdraft_unchanged :
    ∃ s s' : Session Buffer, Reached s ∧ (Request.reallocate (some 16) 1000).allowed s = true ∧
      perform (.reallocate (some 16) 1000) s = .ok (.error (.arenaExhausted 1008 48)) s' ∧
      s'.heap = { s.heap with journal := s'.heap.journal } ∧ s'.leases = s.leases ∧
      (∃ spans, s.Isolated spans ∧ s'.Isolated spans) ∧
      ∃ s'', perform (.reallocate (some 16) 1000) s' =
        .ok (.error (.arenaExhausted 1008 48)) s'' := by
  obtain ⟨⟨answers, s'⟩, ended, answered⟩ := Option.map_eq_some_iff.mp overdraft_refused
  obtain ⟨before, answer, s, came, allowed, performed, rfl⟩ := of_outcome_concat ended
  have last : answer = .error (.arenaExhausted 1008 48) := by
    simpa using congrArg List.getLast? answered
  subst last
  have reached : Reached s := .of_outcome (by decide) came
  exact ⟨s, s', reached, allowed, performed, failed_request_unchanged reached performed⟩

end Session

end SegregatedFit
