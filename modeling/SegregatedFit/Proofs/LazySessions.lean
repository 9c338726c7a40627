import SegregatedFit.Proofs.Laziness

/-!
Sessions with a lazy heap, call by call. As long as the calls keep to the rules, such a session goes
on as the one whose heap was there from the start, up to the fault that ends both or to the last
call.
-/

namespace SegregatedFit

namespace Request

variable {A : Type} [Arena A] {h h' : Heap A} {r : Request} {b : Nat}

theorem leased_of_run (ran : r.run h = .ok (.ok (some b)) h') (leases : List Lease) :
    ∃ l ∈ r.settle leases (.ok (some b)), l.block = b := by
  cases r with
  | allocate size => exact ⟨_, List.mem_cons_self .., rfl⟩
  | allocateZeroed count size => exact ⟨_, List.mem_cons_self .., rfl⟩
  | release block =>
    obtain ⟨_, _, _, ran⟩ := Heap.of_bind_ok ran
    cases ran
  | reallocate block size => cases block <;> exact ⟨_, List.mem_cons_self .., rfl⟩
  | write block start bytes =>
    obtain ⟨_, _, _, ran⟩ := Heap.of_bind_ok ran
    cases ran

end Request

namespace Session

variable {config : Config} {s s' : Session Reservation} {r : Request} {answer : Answer} {l : Lease}

theorem leases_of_fault {fault : Fault} (performed : perform r s = .error fault s') :
    s'.leases = s.leases := by
  unfold perform at performed
  cases ran : r.run s.heap with
  | ok found g =>
    rw [ran] at performed
    cases performed
  | error fault' g =>
    rw [ran] at performed
    cases performed
    rfl

/-- What holds behind a lazy heap: the session keeps up what it keeps up, or its heap is too small
for any block, and nobody has one. -/
inductive Tended (config : Config) (s : Session Reservation) : Prop
  | kept {v : View} : s.Kept v → Tended config s
  | cramped {region : Reservation} {entries : Array Entry} :
    s = ⟨Heap.fresh region config entries, []⟩ → Arena.Roomy region config.chunkSize →
      Memory.size region = 0 → config.chunkSize = 8 → Tended config s

namespace Tended

theorem lease (tended : s.Tended config) (member : l ∈ s.leases) :
    l.block % 8 = 0 ∧ 8 ≤ l.block ∧ ∃ size, Block.payloadSize s.heap.memory l.block = .ok size ∧
      l.size ≤ size ∧ l.block + size ≤ Memory.size s.heap.memory := by
  cases tended with
  | @kept v kept =>
    obtain ⟨x, used, serves⟩ := kept.leased.served l member
    have within := kept.sound.shown.within (View.mem_of_used used)
    have block := serves.block
    exact ⟨kept.isolated.aligned l member, by omega, kept.isolated.room l member⟩
  | cramped same _ _ _ =>
    rw [same] at member
    cases member

theorem address_eq (tended : s.Tended config)
    (inside : s.heap.memory.base + s.heap.memory.capacity < offsetLimit) (member : l ∈ s.leases) :
    s.heap.memory.address l.block = s.heap.memory.base + l.block := by
  obtain ⟨_, _, size, _, _, within⟩ := tended.lease member
  have room : Memory.size s.heap.memory ≤ s.heap.memory.capacity := s.heap.memory.brk_le_capacity
  exact Nat.mod_eq_of_lt (by omega)

theorem offset_eq (tended : s.Tended config)
    (inside : s.heap.memory.base + s.heap.memory.capacity < offsetLimit) (member : l ∈ s.leases) :
    s.heap.memory.offset (s.heap.memory.base + l.block) = l.block := by
  obtain ⟨_, _, size, _, _, within⟩ := tended.lease member
  have room : Memory.size s.heap.memory ≤ s.heap.memory.capacity := s.heap.memory.brk_le_capacity
  rw [← tended.address_eq inside member]
  exact Reservation.offset_address _ _ (by omega)

theorem step (tended : s.Tended config) (allowed : r.allowed s = true)
    (performed : perform r s = .ok answer s') : s'.Tended config := by
  cases tended with
  | @kept v kept =>
    obtain ⟨_, _, v', ran, kept', _⟩ := kept.performs allowed
    rw [performed] at ran
    cases ran
    exact .kept kept'
  | cramped same roomy blank least =>
    subst same
    obtain ⟨live, _⟩ := Bool.and_eq_true_iff.mp allowed
    have untargeted : r.target = none := by
      cases target : r.target with
      | none => rfl
      | some b => simp [target] at live
    obtain ⟨ran, leases⟩ := of_perform_ok performed
    obtain ⟨⟨entries, same⟩, settled⟩ := Request.of_cramped_run roomy blank least untargeted ran
    rw [settled] at leases
    obtain ⟨h', leases'⟩ := s'
    dsimp only at same leases
    rw [same, leases]
    exact .cramped rfl roomy blank least

theorem answers (tended : s.Tended config) (allowed : r.allowed s = true)
    (chunk : 16 ≤ config.chunkSize) : ∃ answer s', perform r s = .ok answer s' := by
  cases tended with
  | kept kept =>
    obtain ⟨answer, s', _, ran, _⟩ := kept.performs allowed
    exact ⟨answer, s', ran⟩
  | cramped _ _ _ least => omega

end Tended

end Session

namespace Holding

variable {leases : List Lease} {base address : Nat}

theorem without_map (above : base ≤ address) :
    without (leases.map (Lease.holding base)) address =
      (Lease.without leases (address - base)).map (Lease.holding base) := by
  unfold without Lease.without
  rw [List.filter_map]
  congr 1
  apply List.filter_congr
  intro l _
  have same : base + l.block = address ↔ l.block = address - base := by omega
  simp only [Function.comp, Lease.holding, bne, beq_eq_decide, same]

end Holding

namespace Call

variable {g g' : Heap Reservation} {call : Call} {r : Request} {base : Nat} {answer : Answer}

theorem settle_eq (leases : List Lease) (comes : Comes base call r)
    (above : ∀ address, call.target? = some address → base ≤ address)
    (ran : r.run g = .ok answer g') :
    call.settle (leases.map (Lease.holding base)) (pointer base answer) =
      (r.settle leases answer).map (Lease.holding base) := by
  cases comes with
  | alloc served => rcases answer with error | _ | b <;> rfl
  | allocZeroed served =>
    rcases answer with error | _ | b
    · rfl
    · rfl
    · simp [settle, pointer, Request.settle, Lease.holding]
  | @realloc address _ _ served =>
    have above := above address rfl
    rcases answer with error | _ | b
    · obtain ⟨⟨some_bytes, _⟩, _⟩ := Request.of_run_error ran
      simp [settle, pointer, Request.settle, some_bytes]
    · simp [settle, pointer, Request.settle, Heap.of_reallocate_none ran, served,
        Holding.without_map above]
    · simp [settle, pointer, Request.settle, Holding.without_map above, Lease.holding]
  | @dealloc address =>
    have above := above address rfl
    cases answer with
    | error error => exact (Request.of_run_error ran).1.elim
    | ok found => simp [settle, Request.settle, Holding.without_map above]
  | @write address start bytes =>
    cases answer with
    | error error => exact (Request.of_run_error ran).1.elim
    | ok found =>
      simp only [settle, Request.settle, List.map_map]
      apply List.map_congr_left
      intro l _
      by_cases here : l.block = address - base <;> simp [here, Lease.write, Lease.holding]

end Call

namespace LazySession

variable {system : System} {config : Config} {region : Reservation} {h : Heap Reservation}
  {t t' : LazySession} {s s' : Session Reservation} {call : Call} {r : Request}
  {answer : Option Nat} {address : Nat}

/-- The session with the lazy heap and the one with the heap `h` from the start have come as far as
each other, and both are in order. -/
structure Serving (system : System) (config : Config) (h : Heap Reservation) (t : LazySession)
    (s : Session Reservation) : Prop where
  heap : t.heap = .opened system config s.heap ∨ t.heap = .new system config ∧ s = ⟨h, []⟩
  live : t.live = s.leases.map (Lease.holding h.memory.base)
  base : s.heap.memory.base = h.memory.base
  inside : s.heap.memory.base + s.heap.memory.capacity < offsetLimit
  tended : s.Tended config

namespace Serving

theorem start (made : Heap.Reserved system config region h) :
    Serving system config h (start system config) ⟨h, []⟩ := by
  obtain ⟨positive, divides, _⟩ := Heap.validate_eq_ok.mp made.valid
  obtain ⟨entries, same⟩ := made.fresh
  obtain ⟨journal, _, created⟩ := made.created
  have grown := Heap.grown_of_create created
  refine ⟨.inr ⟨rfl, rfl⟩, rfl, rfl, ?_, ?_⟩
  · have capacity : h.memory.capacity = region.capacity := grown.capacity_eq
    rw [capacity, Reservation.base_eq_of_grown grown]
    exact made.inside
  · by_cases chunk : 16 ≤ config.chunkSize
    · obtain ⟨v, kept⟩ := Session.kept_start created chunk
      exact .kept kept
    · exact .cramped (congrArg (Session.mk · []) same) made.roomy made.blank (by omega)

theorem mirrors (serving : Serving system config h t s) : Mirrors h t s where
  heap := by
    obtain opened | ⟨unused, rfl⟩ := serving.heap
    · rw [opened]
      rfl
    · rw [unused]
      rfl
  live := serving.live

theorem lease_of_allowed (serving : Serving system config h t s)
    (allowed : call.allowed t.live = true) (aimed : call.target? = some address) :
    ∃ l ∈ s.leases, h.memory.base + l.block = address ∧
      ∀ start bytes, call = .write address start bytes → start + bytes.size ≤ l.size := by
  rw [serving.live] at allowed
  cases call with
  | alloc layout => cases aimed
  | allocZeroed layout => cases aimed
  | realloc old layout size =>
    cases aimed
    obtain ⟨l, member, here⟩ : ∃ l ∈ s.leases, h.memory.base + l.block = address := by
      simpa [Call.allowed, Lease.holding] using allowed
    exact ⟨l, member, here, fun _ _ => nofun⟩
  | dealloc old =>
    cases aimed
    obtain ⟨l, member, here⟩ : ∃ l ∈ s.leases, h.memory.base + l.block = address := by
      simpa [Call.allowed, Lease.holding] using allowed
    exact ⟨l, member, here, fun _ _ => nofun⟩
  | write target start bytes =>
    cases aimed
    simp only [Call.allowed, List.any_map, List.any_eq_true, Function.comp_apply, Lease.holding,
      Bool.and_eq_true, beq_iff_eq] at allowed
    obtain ⟨l, member, here, room⟩ := allowed
    refine ⟨l, member, here, ?_⟩
    rintro _ _ ⟨⟩
    exact of_decide_eq_true room

theorem opened_of_target (serving : Serving system config h t s)
    (allowed : call.allowed t.live = true) (aimed : call.target? = some address) :
    t.heap = .opened system config s.heap := by
  obtain ⟨l, member, _⟩ := serving.lease_of_allowed allowed aimed
  obtain opened | ⟨_, rfl⟩ := serving.heap
  · exact opened
  · cases member

theorem request_allowed (serving : Serving system config h t s)
    (allowed : call.allowed t.live = true) (comes : call.Comes h.memory.base r) :
    r.allowed s = true := by
  have live : ∀ address, call.target? = some address →
      address - h.memory.base ∈ s.leases.map Lease.block := by
    intro address aimed
    obtain ⟨l, member, rfl, _⟩ := serving.lease_of_allowed allowed aimed
    exact List.mem_map.mpr ⟨l, member, by omega⟩
  cases comes with
  | alloc _ => rfl
  | allocZeroed _ => rfl
  | @realloc address _ _ _ =>
    simpa [Request.allowed, Request.target, Request.fits] using live address rfl
  | @dealloc address =>
    simpa [Request.allowed, Request.target, Request.fits] using live address rfl
  | @write address start bytes =>
    obtain ⟨l, member, rfl, room⟩ := serving.lease_of_allowed allowed rfl
    obtain ⟨_, _, size, read, enough, _⟩ := serving.tended.lease member
    have room := room start bytes rfl
    have block : h.memory.base + l.block - h.memory.base = l.block := by omega
    have live := live _ rfl
    rw [block] at live ⊢
    simp only [Request.allowed, Request.target, Request.fits, read, Option.all_some,
      Bool.and_eq_true, decide_eq_true_eq, List.contains_iff_mem]
    exact ⟨live, by omega⟩

theorem step_session (serving : Serving system config h t s) {found : Answer}
    (allowed : r.allowed s = true) (performed : Session.perform r s = .ok found s') :
    s'.heap.memory.base = h.memory.base ∧
      s'.heap.memory.base + s'.heap.memory.capacity < offsetLimit ∧ s'.Tended config := by
  obtain ⟨sizes, traced⟩ := Session.traced performed
  have base := Reservation.base_eq_of_grown traced.grown
  have capacity : s'.heap.memory.capacity = s.heap.memory.capacity := traced.grown.capacity_eq
  refine ⟨base.trans serving.base, ?_, serving.tended.step allowed performed⟩
  rw [base, capacity]
  exact serving.inside

theorem translates (serving : Serving system config h t s) (allowed : call.allowed t.live = true)
    (comes : call.Comes h.memory.base r) : call.Translates r s.heap where
  named address aimed := by
    obtain ⟨l, member, rfl, _⟩ := serving.lease_of_allowed allowed aimed
    rw [← serving.base, serving.tended.offset_eq serving.inside member]
    omega
  answered b g' ran := by
    have performed := Session.perform_of_ok ran
    obtain ⟨base, inside, tended⟩ :=
      serving.step_session (serving.request_allowed allowed comes) performed
    obtain ⟨l, member, rfl⟩ := Request.leased_of_run ran s.leases
    calc
      g'.memory.address l.block = g'.memory.base + l.block := tended.address_eq inside member
      _ = s.heap.memory.base + l.block := by rw [serving.base, ← base]
  written b start bytes same := by
    subst same
    cases comes
    obtain ⟨l, member, rfl, room⟩ := serving.lease_of_allowed allowed rfl
    obtain ⟨_, _, size, read, enough, within⟩ := serving.tended.lease member
    have room := room start bytes rfl
    rw [Nat.add_sub_cancel_left]
    exact Heap.writePayload_eq_setBytes read within (by omega)

theorem perform_eq (serving : Serving system config h t s)
    (made : Heap.Reserved system config region h) (allowed : call.allowed t.live = true)
    (comes : call.Comes h.memory.base r) :
    perform call t = match Session.perform r s with
      | .ok found s' =>
        .ok (Call.pointer h.memory.base found)
          ⟨.opened system config s'.heap, call.settle t.live (Call.pointer h.memory.base found)⟩
      | .error fault s' => .error fault ⟨.opened system config s'.heap, t.live⟩ := by
  obtain ⟨_, reserved⟩ := made.reserved
  have translates := serving.translates allowed comes
  have opened : call.run (.opened system config s.heap) = _ :=
    Call.run_opened (serving.base.symm ▸ comes) translates
  have same : call.run t.heap = call.run (.opened system config s.heap) := by
    cases aimed : call.target? with
    | some address => rw [serving.opened_of_target allowed aimed]
    | none =>
      obtain there | ⟨unused, rfl⟩ := serving.heap
      · rw [there]
      · rw [unused, Call.run_new reserved comes aimed]
  simp only [perform, same, opened, Session.perform, serving.base]
  cases r.run s.heap <;> rfl

end Serving

theorem perform_overaligned {layout : Layout} (asks : call.layout? = some layout)
    (strict : Block.alignment < layout.align) (t : LazySession) : perform call t = .ok none t := by
  simp only [perform, Call.run_overaligned asks strict, Call.settle_overaligned asks strict]

inductive Outcome {α : Type} (system : System) (config : Config) (h : Heap Reservation) :
    EStateM.Result Fault LazySession α → EStateM.Result Fault (Session Reservation) α → Prop
  | answered {a : α} {t : LazySession} {s : Session Reservation} :
    Serving system config h t s → Outcome system config h (.ok a t) (.ok a s)
  | faulted {fault : Fault} {t : LazySession} {s : Session Reservation} :
    Mirrors h t s → config.chunkSize < 16 →
      Outcome system config h (.error fault t) (.error fault s)

namespace Outcome

variable {α β : Type}

theorem agree {result : EStateM.Result Fault LazySession α}
    {result' : EStateM.Result Fault (Session Reservation) α}
    (outcome : Outcome system config h result result') : Agree h result result' := by
  cases outcome with
  | answered serving => exact .answered serving.mirrors
  | faulted mirrors _ => exact .faulted mirrors

theorem serving_of_ok {a : α} {result : EStateM.Result Fault (Session Reservation) α}
    (outcome : Outcome system config h (.ok a t) result) : ∃ s, Serving system config h t s := by
  cases outcome with
  | answered serving => exact ⟨_, serving⟩

theorem ok_of_chunk {result : EStateM.Result Fault LazySession α}
    {result' : EStateM.Result Fault (Session Reservation) α}
    (outcome : Outcome system config h result result') (chunk : 16 ≤ config.chunkSize) :
    ∃ a t, result = .ok a t := by
  cases outcome with
  | answered _ => exact ⟨_, _, rfl⟩
  | faulted _ small => omega

theorem bind {first : EStateM Fault LazySession α} {first' : EStateM Fault (Session Reservation) α}
    {next : α → EStateM Fault LazySession β} {next' : α → EStateM Fault (Session Reservation) β}
    (outcome : Outcome system config h (first t) (first' s))
    (later : ∀ a t' s', first t = .ok a t' → Serving system config h t' s' →
      Outcome system config h (next a t') (next' a s')) :
    Outcome system config h ((first >>= next) t) ((first' >>= next') s) := by
  simp only [Bind.bind, EStateM.bind]
  cases ended : first t with
  | ok a t' =>
    rw [ended] at outcome
    cases ended' : first' s with
    | ok a' s' =>
      rw [ended'] at outcome
      cases outcome with
      | answered serving => exact later _ _ _ ended serving
    | error fault s' =>
      rw [ended'] at outcome
      cases outcome
  | error fault t' =>
    rw [ended] at outcome
    cases ended' : first' s with
    | ok a' s' =>
      rw [ended'] at outcome
      cases outcome
    | error fault' s' =>
      rw [ended'] at outcome
      cases outcome with
      | faulted mirrors small => exact .faulted mirrors small

end Outcome

theorem Serving.step (serving : Serving system config h t s)
    (made : Heap.Reserved system config region h) (allowed : call.allowed t.live = true) :
    Outcome system config h (perform call t) (call.serve h.memory.base s) := by
  cases request : call.request? h.memory.base with
  | none =>
    obtain ⟨layout, asks, strict⟩ := Call.request_eq_none.mp request
    rw [perform_overaligned asks strict]
    simp only [Call.serve, request]
    exact .answered serving
  | some r =>
    have comes := Call.comes_of_request request
    have granted := serving.request_allowed allowed comes
    rw [serving.perform_eq made allowed comes]
    simp only [Call.serve, request, Bind.bind, EStateM.bind]
    cases performed : Session.perform r s with
    | ok found s' =>
      obtain ⟨base, inside, tended⟩ := serving.step_session granted performed
      obtain ⟨ran, leases⟩ := Session.of_perform_ok performed
      refine .answered ⟨.inl rfl, ?_, base, inside, tended⟩
      have above : ∀ address, call.target? = some address → h.memory.base ≤ address := by
        intro address aimed
        obtain ⟨l, _, rfl, _⟩ := serving.lease_of_allowed allowed aimed
        omega
      dsimp only
      rw [leases, serving.live]
      exact Call.settle_eq s.leases comes above ran
    | error fault s' =>
      refine .faulted ⟨rfl, ?_⟩ ?_
      · rw [Session.leases_of_fault performed]
        exact serving.live
      · by_contra chunk
        obtain ⟨answer, s', ran⟩ := serving.tended.answers granted (by omega)
        rw [ran] at performed
        cases performed

theorem Serving.run (serving : Serving system config h t s)
    (made : Heap.Reserved system config region h) {calls : List Call}
    (honoured : honours calls t = true) :
    Outcome system config h ((calls.mapM perform) t)
      ((calls.mapM (Call.serve h.memory.base)) s) := by
  induction calls generalizing t s with
  | nil => exact .answered serving
  | cons call rest ih =>
    obtain ⟨allowed, later⟩ := Bool.and_eq_true_iff.mp honoured
    rw [List.mapM_cons, List.mapM_cons]
    refine (serving.step made allowed).bind fun answer t' s' performed serving' => ?_
    simp only [performed] at later
    exact (ih serving' later).bind fun answers _ _ _ done => .answered done

section Failing

variable {error : HeapError}

theorem perform_failed (failed : Heap.reserve system config #[] = .ok (.error error) #[])
    (allowed : call.allowed [] = true) :
    perform call (start system config) = .ok none (start system config) := by
  have fresh : call.target? = none := by
    cases call <;> first | rfl | cases allowed
  have nobody : call.settle [] none = [] := by
    cases call <;> first | rfl | cases fresh
  simp only [perform, start, Call.run_failed failed fresh, nobody]

theorem run_failed (failed : Heap.reserve system config #[] = .ok (.error error) #[])
    {calls : List Call} (honoured : honours calls (start system config) = true) :
    (calls.mapM perform) (start system config) =
      .ok (calls.map fun _ => none) (start system config) := by
  induction calls with
  | nil => rfl
  | cons call rest ih =>
    obtain ⟨allowed, later⟩ := Bool.and_eq_true_iff.mp honoured
    have performed := perform_failed failed allowed
    simp only [performed] at later
    rw [List.mapM_cons]
    simp only [Bind.bind, EStateM.bind, performed, ih later]
    rfl

end Failing

/-- What a client can depend on in each call: nothing happens if the alignment cannot be served,
what could not be resized is still there, and a pointer is as aligned as it was asked for. -/
structure Dependable (system : System) (t : LazySession) (call : Call) (answer : Option Nat)
    (t' : LazySession) : Prop where
  overaligned : ∀ layout, call.layout? = some layout → Block.alignment < layout.align →
    answer = none ∧ t' = t
  refused : ∀ address layout size, call = .realloc address layout size → 0 < size →
    answer = none → t'.live = t.live ∧
      ∃ entries, t'.heap.heap = t.heap.heap.map ({ · with journal := entries })
  aligned : ∀ layout address, call.layout? = some layout → answer = some address →
    0 < address ∧ ∀ g, t'.heap.heap = some g → g.memory.base % system.pageSize = 0 →
      address % layout.align = 0

namespace Serving

theorem of_perform (serving : Serving system config h t s)
    (made : Heap.Reserved system config region h) (allowed : call.allowed t.live = true)
    (comes : call.Comes h.memory.base r) (performed : perform call t = .ok answer t') :
    ∃ found s', Session.perform r s = .ok found s' ∧ answer = Call.pointer h.memory.base found ∧
      t' = ⟨.opened system config s'.heap, call.settle t.live answer⟩ := by
  rw [serving.perform_eq made allowed comes] at performed
  cases ran : Session.perform r s with
  | error fault s' =>
    rw [ran] at performed
    cases performed
  | ok found s' =>
    rw [ran] at performed
    cases performed
    exact ⟨found, s', rfl, rfl, rfl⟩

theorem aligned (serving : Serving system config h t s) (sane : system.Sane)
    (made : Heap.Reserved system config region h) (allowed : call.allowed t.live = true)
    (comes : call.Comes h.memory.base r) (performed : perform call t = .ok (some address) t')
    {layout : Layout} (asks : call.layout? = some layout) :
    0 < address ∧ ∀ g, t'.heap.heap = some g → g.memory.base % system.pageSize = 0 →
      address % layout.align = 0 := by
  obtain ⟨found, s', ran, pointer, rfl⟩ := serving.of_perform made allowed comes performed
  rcases found with error | _ | b
  · cases pointer
  · cases pointer
  · cases pointer
    obtain ⟨base, _, tended⟩ :=
      serving.step_session (serving.request_allowed allowed comes) ran
    obtain ⟨answered, leases⟩ := Session.of_perform_ok ran
    obtain ⟨l, member, rfl⟩ := Request.leased_of_run answered s.leases
    obtain ⟨eight, positive, _⟩ := tended.lease (leases ▸ member)
    refine ⟨by omega, ?_⟩
    rintro g ⟨⟩ paged
    have start : 8 ∣ h.memory.base :=
      base ▸ sane.eight_dvd.trans (Nat.dvd_of_mod_eq_zero paged)
    have whole : 8 ∣ h.memory.base + l.block :=
      Nat.dvd_add start (Nat.dvd_of_mod_eq_zero eight)
    exact Nat.mod_eq_zero_of_dvd
      ((Layout.align_dvd (comes.served asks)).trans whole)

theorem refused {old size : Nat} {layout : Layout} (serving : Serving system config h t s)
    (made : Heap.Reserved system config region h)
    (allowed : (Call.realloc old layout size).allowed t.live = true) (some_bytes : 0 < size)
    (performed : perform (.realloc old layout size) t = .ok none t') :
    t'.live = t.live ∧
      ∃ entries, t'.heap.heap = t.heap.heap.map ({ · with journal := entries }) := by
  have opened := serving.opened_of_target allowed rfl
  by_cases served : layout.align ≤ Block.alignment
  · obtain ⟨found, s', ran, pointer, rfl⟩ :=
      serving.of_perform made allowed (.realloc served) performed
    obtain ⟨answered, _⟩ := Session.of_perform_ok ran
    rcases found with error | _ | b
    · obtain ⟨_, same⟩ := Request.of_run_error answered
      refine ⟨if_neg fun nothing => by omega, s'.heap.journal, ?_⟩
      rw [opened]
      exact congrArg some same
    · have := Heap.of_reallocate_none answered
      omega
    · cases pointer
  · rw [perform_overaligned rfl (Nat.not_le.mp served)] at performed
    cases performed
    refine ⟨rfl, s.heap.journal, ?_⟩
    rw [opened]
    rfl

theorem dependable (serving : Serving system config h t s) (sane : system.Sane)
    (made : Heap.Reserved system config region h) (allowed : call.allowed t.live = true)
    (performed : perform call t = .ok answer t') : Dependable system t call answer t' where
  overaligned layout asks strict := by
    rw [perform_overaligned asks strict] at performed
    cases performed
    exact ⟨rfl, rfl⟩
  refused old layout size here some_bytes nothing := by
    subst here nothing
    exact serving.refused made allowed some_bytes performed
  aligned layout address asks pointer := by
    subst pointer
    cases request : call.request? h.memory.base with
    | none =>
      obtain ⟨layout, asks, strict⟩ := Call.request_eq_none.mp request
      rw [perform_overaligned asks strict] at performed
      cases performed
    | some r =>
      exact serving.aligned sane made allowed (Call.comes_of_request request) performed asks

end Serving

/-- A session with a lazy heap is one with a heap from the start, whatever the calls, as long as
they keep to the rules: each answer is the pointer to the block that the request gets there or none,
and the heaps stay the same. If that heap cannot be made, no call gets a pointer. Only with the
smallest chunks a call can fail to be answered, and then it fails there too. -/
theorem as_if_reserved {calls : List Call} (sane : system.Sane)
    (honoured : honours calls (start system config) = true) :
    ((∃ h entries, Heap.reserve system config #[] = .ok (.ok h) entries ∧
        Agree h ((calls.mapM perform) (start system config))
          ((calls.mapM (Call.serve h.memory.base)) ⟨h, []⟩)) ∨
      ∃ error entries, Heap.reserve system config #[] = .ok (.error error) entries ∧
        (calls.mapM perform) (start system config) =
          .ok (calls.map fun _ => none) (start system config)) ∧
    (16 ≤ config.chunkSize →
      ∃ answers t, (calls.mapM perform) (start system config) = .ok answers t) ∧
    ∀ answers t, (calls.mapM perform) (start system config) = .ok answers t →
      ∀ call answer t', call.allowed t.live = true → perform call t = .ok answer t' →
        Dependable system t call answer t' := by
  obtain ⟨error, failed⟩ | ⟨region, h, made⟩ := Heap.reserve_cases sane config
  · have ran := run_failed failed honoured
    refine ⟨.inr ⟨error, #[], failed, ran⟩, fun _ => ⟨_, _, ran⟩, ?_⟩
    intro answers t ended call answer t' allowed performed
    rw [ran] at ended
    cases ended
    rw [perform_failed failed allowed] at performed
    cases performed
    refine ⟨fun _ _ _ => ⟨rfl, rfl⟩, ?_, fun _ _ _ => nofun⟩
    rintro _ _ _ rfl
    cases allowed
  · obtain ⟨entries, reserved⟩ := made.reserved
    have outcome := (Serving.start made).run made honoured
    refine ⟨.inl ⟨h, entries, reserved, outcome.agree⟩, outcome.ok_of_chunk, ?_⟩
    intro answers t ran call answer t' allowed performed
    rw [ran] at outcome
    obtain ⟨s, serving⟩ := outcome.serving_of_ok
    exact serving.dependable sane made allowed performed

def tenancy : List Call :=
  [.alloc ⟨64, 64, by decide, by decide⟩, .alloc ⟨5, 8, by decide, by decide⟩,
    .write ((127 <<< 40) + 16) 2 ⟨#[7, 9]⟩,
    .realloc ((127 <<< 40) + 16) ⟨5, 8, by decide, by decide⟩ (1 <<< 20),
    .allocZeroed ⟨3, 1, by decide, by decide⟩, .dealloc ((127 <<< 40) + 16)]

def tenancyPointers : List (Option Nat) :=
  [none, some ((127 <<< 40) + 16), none, none, some ((127 <<< 40) + 32), none]

theorem tenancy_served :
    honours tenancy (start .usual ⟨65536, 64⟩) = true ∧
      (match (tenancy.mapM perform) (start .usual ⟨65536, 64⟩) with
        | .ok pointers _ => some pointers
        | .error _ _ => none) = some tenancyPointers := by
  decide +kernel

theorem tenancy_as_if_reserved :
    System.usual.Sane ∧ honours tenancy (start .usual ⟨65536, 64⟩) = true ∧
      ∃ h entries t s, Heap.reserve .usual ⟨65536, 64⟩ #[] = .ok (.ok h) entries ∧
        (tenancy.mapM perform) (start .usual ⟨65536, 64⟩) = .ok tenancyPointers t ∧
        (tenancy.mapM (Call.serve h.memory.base)) ⟨h, []⟩ = .ok tenancyPointers s ∧ Mirrors h t s ∧
        ∀ call answer t', call.allowed t.live = true → perform call t = .ok answer t' →
          Dependable .usual t call answer t' := by
  obtain ⟨honoured, served⟩ := tenancy_served
  obtain ⟨follows, ended, dependable⟩ := as_if_reserved System.usual_sane honoured
  obtain ⟨pointers, t, ran⟩ := ended (by decide)
  rw [ran] at follows served
  cases served
  refine ⟨System.usual_sane, honoured, ?_⟩
  obtain ⟨h, entries, reserved, agree⟩ | ⟨_, _, _, nothing⟩ := follows
  · generalize eager : (tenancy.mapM (Call.serve h.memory.base)) ⟨h, []⟩ = result at agree
    cases agree with
    | @answered _ _ s mirrors =>
      exact ⟨h, entries, t, s, reserved, ran, eager, mirrors, dependable _ t ran⟩
  · cases nothing

end LazySession

end SegregatedFit
