import SegregatedFit.LazySession
import SegregatedFit.Proofs.Cramped
import SegregatedFit.Proofs.Sizing

namespace SegregatedFit

/-- Pages are a power of two of bytes with room for a block in each, and regions end before the
addresses do. -/
structure System.Sane (system : System) : Prop where
  pages : ∃ k, 3 ≤ k ∧ k < 64 ∧ system.pageSize = 1 <<< k
  regions : ∀ n base, system.reserve n = some base → base + n < offsetLimit

theorem System.usual_sane : System.usual.Sane where
  pages := ⟨12, by decide, by decide, rfl⟩
  regions n base granted := by
    simp only [System.usual] at granted
    split at granted
    · cases granted
      simp only [offsetLimit, Nat.reduceShiftLeft] at *
      omega
    · cases granted

theorem System.Sane.eight_dvd {system : System} (sane : system.Sane) : 8 ∣ system.pageSize := by
  obtain ⟨k, three, _, pages⟩ := sane.pages
  rw [pages, Nat.one_shiftLeft]
  exact Nat.pow_dvd_pow 2 three

theorem Layout.align_dvd {layout : Layout} (served : layout.align ≤ Block.alignment) :
    layout.align ∣ 8 := by
  rw [← layout.align_two_pow, Nat.one_shiftLeft] at served ⊢
  have small : layout.align.log2 ≤ 3 := (Nat.pow_le_pow_iff_right (by decide)).mp served
  exact Nat.pow_dvd_pow 2 small

namespace Reservation

variable {system : System} {config : Config} {region region' : Reservation} {sizes : List Nat}

theorem base_eq_of_grown (grown : Arena.Grown region sizes region') :
    region'.base = region.base := by
  induction grown with
  | refl => rfl
  | @write _ b start count value _ ih =>
    have same : (b.update start count value).base = b.base := by
      unfold update
      split <;> rfl
    exact same.trans ih
  | @extend _ b n _ _ ih =>
    have same : (b.extend n).base = b.base := by
      unfold extend
      split <;> rfl
    exact same.trans ih

theorem new_defined (sane : system.Sane) (valid : config.validate = .ok ()) :
    (∃ error, new system config.maxHeap = .ok (.error error)) ∨
      ∃ region, new system config.maxHeap = .ok (.ok region) ∧ Memory.size region = 0 ∧
        region.base + region.capacity < offsetLimit := by
  obtain ⟨k, _, below, pages⟩ := sane.pages
  obtain ⟨_, _, _, small, large⟩ := Heap.validate_eq_ok.mp valid
  have page : 1 <<< k ≤ 1 <<< 63 := by
    rw [Nat.one_shiftLeft, Nat.one_shiftLeft]
    exact Nat.pow_le_pow_right (by decide) (by omega)
  have limit : Tag.maxSize + 1 <<< 63 < offsetLimit := by decide
  rw [new_eq pages, if_pos (by omega)]
  cases answer : system.reserve (wholeUnits (max config.maxHeap 1) k) with
  | none => exact .inl ⟨_, rfl⟩
  | some base => exact .inr ⟨_, rfl, rfl, sane.regions _ _ answer⟩

end Reservation

namespace Heap

structure Reserved (system : System) (config : Config) (region : Reservation)
    (h : Heap Reservation) : Prop where
  valid : config.validate = .ok ()
  reserved : ∃ entries, reserve system config #[] = .ok (.ok h) entries
  created : ∃ journal entries, create region config journal = .ok (.ok h) entries
  fresh : ∃ entries, h = fresh region config entries
  roomy : Arena.Roomy region config.chunkSize
  blank : Memory.size region = 0
  inside : region.base + region.capacity < offsetLimit

theorem reserve_cases {system : System} (sane : system.Sane) (config : Config) :
    (∃ error, reserve system config #[] = .ok (.error error) #[]) ∨
      ∃ region h, Reserved system config region h := by
  cases valid : config.validate with
  | error reason =>
    refine .inl ⟨.invalidConfig reason, ?_⟩
    simp only [reserve, valid]
    rfl
  | ok _ =>
    obtain ⟨positive, divides, _⟩ := validate_eq_ok.mp valid
    obtain ⟨k, _, _, pages⟩ := sane.pages
    obtain ⟨error, refused⟩ | ⟨region, granted, blank, inside⟩ :=
      Reservation.new_defined sane valid
    · refine .inl ⟨error, ?_⟩
      have acquired : Reservation.acquire system config.maxHeap #[] = .ok (.error error) #[] := by
        simp only [Reservation.acquire, refused]
      simp only [reserve, valid, bind, EStateM.bind, acquired]
      rfl
    · have roomy := Reservation.roomy_of_new_ok valid pages granted
      obtain ⟨entries, created⟩ := create_fresh roomy (by omega) divides valid
        (#[Entry.reserved region.capacity region.base])
      have reserved := (reserve_of_granted valid granted #[]).trans created
      exact .inr ⟨region, fresh region config entries, valid, ⟨entries, reserved⟩,
        ⟨_, entries, created⟩, ⟨entries, rfl⟩, roomy, blank, inside⟩

end Heap

namespace LazyHeap

variable {α : Type} {system : System} {config : Config} {h g : Heap Reservation}
  {entries : Array Entry}

def opened (system : System) (config : Config) (g : Heap Reservation) : LazyHeap :=
  ⟨system, config, some g, #[]⟩

def lift (system : System) (config : Config) :
    EStateM.Result Fault (Heap Reservation) α → EStateM.Result Fault LazyHeap α
  | .ok a g => .ok a (opened system config g)
  | .error fault g => .error fault (opened system config g)

theorem step_opened (action : HeapM Reservation (Option α)) :
    step action (opened system config g) = lift system config (action g) := by
  simp only [step, opened]
  cases action g <;> rfl

theorem withHeap_opened (action : HeapM Reservation (Option α)) :
    withHeap action (opened system config g) = lift system config (action g) :=
  step_opened action

theorem withHeap_new (reserved : Heap.reserve system config #[] = .ok (.ok h) entries)
    (action : HeapM Reservation (Option α)) :
    withHeap action (new system config) = withHeap action (opened system config h) := by
  have ensured : ensureHeap (new system config) = .ok () (opened system config h) := by
    simp only [ensureHeap, new, reserved]
    rfl
  calc
    withHeap action (new system config) = step action (opened system config h) := by
      simp only [withHeap, bind, EStateM.bind, ensured]
    _ = withHeap action (opened system config h) := rfl

theorem withHeap_failed {error : HeapError}
    (failed : Heap.reserve system config #[] = .ok (.error error) #[])
    (action : HeapM Reservation (Option α)) :
    withHeap action (new system config) = .ok none (new system config) := by
  have ensured : ensureHeap (new system config) = .ok () (new system config) := by
    simp only [ensureHeap, new, failed]
  simp only [withHeap, bind, EStateM.bind, ensured]
  rfl

theorem lift_answer {base : Nat} (action : HeapM Reservation Answer)
    (address : ∀ b g', action g = .ok (.ok (some b)) g' → g'.memory.address b = base + b) :
    lift system config ((action >>= addressOfAnswer) g) =
      match action g with
      | .ok answer g' => .ok (Call.pointer base answer) (opened system config g')
      | .error fault g' => .error fault (opened system config g') := by
  simp only [bind, EStateM.bind]
  cases ran : action g with
  | error fault g' => rfl
  | ok answer g' =>
    rcases answer with error | _ | b
    · rfl
    · rfl
    · have found : addressOfAnswer (.ok (some b)) g' = .ok (some (g'.memory.address b)) g' := rfl
      simp only [found, address b g' ran]
      rfl

theorem blockAt_bind {β : Type} (address : Nat) (next : Block → HeapM Reservation β) :
    (blockAt address >>= next) g = next (g.memory.offset address) g :=
  rfl

/-- Calls whose layout cannot be served are turned down before there is a heap. -/
theorem guarded (layout : Layout) (action : LazyM (Option α)) :
    (if (!served layout) = true then pure none else action) =
      if layout.align ≤ Block.alignment then action else pure none := by
  by_cases strict : layout.align ≤ Block.alignment <;> simp [served, strict]

end LazyHeap

namespace Heap

variable {h h' : Heap Reservation} {b : Block} {start size : Nat} {bytes : ByteArray}

theorem writePayload_eq_setBytes (read : Block.payloadSize h.memory b = .ok size)
    (inside : b + size ≤ Memory.size h.memory) (room : start + bytes.size ≤ size) :
    writePayload b start bytes h = setBytes (b + start) bytes h := by
  simp only [writePayload, query_bind, read, Memory.ensure_eq_ok.mpr inside, if_pos room]

theorem of_reallocate_none {block : Option Block}
    (ran : reallocate block size h = .ok (.ok none) h') : size = 0 := by
  by_contra some_bytes
  simp only [reallocate, if_neg some_bytes] at ran
  cases block with
  | none =>
    obtain ⟨granted, _, _, ran⟩ := of_bind_ok ran
    cases granted <;> cases ran
  | some old =>
    obtain ⟨granted, _, _, ran⟩ := of_bind_ok ran
    cases granted with
    | error error => cases ran
    | ok new =>
      obtain ⟨_, _, _, ran⟩ := of_bind_ok ran
      obtain ⟨_, _, _, ran⟩ := of_bind_ok ran
      obtain ⟨_, _, _, ran⟩ := of_bind_ok ran
      obtain ⟨_, _, _, ran⟩ := of_bind_ok ran
      cases ran

end Heap

namespace Call

variable {system : System} {config : Config} {h g : Heap Reservation} {call : Call} {r : Request}
  {entries : Array Entry} {base : Nat}

def target? : Call → Option Nat
  | .alloc _ | .allocZeroed _ => none
  | .realloc address _ _ | .dealloc address | .write address _ _ => some address

structure Translates (call : Call) (r : Request) (g : Heap Reservation) : Prop where
  named : ∀ address, call.target? = some address →
    g.memory.offset address = address - g.memory.base
  answered : ∀ b g', r.run g = .ok (.ok (some b)) g' → g'.memory.address b = g.memory.base + b
  written : ∀ b start bytes, r = .write b start bytes →
    Heap.writePayload b start bytes g = Heap.setBytes (b + start) bytes g

theorem request_eq_none : call.request? base = none ↔
    ∃ layout, call.layout? = some layout ∧ Block.alignment < layout.align := by
  cases call <;> simp [request?, layout?]

/-- All that calls come to. -/
inductive Comes (base : Nat) : Call → Request → Prop
  | alloc {layout : Layout} : layout.align ≤ Block.alignment →
    Comes base (.alloc layout) (.allocate layout.size)
  | allocZeroed {layout : Layout} : layout.align ≤ Block.alignment →
    Comes base (.allocZeroed layout) (.allocateZeroed 1 layout.size)
  | realloc {address size : Nat} {layout : Layout} : layout.align ≤ Block.alignment →
    Comes base (.realloc address layout size) (.reallocate (some (address - base)) size)
  | dealloc {address : Nat} : Comes base (.dealloc address) (.release (some (address - base)))
  | write {address start : Nat} {bytes : ByteArray} :
    Comes base (.write address start bytes) (.write (address - base) start bytes)

theorem comes_of_request (request : call.request? base = some r) : Comes base call r := by
  cases call with
  | alloc layout =>
    obtain ⟨served, rfl⟩ : layout.align ≤ Block.alignment ∧ .allocate layout.size = r := by
      simpa [request?] using request
    exact .alloc served
  | allocZeroed layout =>
    obtain ⟨served, rfl⟩ : layout.align ≤ Block.alignment ∧ .allocateZeroed 1 layout.size = r := by
      simpa [request?] using request
    exact .allocZeroed served
  | realloc address layout size =>
    obtain ⟨served, rfl⟩ : layout.align ≤ Block.alignment ∧
        .reallocate (some (address - base)) size = r := by
      simpa [request?] using request
    exact .realloc served
  | dealloc address =>
    cases request
    exact .dealloc
  | write address start bytes =>
    cases request
    exact .write

theorem Comes.served {layout : Layout} (comes : Comes base call r)
    (asks : call.layout? = some layout) : layout.align ≤ Block.alignment := by
  cases comes <;> cases asks <;> assumption

theorem run_opened (comes : Comes g.memory.base call r) (translates : call.Translates r g) :
    call.run (.opened system config g) =
      match r.run g with
      | .ok answer g' => .ok (pointer g.memory.base answer) (.opened system config g')
      | .error fault g' => .error fault (.opened system config g') := by
  cases comes with
  | alloc served =>
    rw [← LazyHeap.lift_answer _ translates.answered]
    simp only [run, LazyHeap.alloc, LazyHeap.guarded, if_pos served, LazyHeap.withHeap_opened,
      Request.run, bind_assoc, pure_bind]
  | allocZeroed served =>
    rw [← LazyHeap.lift_answer _ translates.answered]
    simp only [run, LazyHeap.allocZeroed, LazyHeap.guarded, if_pos served, LazyHeap.withHeap_opened,
      Request.run, bind_assoc, pure_bind]
  | @realloc address _ _ served =>
    rw [← LazyHeap.lift_answer _ translates.answered]
    simp only [run, LazyHeap.realloc, LazyHeap.guarded, if_pos served, LazyHeap.withHeap_opened,
      LazyHeap.blockAt_bind, translates.named address rfl, Request.run]
  | @dealloc address =>
    have given : LazyHeap.withHeap (α := Unit) (do
        Heap.release (some (← LazyHeap.blockAt address))
        return none) (.opened system config g) =
        LazyHeap.lift system config ((do
          Heap.release (some (address - g.memory.base))
          return none) g) := by
      rw [LazyHeap.withHeap_opened, LazyHeap.blockAt_bind, translates.named address rfl]
    simp only [run, LazyHeap.dealloc, Request.run, discard, Functor.mapConst, Function.comp,
      EStateM.map, bind, EStateM.bind] at given ⊢
    rw [given]
    cases Heap.release (some (address - g.memory.base)) g <;> rfl
  | @write address start bytes =>
    have given : LazyHeap.step (do
        Heap.setBytes ((← LazyHeap.blockAt address) + start) bytes
        return some ()) (.opened system config g) =
        LazyHeap.lift system config ((do
          Heap.setBytes (address - g.memory.base + start) bytes
          return some ()) g) := by
      rw [LazyHeap.step_opened, LazyHeap.blockAt_bind, translates.named address rfl]
    have stored : LazyHeap.write address start bytes (.opened system config g) =
        LazyHeap.lift system config
          (Heap.writePayload (address - g.memory.base) start bytes g) := by
      rw [translates.written _ _ _ rfl]
      simp only [LazyHeap.write, bind, EStateM.bind] at given ⊢
      rw [given]
      cases Heap.setBytes (address - g.memory.base + start) bytes g <;> rfl
    simp only [run, Request.run, bind, EStateM.bind, stored]
    cases Heap.writePayload (address - g.memory.base) start bytes g <;> rfl

theorem run_new (reserved : Heap.reserve system config #[] = .ok (.ok h) entries)
    (comes : Comes base call r) (fresh : call.target? = none) :
    call.run (.new system config) = call.run (.opened system config h) := by
  cases comes with
  | alloc served =>
    simp only [run, LazyHeap.alloc, LazyHeap.guarded, if_pos served, LazyHeap.withHeap_new reserved]
  | allocZeroed served =>
    simp only [run, LazyHeap.allocZeroed, LazyHeap.guarded, if_pos served,
      LazyHeap.withHeap_new reserved]
  | realloc _ => cases fresh
  | dealloc => cases fresh
  | write => cases fresh

theorem run_failed {error : HeapError}
    (failed : Heap.reserve system config #[] = .ok (.error error) #[])
    (fresh : call.target? = none) :
    call.run (.new system config) = .ok none (.new system config) := by
  cases call with
  | alloc layout =>
    simp only [run, LazyHeap.alloc, LazyHeap.guarded]
    split
    · exact LazyHeap.withHeap_failed failed _
    · rfl
  | allocZeroed layout =>
    simp only [run, LazyHeap.allocZeroed, LazyHeap.guarded]
    split
    · exact LazyHeap.withHeap_failed failed _
    · rfl
  | realloc address layout size => cases fresh
  | dealloc address => cases fresh
  | write address start bytes => cases fresh

theorem run_overaligned {layout : Layout} (asks : call.layout? = some layout)
    (strict : Block.alignment < layout.align) (l : LazyHeap) : call.run l = .ok none l := by
  have strict := Nat.not_le.mpr strict
  cases call <;> cases asks <;>
    simp only [run, LazyHeap.alloc, LazyHeap.allocZeroed, LazyHeap.realloc, LazyHeap.guarded,
      if_neg strict] <;> rfl

theorem settle_overaligned {layout : Layout} (asks : call.layout? = some layout)
    (strict : Block.alignment < layout.align) (live : List Holding) :
    call.settle live none = live := by
  cases call <;> cases asks
  · rfl
  · rfl
  · exact if_neg fun ⟨_, served⟩ => Nat.not_le.mpr strict served

end Call

end SegregatedFit
