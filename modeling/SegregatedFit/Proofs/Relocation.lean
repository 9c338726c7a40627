import SegregatedFit.Proofs.Allocation
import SegregatedFit.Proofs.Creation
import SegregatedFit.Proofs.Shifting

/-!
Heaps do not depend on where they lie. Two heaps are made in arenas with the same room behind their
ends, one of which ends further on. Whatever their clients ask for, with the blocks moved along, the
second heap stays a copy of the first, so far behind it.
-/

namespace SegregatedFit

theorem Usage.foldl_shift (d : Nat) (spans : List Span) (usage : Usage) :
    (spans.map (Span.shift d)).foldl count { usage with heapSize := usage.heapSize + d } =
      { spans.foldl count usage with heapSize := (spans.foldl count usage).heapSize + d } := by
  induction spans generalizing usage with
  | nil => rfl
  | cons x rest ih =>
    have counted : count { usage with heapSize := usage.heapSize + d } (x.shift d) =
        { count usage x with heapSize := (count usage x).heapSize + d } := by
      unfold count
      rw [Span.tag_shift]
      split <;> rfl
    rw [List.map_cons, List.foldl_cons, List.foldl_cons, counted, ih]

namespace Heap

/-- Chain and lists of the second heap are those of the first, `d` bytes further on. The second heap
counts `d` more bytes as its own, and the checker finds nothing in either. -/
structure Displaced {M N : Type} [Memory M] [Memory N] (d : Nat) (h : Heap M) (k : Heap N) :
    Prop where
  chain : ∃ spans, h.chain = .ok spans ∧ k.chain = .ok (spans.map (Span.shift d))
  lists : ∀ limit cls, ∃ blocks, h.list limit cls = .ok blocks ∧
    k.list limit cls = .ok (blocks.map (· + d))
  usage : ∃ usage, h.usage = .ok usage ∧
    k.usage = .ok { usage with heapSize := usage.heapSize + d }
  violations : h.violations = .ok [] ∧ k.violations = .ok []

def creationError (size capacity chunk : Nat) : HeapError :=
  if size + 16 ≤ capacity then .arenaExhausted chunk (size + 16) else .arenaExhausted 16 size

theorem creationError_shift (d size capacity chunk : Nat) :
    creationError (size + d) (capacity + d) chunk =
      (creationError size capacity chunk).shift d := by
  unfold creationError
  by_cases room : size + 16 ≤ capacity
  · rw [if_pos room, if_pos (by omega), HeapError.shift, Nat.add_right_comm]
  · rw [if_neg room, if_neg (by omega), HeapError.shift]

variable {A : Type} [BoundedArena A] {config : Config}

theorem grants_eq (h : Heap A) (n : Nat) : h.terms.grants n =
    decide (Memory.size h.memory + n ≤ min (BoundedArena.capacity h.memory) Tag.maxSize) := by
  by_cases room : Memory.size h.memory + n ≤ min (BoundedArena.capacity h.memory) Tag.maxSize
  · obtain ⟨fits, admitted⟩ :=
      (admission h n).resolve_left fun refused => (refused_iff h.memory n).mp refused room
    rw [grants_eq_true fits admitted, decide_eq_true room]
  · rw [grants_eq_false ((refused_iff h.memory n).mpr room), decide_eq_false room]

theorem byte_sentinels {arena : A} {i : Nat} (admitted : Arena.admits arena 16 = .ok true)
    (old : i < Memory.size arena) :
    Memory.byte (sentinels arena) i = Memory.byte arena i := by
  have size := Arena.size_extend arena 16 admitted
  rw [sentinels, Memory.byte_writeNat_outside _ _ _ _ _ (by simp; omega) (by omega),
    Memory.byte_writeNat_outside _ _ _ _ _ (by simp; omega) (by omega),
    Memory.byte_writeNat_outside _ _ _ _ _ (by simp; omega) (by omega),
    Memory.byte_writeNat_outside _ _ _ _ _ (by omega) (by omega),
    Arena.byte_extend arena 16 i old]

section Creation

variable (arena : A) (valid : config.validate = .ok ()) (aligned : Memory.size arena % 8 = 0)
  (small : BoundedArena.capacity arena ≤ Tag.maxSize) (journal : Array Entry)

include valid aligned small

theorem create_of_room (chunk : 16 ≤ config.chunkSize)
    (room : Memory.size arena + 16 + config.chunkSize ≤ BoundedArena.capacity arena) :
    ∃ h entries, create arena config journal = .ok (.ok h) entries ∧
      ∀ i < Memory.size arena, Memory.byte h.memory i = Memory.byte arena i := by
  obtain ⟨_, divides, _⟩ := validate_eq_ok.mp valid
  have roomy := BoundedArena.roomy aligned (by omega) room
  have size := size_sentinels roomy.sentinels
  obtain ⟨entries, created⟩ := create_fresh roomy (by omega) divides valid journal
  refine ⟨_, entries, created, fun i old => ?_⟩
  rw [fresh, Memory.byte_writeNat_outside _ _ _ _ _ (by rw [size_chunk roomy]; omega) (by omega),
    byte_extended (admits_chunk roomy) (by omega) (by omega) (by omega),
    byte_sentinels roomy.sentinels old]

theorem create_without_room
    (cramped : ¬Memory.size arena + 16 + config.chunkSize ≤ BoundedArena.capacity arena) :
    ∃ entries, create arena config journal = .ok (.error (creationError (Memory.size arena)
      (BoundedArena.capacity arena) config.chunkSize)) entries := by
  obtain ⟨h, initialised⟩ : ∃ h, initialise (bare arena 0 config journal) =
      .ok (.error (creationError (Memory.size arena) (BoundedArena.capacity arena)
        config.chunkSize)) h := by
    unfold creationError
    have limit : Tag.maxSize < 1 <<< 63 := by decide
    by_cases room : Memory.size arena + 16 ≤ BoundedArena.capacity arena
    · have admitted := BoundedArena.admits_of_fits arena 16 room (by omega)
      have size := size_sentinels admitted
      have capacity := (grown_sentinels admitted).capacity_eq
      have refused : Refused (empty arena config journal).memory config.chunkSize :=
        (refused_iff _ _).mpr (by simp only [empty]; omega)
      rw [if_pos room, initialise_of_admitted valid admitted aligned,
        bind_of_ok (grow_of_refused (roundUp_chunk valid) refused)]
      exact ⟨_, by simp only [empty, size]; rfl⟩
    · have refused : Arena.admits arena 16 = .ok false :=
        (BoundedArena.admits_eq_false arena 16).mpr (.inl (by omega))
      have stays : extendArena sentinelBytes (bare arena 0 config journal) = .ok none _ :=
        extendArena_of_refused refused
      rw [if_neg room]
      simp only [initialise, get_bind]
      simp only [show (bare arena 0 config journal).config = config from rfl, valid]
      rw [bind_of_ok stays]
      exact ⟨_, bind_of_ok memorySize_apply⟩
  exact ⟨h.journal, by simp only [create, EStateM.run, initialised]⟩

end Creation

end Heap

namespace Session

variable {A B : Type} [BoundedArena A] [BoundedArena B] {d : Nat} {s s' : Session A}
  {k k' : Session B} {v w : View} {r : Request} {requests : List Request}

/-- Two sessions with views that lie `d` bytes apart, on arenas with as much room left. -/
structure Parallel (d : Nat) (s : Session A) (k : Session B) (v w : View) : Prop where
  one : s.Kept v
  other : k.Kept w
  views : v.Shifted d w
  prologue : k.heap.prologue = s.heap.prologue + d
  config : k.heap.config = s.heap.config
  capacity : BoundedArena.capacity k.heap.memory = BoundedArena.capacity s.heap.memory + d
  small : BoundedArena.capacity k.heap.memory ≤ Tag.maxSize

namespace Parallel

theorem start {arena : A} {region : B} {config : Config} {h : Heap A} {g : Heap B}
    {journal journal' entries entries' : Array Entry}
    (created : Heap.create arena config journal = .ok (.ok h) entries)
    (created' : Heap.create region config journal' = .ok (.ok g) entries')
    (chunk : 16 ≤ config.chunkSize) (size : Memory.size region = Memory.size arena + d)
    (capacity : BoundedArena.capacity region = BoundedArena.capacity arena + d)
    (small : BoundedArena.capacity region ≤ Tag.maxSize) :
    ∃ v w, Parallel d ⟨h, []⟩ ⟨g, []⟩ v w := by
  obtain ⟨_, _, traced⟩ := Heap.of_create_ok created
  obtain ⟨_, _, traced'⟩ := Heap.of_create_ok created'
  have one := (Heap.grown_of_create created).capacity_eq
  have other := (Heap.grown_of_create created').capacity_eq
  refine ⟨_, _, kept_opened created chunk, kept_opened created' chunk, ?_, ?_, ?_, ?_, ?_⟩
  · rw [size]
    exact View.shifted_opened ..
  · rw [traced.prologue, traced'.prologue]
    simp only [Heap.empty]
    omega
  · rw [traced.config, traced'.config]
    rfl
  · rw [one, other, capacity]
  · rw [other]
    exact small

theorem size (parallel : Parallel d s k v w) :
    Memory.size k.heap.memory = Memory.size s.heap.memory + d := by
  have one := parallel.one.sound.shown.chained.tiles.sum_sizes
  have other := parallel.other.sound.shown.chained.tiles.sum_sizes
  have same : (w.spans.map fun x => x.tag.size) = v.spans.map fun x => x.tag.size := by
    simp [parallel.views.spans, Function.comp_def]
  rw [same, parallel.prologue] at other
  omega

theorem terms (parallel : Parallel d s k v w) : k.heap.terms = s.heap.terms.shift d := by
  -- no tag limits either heap before its arena does, and the arenas have as much room left
  have grants : k.heap.terms.grants = s.heap.terms.grants := by
    funext n
    have := parallel.capacity
    have := parallel.small
    have := parallel.size
    rw [Heap.grants_eq, Heap.grants_eq]
    exact decide_eq_decide.mpr (by omega)
  have size : k.heap.terms.size = s.heap.terms.size + d := parallel.size
  have chunk : k.heap.terms.chunk = s.heap.terms.chunk :=
    congrArg Config.chunkSize parallel.config
  calc
    k.heap.terms = ⟨k.heap.terms.size, k.heap.terms.chunk, k.heap.terms.grants⟩ := rfl
    _ = s.heap.terms.shift d := by rw [size, chunk, grants]; rfl

theorem allowed (parallel : Parallel d s k v w) (allowed : r.allowed s = true) :
    (r.shift d).allowed k = true := by
  have used : ∀ b, r.target = some b → ∃ x ∈ v.used, x.block = b ∧ x.shift d ∈ w.used := by
    intro b aimed
    obtain ⟨x, live, here⟩ := parallel.one.used_of_target allowed aimed
    exact ⟨x, live, here, parallel.views.used ▸ List.mem_map_of_mem live⟩
  refine Bool.and_eq_true_iff.mpr ⟨?_, ?_⟩
  · rw [Request.target_shift]
    cases aimed : r.target with
    | none => rfl
    | some b =>
      obtain ⟨x, _, rfl, live⟩ := used b aimed
      have leased := parallel.other.leased.live.mem_iff.mpr (List.mem_map_of_mem live)
      simpa using leased
  · cases r with
    | write b start bytes =>
      obtain ⟨x, live, rfl, live'⟩ := used b rfl
      have fits := (Bool.and_eq_true_iff.mp allowed).2
      have read := parallel.other.sound.read_payloadSize live'
      rw [Span.block_shift, Span.tag_shift] at read
      simp only [Request.fits, parallel.one.sound.read_payloadSize live] at fits
      simpa only [Request.shift, Request.fits, read] using fits
    | _ => rfl

theorem perform (parallel : Parallel d s k v w) (allowed : r.allowed s = true) :
    ∃ answer s' k' v' w', Session.perform r s = .ok answer s' ∧
      Session.perform (r.shift d) k = .ok (Answer.shift d answer) k' ∧ Parallel d s' k' v' w' ∧
      k.heap.Spares k'.heap [] := by
  obtain ⟨answer, views⟩ := (parallel.views.perform s.heap.terms r).elim
  obtain ⟨s', performed, kept, spares⟩ := parallel.one.performs_view allowed rfl
  obtain ⟨k', performed', kept', spares'⟩ :=
    parallel.other.performs_view (parallel.allowed allowed) rfl
  rw [parallel.terms] at performed' kept'
  obtain ⟨_, traced⟩ := traced performed
  obtain ⟨_, traced'⟩ := Session.traced performed'
  have capacity := traced.grown.capacity_eq
  have capacity' := traced'.grown.capacity_eq
  refine ⟨_, s', k', _, _, performed, answer ▸ performed', ⟨kept, kept', views, ?_, ?_, ?_, ?_⟩,
    spares'⟩
  · rw [spares.prologue, spares'.prologue, parallel.prologue]
  · rw [spares.config, spares'.config, parallel.config]
  · rw [capacity, capacity', parallel.capacity]
  · rw [capacity']
    exact parallel.small

theorem play (parallel : Parallel d s k v w) (honoured : honours requests s = true) :
    ∃ answers s' k' v' w', Session.play requests s = .ok answers s' ∧
      Session.play (requests.map (Request.shift d)) k = .ok (answers.map (Answer.shift d)) k' ∧
      Parallel d s' k' v' w' ∧ k.heap.Spares k'.heap [] := by
  induction requests generalizing s k v w with
  | nil => exact ⟨[], s, k, v, w, rfl, rfl, parallel, .refl _ _⟩
  | cons r rest ih =>
    obtain ⟨answer, s₁, k₁, v₁, w₁, performed, performed', parallel₁, spares₁⟩ :=
      parallel.perform (Bool.and_eq_true_iff.mp honoured).1
    obtain ⟨answers, s₂, k₂, v₂, w₂, played, played', parallel₂, spares₂⟩ :=
      ih parallel₁ (honours_tail honoured performed)
    exact ⟨answer :: answers, s₂, k₂, v₂, w₂, play_cons performed played,
      play_cons performed' played', parallel₂, spares₁.trans spares₂⟩

theorem displaced (parallel : Parallel d s k v w) : s.heap.Displaced d k.heap := by
  have one := parallel.one.consistent
  have other := parallel.other.consistent
  refine ⟨⟨v.spans, parallel.one.chain_eq, parallel.views.spans ▸ parallel.other.chain_eq⟩,
    fun limit cls => ⟨_, one.list_eq limit cls, ?_⟩, ?_,
    one.violations_eq parallel.one.small, other.violations_eq parallel.other.small⟩
  · rw [other.list_eq, parallel.views.files, List.map_take]
  · refine ⟨_, parallel.one.usage_eq, ?_⟩
    rw [parallel.other.usage_eq, parallel.size, parallel.views.spans]
    exact congrArg _ (Usage.foldl_shift d v.spans { heapSize := Memory.size s.heap.memory })

end Parallel

/-- A heap behind `d` bytes that were taken from the arena before, whatever is in them, is like one
at the start of an arena that is `d` bytes shorter. It comes into being if the other does, answers
what the other answers and has what the other has, all of it `d` bytes further on, and it leaves the
bytes in front of it alone. By `honours_of_append` it is so after each request. -/
theorem position_independent {config : Config} {limit : Nat} (valid : config.validate = .ok ())
    (chunk : 16 ≤ config.chunkSize) (divides : d % 8 = 0) (fits : limit + d ≤ Tag.maxSize)
    (journal journal' : Array Entry) :
    ∃ taken, Arena.grow (Buffer.new (limit + d)) d = .ok (some taken) ∧
      ∀ arena, Arena.Grown taken [] arena →
        if sentinelBytes + config.chunkSize ≤ limit then
          ∃ h g entries entries',
            Heap.create (Buffer.new limit) config journal = .ok (.ok h) entries ∧
            Heap.create arena config journal' = .ok (.ok g) entries' ∧
            ∀ requests, honours requests ⟨h, []⟩ = true →
              ∃ answers s k, Session.play requests ⟨h, []⟩ = .ok answers s ∧
                Session.play (requests.map (Request.shift d)) ⟨g, []⟩ =
                  .ok (answers.map (Answer.shift d)) k ∧
                s.heap.Displaced d k.heap ∧
                ∀ i < d, Memory.byte k.heap.memory i = Memory.byte arena i
        else
          ∃ error entries entries',
            Heap.create (Buffer.new limit) config journal = .ok (.error error) entries ∧
            Heap.create arena config journal' = .ok (.error (error.shift d)) entries' := by
  have blank : ∀ n, Memory.size (Buffer.new n) = 0 := fun _ => rfl
  have capacity : ∀ n, BoundedArena.capacity (Buffer.new n) = n := fun _ => rfl
  have bounded : Tag.maxSize < 1 <<< 63 := by decide
  have admitted : Arena.admits (Buffer.new (limit + d)) d = .ok true :=
    BoundedArena.admits_of_fits _ _ (by rw [blank, capacity]; omega) (by rw [blank]; omega)
  refine ⟨Arena.extend (Buffer.new (limit + d)) d, ?_, fun arena written => ?_⟩
  · simp only [Arena.grow, admitted]
    rfl
  have grown := (Arena.Grown.refl.extend admitted).trans written
  have size : Memory.size arena = d := by simpa [blank] using grown.size_eq
  have same : BoundedArena.capacity arena = limit + d := grown.capacity_eq
  have aligned : Memory.size arena % 8 = 0 := size ▸ divides
  by_cases room : sentinelBytes + config.chunkSize ≤ limit
  · have room' : 16 + config.chunkSize ≤ limit := room
    rw [if_pos room]
    obtain ⟨h, entries, created, _⟩ := Heap.create_of_room (Buffer.new limit) valid rfl
      (by rw [capacity]; omega) journal chunk (by rw [blank, capacity]; omega)
    obtain ⟨g, entries', created', front⟩ :=
      Heap.create_of_room arena valid aligned (by omega) journal' chunk (by omega)
    have behind : Memory.size arena = Memory.size (Buffer.new limit) + d := by rw [blank]; omega
    obtain ⟨v, w, start⟩ := Parallel.start created created' chunk behind same (by omega)
    refine ⟨h, g, entries, entries', created, created', fun requests honoured => ?_⟩
    obtain ⟨answers, s, k, v', w', played, played', parallel, spares⟩ := start.play honoured
    refine ⟨answers, s, k, played, played', parallel.displaced, fun i low => ?_⟩
    have prologue : g.prologue = h.prologue + d := start.prologue
    have before : i < g.prologue + 4 := by omega
    exact (spares.front i before).trans (front i (size ▸ low))
  · have cramped : ¬16 + config.chunkSize ≤ limit := room
    rw [if_neg room]
    obtain ⟨entries, refused⟩ := Heap.create_without_room (Buffer.new limit) valid rfl
      (by rw [capacity]; omega) journal (by rw [blank, capacity]; omega)
    obtain ⟨entries', refused'⟩ :=
      Heap.create_without_room arena valid aligned (by omega) journal' (by omega)
    have shifted := Heap.creationError_shift d 0 limit config.chunkSize
    rw [Nat.zero_add] at shifted
    rw [size, same, shifted] at refused'
    exact ⟨_, entries, entries', refused, refused'⟩

theorem errands_displaced :
    (⟨128, 32⟩ : Config).validate = .ok () ∧ 16 ≤ (⟨128, 32⟩ : Config).chunkSize ∧ 24 % 8 = 0 ∧
      96 + 24 ≤ Tag.maxSize ∧
      ∃ taken, Arena.grow (Buffer.new (96 + 24)) 24 = .ok (some taken) ∧
        Arena.Grown taken [] taken ∧
        ∃ h g entries entries', Heap.create (Buffer.new 96) ⟨128, 32⟩ #[] = .ok (.ok h) entries ∧
          Heap.create taken ⟨128, 32⟩ #[] = .ok (.ok g) entries' ∧
          honours errands ⟨h, []⟩ = true ∧
          ∃ answers s k, Session.play errands ⟨h, []⟩ = .ok answers s ∧
            Session.play (errands.map (Request.shift 24)) ⟨g, []⟩ =
              .ok (answers.map (Answer.shift 24)) k ∧
            s.heap.Displaced 24 k.heap ∧
            ∀ i < 24, Memory.byte k.heap.memory i = Memory.byte taken i := by
  have valid : (⟨128, 32⟩ : Config).validate = .ok () := rfl
  have fits : 96 + 24 ≤ Tag.maxSize := by decide
  obtain ⟨taken, grown, apart⟩ := position_independent valid (by decide) rfl fits #[] #[]
  have made := apart taken .refl
  rw [if_pos (by decide)] at made
  obtain ⟨h, g, entries, entries', created, created', alike⟩ := made
  obtain ⟨h', _, again, honoured⟩ := errands_honoured
  rw [created] at again
  cases again
  exact ⟨valid, by decide, rfl, fits, taken, grown, .refl, h, g, entries, entries', created,
    created', honoured, alike errands honoured⟩

end Session

end SegregatedFit
