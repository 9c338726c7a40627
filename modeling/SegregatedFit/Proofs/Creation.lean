import SegregatedFit.Proofs.Damage
import SegregatedFit.Proofs.Diagnostics
import SegregatedFit.Proofs.Effects
import SegregatedFit.Proofs.Guarantees

/-!
The heap that a valid configuration leads to. It has one free block, the first chunk. A chunk of
eight bytes is valid too, but the link of its block lies where its footer and the epilogue are.
-/

namespace SegregatedFit

/-- An arena that has room for a heap and its first chunk: its end is aligned, and it admits the
sentinels and then, whatever is written to it, the chunk. -/
structure Arena.Roomy {A : Type} [Arena A] (arena : A) (chunk : Nat) : Prop where
  aligned : Memory.size arena % 8 = 0
  fits : Memory.size arena + 16 + chunk ≤ Tag.maxSize
  sentinels : admits arena 16 = .ok true
  chunk : ∀ a, Grown arena [16] a → admits a chunk = .ok true

theorem BoundedArena.roomy {A : Type} [BoundedArena A] {arena : A} {chunk : Nat}
    (aligned : Memory.size arena % 8 = 0) (fits : Memory.size arena + 16 + chunk ≤ Tag.maxSize)
    (room : Memory.size arena + 16 + chunk ≤ capacity arena) : Arena.Roomy arena chunk where
  aligned := aligned
  fits := fits
  sentinels := by
    have limit : Tag.maxSize < 1 <<< 63 := by decide
    exact admits_of_fits arena 16 (by omega) (by omega)
  chunk a grown := by
    have limit : Tag.maxSize < 1 <<< 63 := by decide
    have size : Memory.size a = Memory.size arena + 16 := grown.size_eq
    have same := grown.capacity_eq
    exact admits_of_fits a chunk (by omega) (by omega)

namespace Reservation

variable {system : System} {config : Config} {region : Reservation} {wanted k : Nat}

theorem of_new_ok (granted : new system wanted = .ok (.ok region)) :
    ∃ capacity base, roundUp (max wanted 1) system.pageSize = .ok capacity ∧
      system.reserve capacity = some base ∧ region = .fresh base capacity := by
  obtain ⟨capacity, rounded, granted⟩ := of_bind_eq_ok granted
  cases answer : system.reserve capacity with
  | none => simp [answer, pure, Except.pure] at granted
  | some base =>
    simp [answer, pure, Except.pure] at granted
    exact ⟨capacity, base, rounded, answer, granted.symm⟩

theorem roomy_of_new_ok (valid : config.validate = .ok ()) (pages : system.pageSize = 1 <<< k)
    (granted : new system config.maxHeap = .ok (.ok region)) :
    Arena.Roomy region config.chunkSize := by
  obtain ⟨_, _, _, small, large⟩ := Heap.validate_eq_ok.mp valid
  obtain ⟨capacity, base, rounded, _, rfl⟩ := of_new_ok granted
  have enough : max config.maxHeap 1 ≤ capacity := le_roundUp (pages ▸ rounded)
  have size : Memory.size (fresh base capacity) = 0 := rfl
  have limit : BoundedArena.capacity (fresh base capacity) = capacity := rfl
  exact BoundedArena.roomy (by omega) (by omega) (by omega)

end Reservation

namespace Heap

variable {A : Type} [Arena A] {arena : A} {config : Config} {journal : Array Entry}

def fresh (arena : A) (config : Config) (journal : Array Entry) : Heap A :=
  let prologue := Memory.size arena + 8
  { memory :=
      Memory.writeNat (extended (sentinels arena) config.chunkSize) (prologue + 8) 8 prologue
    lists := (FreeLists.empty prologue).setHead (SizeClass.ofSize config.chunkSize) (prologue + 8)
    prologue := prologue
    config := config
    journal := journal }

/-- The chain is one free block of `size` bytes, which is on the list of its size and on no other.
-/
structure Opened {M : Type} [Memory M] (h : Heap M) (size : Nat) : Prop where
  chain : ∃ t : Tag, h.chain = .ok [⟨h.prologue + 8, t⟩] ∧ t.size = size ∧ t.allocated = false
  list : ∀ limit cls, h.list limit cls =
    .ok (if cls = SizeClass.ofSize size then [h.prologue + 8].take limit else [])

section Fresh

variable (roomy : Arena.Roomy arena config.chunkSize)

include roomy

theorem admits_chunk : Arena.admits (sentinels arena) config.chunkSize = .ok true :=
  roomy.chunk _ (grown_sentinels roomy.sentinels)

theorem size_chunk :
    Memory.size (extended (sentinels arena) config.chunkSize) =
      Memory.size arena + 16 + config.chunkSize := by
  rw [size_extended (admits_chunk roomy), size_sentinels roomy.sentinels]

theorem grown_fresh :
    Arena.Grown arena [16, config.chunkSize] (fresh arena config journal).memory :=
  .write _ _ _ (.write _ _ _ (.write _ _ _ (.write _ _ _
    (.extend (grown_sentinels roomy.sentinels) (admits_chunk roomy)))))

theorem size_fresh (journal : Array Entry) :
    Memory.size (fresh arena config journal).memory =
      Memory.size arena + 16 + config.chunkSize := by
  rw [(grown_fresh roomy).size_eq]
  simp [Nat.add_assoc]

variable (room : 8 ≤ config.chunkSize) (divides : config.chunkSize % 8 = 0)

include room divides

theorem chunk_tags :
    Block.tag (extended (sentinels arena) config.chunkSize) (Memory.size arena + 8) =
      .ok (Tag.of 8 true) ∧
    Block.tagAt (extended (sentinels arena) config.chunkSize) (Memory.size arena + 8) =
      .ok (Tag.of 8 true) ∧
    Block.tag (extended (sentinels arena) config.chunkSize) (Memory.size arena + 16) =
      .ok (Tag.of config.chunkSize false) ∧
    Block.tag (extended (sentinels arena) config.chunkSize)
      (Memory.size arena + 16 + config.chunkSize) = .ok (Tag.of 0 true) := by
  have admitted := admits_chunk roomy
  have fits := roomy.fits
  have start := size_sentinels roomy.sentinels
  have size := size_chunk roomy
  obtain ⟨header, footer⟩ := sentinel_written roomy.sentinels
  have same : ∀ i, i < Memory.size arena + 12 →
      Memory.byte (extended (sentinels arena) config.chunkSize) i =
        Memory.byte (sentinels arena) i := fun i low =>
    byte_extended admitted (by omega) room (by omega)
  have written := written_extended admitted (by omega) room divides (by omega)
  have epilogue := epilogue_extended admitted room
  rw [start] at written epilogue
  refine ⟨?_, ?_, written.header, epilogue⟩
  · exact Block.tag_of_same (by omega) (fun i _ high => same i (by omega)) header
  · exact Block.tagAt_of_same (by omega) (fun i _ high => same i (by omega)) footer

theorem coalesce_chunk {h : Heap A}
    (memory : h.memory = extended (sentinels arena) config.chunkSize) :
    coalesce (Memory.size arena + 16) h = (do
      record (.coalesced (Memory.size arena + 16) true true (Memory.size arena + 16)
        config.chunkSize)
      insert (Memory.size arena + 16)
      return Memory.size arena + 16 : HeapM A Block) h := by
  obtain ⟨header, footer, chunk, epilogue⟩ := chunk_tags roomy room divides
  rw [← memory] at header footer chunk epilogue
  have fits := roomy.fits
  have limit : Tag.maxSize < offsetLimit := by decide
  have chunk_size : (Tag.of config.chunkSize false).size = config.chunkSize :=
    Tag.size_of false (by omega) divides
  have prev : Block.prev h.memory (Memory.size arena + 16) = .ok (Memory.size arena + 8) := by
    rw [Block.prev_of_tagAt (by omega) footer (by rw [Tag.size_sentinel]; omega),
      Tag.size_sentinel]
    rfl
  have next := Block.next_of_tag chunk (by omega)
  rw [chunk_size] at next
  have read := Block.size_of_tag chunk
  rw [chunk_size] at read
  have prev_used : Block.allocated h.memory (Memory.size arena + 8) = .ok true :=
    Block.allocated_of_tag header
  have next_used : Block.allocated h.memory (Memory.size arena + 16 + config.chunkSize) =
      .ok true :=
    Block.allocated_of_tag epilogue
  simp only [coalesce, query_bind, prev, next, prev_used, next_used, read]
  simp

theorem insert_chunk (entries : Array Entry) :
    insert (Memory.size arena + 16) { empty arena config entries with
      memory := extended (sentinels arena) config.chunkSize } =
      .ok () (fresh arena config (entries.push
        (.pushed (SizeClass.ofSize config.chunkSize) (Memory.size arena + 16)))) := by
  obtain ⟨_, _, chunk, _⟩ := chunk_tags roomy room divides
  have size := size_chunk roomy
  have fits := roomy.fits
  rw [insert_eq chunk (by dsimp only; omega), Tag.size_of false (by omega) divides]
  simp only [empty, FreeLists.head_empty]
  rfl

theorem grow_empty (journal : Array Entry) :
    ∃ entries, grow config.chunkSize (empty arena config journal) =
      .ok (.ok (Memory.size arena + 16)) (fresh arena config entries) := by
  have start : Memory.size (empty arena config journal).memory = Memory.size arena + 16 :=
    size_sentinels roomy.sentinels
  have fits := roomy.fits
  have grows := grow_of_admitted (h := empty arena config journal) (by omega) room divides
    (by omega) (admits_chunk roomy)
  rw [start] at grows
  have listed := insert_chunk roomy room divides ((journal.push
    (.extended config.chunkSize (Memory.size arena + 16))).push
    (.coalesced (Memory.size arena + 16) true true (Memory.size arena + 16) config.chunkSize))
  have merges := (coalesce_chunk (h := { empty arena config (journal.push
    (.extended config.chunkSize (Memory.size arena + 16))) with
      memory := extended (sentinels arena) config.chunkSize }) roomy room divides rfl).trans
    ((bind_of_ok (record_apply _)).trans ((bind_of_ok listed).trans (pure_apply _)))
  exact ⟨_, grows.trans ((bind_of_ok (record_apply _)).trans
    ((bind_of_ok merges).trans (pure_apply _)))⟩

theorem create_fresh (valid : config.validate = .ok ()) (journal : Array Entry) :
    ∃ entries, create arena config journal = .ok (.ok (fresh arena config entries)) entries := by
  obtain ⟨entries, grown⟩ := grow_empty roomy room divides journal
  obtain ⟨entries', initialised⟩ : ∃ entries', initialise (bare arena 0 config journal) =
      .ok (.ok ()) (fresh arena config entries') := by
    refine ⟨entries.push (.initialised (Memory.size arena + 8)
      (Memory.size arena + 16 + config.chunkSize)), ?_⟩
    rw [initialise_of_admitted valid roomy.sentinels roomy.aligned, bind_of_ok grown]
    dsimp only
    rw [bind_of_ok memorySize_apply, size_fresh roomy]
    exact (bind_of_ok (record_apply _)).trans (pure_apply _)
  refine ⟨entries', ?_⟩
  simp only [create, EStateM.run, initialised]
  rfl

/-- The link of the first block ends right before the tag of an epilogue, unless the chunk is as
small as it can be. Then the link, which is small itself, has wiped out the epilogue. -/
theorem fresh_tags (journal : Array Entry) :
    Block.tag (fresh arena config journal).memory (Memory.size arena + 8) = .ok (Tag.of 8 true) ∧
    Block.tag (fresh arena config journal).memory (Memory.size arena + 16) =
      .ok (Tag.of config.chunkSize false) ∧
    Block.link (fresh arena config journal).memory (Memory.size arena + 16) =
      .ok (Memory.size arena + 8) ∧
    Block.tag (fresh arena config journal).memory (Memory.size arena + 16 + config.chunkSize) =
      .ok (if 16 ≤ config.chunkSize then Tag.of 0 true else Tag.of 0 false) := by
  obtain ⟨header, _, chunk, epilogue⟩ := chunk_tags roomy room divides
  have size := size_chunk roomy
  have fits := roomy.fits
  have limit : Tag.maxSize < 1 <<< 32 := by decide
  have same : ∀ i, i < Memory.size arena + 16 ∨ Memory.size arena + 24 ≤ i →
      Memory.byte (fresh arena config journal).memory i =
        Memory.byte (extended (sentinels arena) config.chunkSize) i := fun i outside =>
    Memory.byte_writeNat_outside _ _ _ _ _ (by omega) outside
  have same_size := size_fresh roomy journal
  have link : Block.link (fresh arena config journal).memory (Memory.size arena + 16) =
      .ok (Memory.size arena + 8) :=
    Block.link_written (by omega) (by simp only [offsetLimit]; omega)
  refine ⟨?_, ?_, link, ?_⟩
  · exact Block.tag_of_same (by omega) (fun i _ high => same i (by omega)) header
  · exact Block.tag_of_same (by omega) (fun i _ high => same i (by omega)) chunk
  · by_cases large : 16 ≤ config.chunkSize
    · rw [if_pos large]
      exact Block.tag_of_same (by omega) (fun i low _ => same i (by omega)) epilogue
    · have least : config.chunkSize = 8 := by omega
      rw [if_neg large, least]
      refine Block.tag_eq_ok.mpr ⟨by omega, Block.tagAt_eq_ok.mpr ⟨by omega, ?_⟩⟩
      -- the link is short, so the upper half of it is zero
      have whole := (Block.link_eq_ok.mp link).2
      rw [Memory.readNat_add _ _ 4 4] at whole
      have upper : Memory.readNat (fresh arena config journal).memory
          (Memory.size arena + 16 + 4) 4 = 0 := by omega
      rw [show Memory.size arena + 16 + 8 - 4 = Memory.size arena + 16 + 4 by omega, upper]
      rfl

theorem fresh_opened : (fresh arena config journal).Opened config.chunkSize := by
  obtain ⟨header, chunk, link, epilogue⟩ := fresh_tags roomy room divides journal
  have size := size_fresh roomy journal
  have fits := roomy.fits
  have limit : Tag.maxSize < offsetLimit := by decide
  have chunk_size : (Tag.of config.chunkSize false).size = config.chunkSize :=
    Tag.size_of false (by omega) divides
  have unused : (Tag.of config.chunkSize false).allocated = false :=
    Tag.allocated_of false (by omega) divides
  constructor
  · refine ⟨Tag.of config.chunkSize false, ?_, chunk_size, unused⟩
    have first : (fresh arena config journal).firstBlock = .ok (Memory.size arena + 16) :=
      plus_of_lt (show Memory.size arena + 8 + 8 < offsetLimit by omega)
    have tiles : Tiles (Memory.size arena + 16)
        [⟨Memory.size arena + 16, Tag.of config.chunkSize false⟩]
        (Memory.size (fresh arena config journal).memory) :=
      ⟨rfl, by rw [size, chunk_size]; rfl⟩
    simp only [Heap.chain, first, bind, Except.bind, Block.chain]
    refine Block.walk_tiles (by rw [List.length_singleton]; omega) (by omega) (by omega) tiles
      ?_ ?_ ?_
    · exact List.forall_mem_singleton.mpr chunk
    · simpa [chunk_size] using (by omega : 0 < config.chunkSize)
    · rw [size]
      exact ⟨_, epilogue, by split <;> decide⟩
  · intro limit cls
    have used : FreeLists.Used (fresh arena config journal).memory (Memory.size arena + 8) :=
      ⟨_, header, Tag.allocated_sentinel⟩
    simp only [list, fresh, FreeLists.head_setHead, FreeLists.head_empty]
    by_cases here : cls = SizeClass.ofSize config.chunkSize
    · rw [if_pos here, if_pos here]
      have threaded : Threaded (fresh arena config journal).memory
          (Memory.size arena + 8) (Memory.size arena + 16) [Memory.size arena + 16] :=
        ⟨rfl, _, link, rfl⟩
      exact FreeLists.take_threaded limit threaded
        (List.forall_mem_singleton.mpr ⟨_, chunk, unused⟩) used
    · rw [if_neg here, if_neg here]
      have threaded : Threaded (fresh arena config journal).memory
          (Memory.size arena + 8) (Memory.size arena + 8) [] := rfl
      have nothing := FreeLists.take_threaded limit threaded (by simp) used
      rwa [List.take_nil] at nothing

theorem fresh_violations {entries : Array Entry}
    (created : create arena config entries = .ok (.ok (fresh arena config journal)) journal) :
    ∃ found, (fresh arena config journal).violations = .ok found ∧
      (found = [] ↔ 16 ≤ config.chunkSize) := by
  have size := size_fresh roomy journal
  have fits := roomy.fits
  have limit : Tag.maxSize < 1 <<< 63 := by decide
  have prologue : (fresh arena config journal).prologue = Memory.size arena + 8 := rfl
  have bounded : Memory.size (fresh arena config journal).memory < 1 <<< 63 := by omega
  obtain ⟨found, ran⟩ := violations_defined bounded (by omega) (by omega)
  refine ⟨found, ran, ?_, fun large => ?_⟩
  · rintro rfl
    obtain ⟨spans, files, stops, consistent⟩ := consistent_of_clean bounded ran
    obtain ⟨t, read, _, used⟩ := consistent.chained.epilogue
    obtain ⟨_, _, _, epilogue⟩ := fresh_tags roomy room divides journal
    rw [size, epilogue] at read
    by_contra small
    rw [if_neg small] at read
    cases read
    exact absurd used (by decide)
  · obtain ⟨v, kept⟩ := Session.kept_start created large
    have clean := kept.consistent.violations_eq bounded
    exact Except.ok.inj (ran.symm.trans clean)

end Fresh

theorem create_opened (valid : config.validate = .ok ())
    (roomy : Arena.Roomy arena config.chunkSize) (journal : Array Entry) :
    ∃ h entries found, create arena config journal = .ok (.ok h) entries ∧
      h.Opened config.chunkSize ∧ h.violations = .ok found ∧
      (found = [] ↔ 16 ≤ config.chunkSize) := by
  obtain ⟨positive, divides, _⟩ := validate_eq_ok.mp valid
  have room : 8 ≤ config.chunkSize := by omega
  obtain ⟨entries, created⟩ := create_fresh roomy room divides valid journal
  obtain ⟨found, ran, nothing⟩ := fresh_violations roomy room divides created
  exact ⟨_, entries, found, created, fresh_opened roomy room divides, ran, nothing⟩

section Reserving

variable {system : System} {region : Reservation} {k : Nat}

theorem reserve_of_granted (valid : config.validate = .ok ())
    (granted : Reservation.new system config.maxHeap = .ok (.ok region)) (journal : Array Entry) :
    reserve system config journal =
      create region config (journal.push (.reserved region.capacity region.base)) := by
  have acquired : Reservation.acquire system config.maxHeap journal =
      .ok (.ok region) (journal.push (.reserved region.capacity region.base)) := by
    simp only [Reservation.acquire, granted]
  simp only [reserve, valid, bind, EStateM.bind, acquired]

theorem reserve_opened (valid : config.validate = .ok ()) (pages : system.pageSize = 1 <<< k)
    (granted : Reservation.new system config.maxHeap = .ok (.ok region)) (journal : Array Entry) :
    ∃ h entries found, reserve system config journal = .ok (.ok h) entries ∧
      h.Opened config.chunkSize ∧ h.violations = .ok found ∧
      (found = [] ↔ 16 ≤ config.chunkSize) := by
  rw [reserve_of_granted valid granted]
  exact create_opened valid (Reservation.roomy_of_new_ok valid pages granted) _

end Reserving

/-- Every valid configuration leads to a heap, in any arena that has room for it and in a
reservation of its own, and the first chunk is its only block. The heap is consistent exactly if
that chunk has the least size of a block, which not every valid one has. -/
theorem valid_config_opens (valid : config.validate = .ok ()) :
    (∀ {A : Type} [Arena A] (arena : A) (journal : Array Entry),
      Arena.Roomy arena config.chunkSize →
      ∃ h entries found, create arena config journal = .ok (.ok h) entries ∧
        h.Opened config.chunkSize ∧ h.violations = .ok found ∧
        (found = [] ↔ 16 ≤ config.chunkSize)) ∧
    ∀ (system : System) (k : Nat) (region : Reservation) (journal : Array Entry),
      system.pageSize = 1 <<< k → Reservation.new system config.maxHeap = .ok (.ok region) →
      ∃ h entries found, reserve system config journal = .ok (.ok h) entries ∧
        h.Opened config.chunkSize ∧ h.violations = .ok found ∧
        (found = [] ↔ 16 ≤ config.chunkSize) :=
  ⟨fun _ journal roomy => create_opened valid roomy journal,
    fun _ _ _ journal pages granted => reserve_opened valid pages granted journal⟩

theorem sixteen_byte_chunk_opens :
    (⟨64, 16⟩ : Config).validate = .ok () ∧
      (∃ h entries found, create (Buffer.new 64) ⟨64, 16⟩ #[] = .ok (.ok h) entries ∧
        h.Opened 16 ∧ h.violations = .ok found ∧ (found = [] ↔ 16 ≤ 16)) ∧
      ∃ h entries found, reserve .usual ⟨64, 16⟩ #[] = .ok (.ok h) entries ∧
        h.Opened 16 ∧ h.violations = .ok found ∧ (found = [] ↔ 16 ≤ 16) := by
  have valid : (⟨64, 16⟩ : Config).validate = .ok () := rfl
  have roomy : Arena.Roomy (Buffer.new 64) 16 :=
    BoundedArena.roomy (by decide) (by decide) (by decide)
  obtain ⟨created, reserved⟩ := valid_config_opens valid
  exact ⟨valid, created (Buffer.new 64) #[] roomy,
    reserved .usual 12 (.fresh (127 <<< 40) 4096) #[] rfl rfl⟩

/-- Eight bytes are valid, but not enough. -/
theorem eight_byte_chunk_inconsistent :
    (⟨65536, 8⟩ : Config).validate = .ok () ∧
      ∃ h entries, create (Buffer.new 65536) ⟨65536, 8⟩ #[] = .ok (.ok h) entries ∧
        h.violations = .ok [.blockTooSmall 16 8, .malformedEpilogue 24 ⟨0⟩] := by
  have found : (match create (Buffer.new 65536) ⟨65536, 8⟩ #[] with
      | .ok (.ok h) _ =>
        decide (h.violations = .ok [.blockTooSmall 16 8, .malformedEpilogue 24 ⟨0⟩])
      | .ok (.error _) _ => false
      | .error _ _ => false) = true := by
    decide +kernel
  split at found
  · rename_i h entries created
    exact ⟨rfl, h, entries, created, of_decide_eq_true found⟩
  · cases found
  · cases found

end Heap

end SegregatedFit
