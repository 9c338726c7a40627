import SegregatedFit.Heap.Growth
import SegregatedFit.Proofs.Carving
import SegregatedFit.Proofs.Rounding

namespace SegregatedFit

namespace View

def add (v : View) (b size : Nat) : View :=
  { v with spans := v.spans ++ [Span.of b size false] }.note (.extended size b)

def grow (v : View) (b size : Nat) : View :=
  (v.add b size).coalesce v.spans (.of b size false) []

@[simp] theorem ends_grow (v : View) (b size : Nat) : (v.grow b size).ends = v.ends :=
  ends_coalesce ..

def added (v : View) (b size : Nat) : Span := coalesced v.spans (.of b size false) []

def opened (size chunk : Nat) (journal : Array Entry) : View :=
  (grow ⟨[], fun _ => [], fun stop => stop = size + 8, journal⟩ (size + 16) chunk).note
    (.initialised (size + 8) (size + 16 + chunk))

theorem used_add {v : View} {b size : Nat}
    (unused : (Span.of b size false).tag.allocated = false) : (v.add b size).used = v.used := by
  have unused : (Tag.of size false).allocated = false := unused
  simp [used, add, note, unused]

theorem Settled.loose_add {v : View} {b size : Nat} (settled : v.Settled)
    (unused : (Span.of b size false).tag.allocated = false)
    (unlisted : ∀ cls, b ∉ v.files cls) :
    (v.add b size).Loose v.spans (.of b size false) [] where
  split := rfl
  unused := unused
  unlisted := unlisted
  filed y member free := settled.filed y (by simpa using member) free
  left_apart := settled.apart
  right_apart := .nil

end View

namespace Heap

variable {A : Type} [Arena A] {h h' : Heap A} {v : View} {n : Nat}

theorem extendArena_of_admitted (admitted : Arena.admits h.memory n = .ok true) :
    extendArena n h = .ok (some (Memory.size h.memory))
      { h with memory := Arena.extend h.memory n } := by
  simp only [extendArena]
  rw [bind_of_ok memorySize_apply, query_bind, admitted]
  rfl

theorem extendArena_of_fault {fault : Fault} (failed : Arena.admits h.memory n = .error fault) :
    extendArena n h = .error fault h := by
  simp only [extendArena]
  rw [bind_of_ok memorySize_apply, query_bind, failed]

theorem extendArena_of_refused (refused : Arena.admits h.memory n = .ok false) :
    extendArena n h = .ok none h := by
  simp only [extendArena]
  rw [bind_of_ok memorySize_apply, query_bind, refused]
  rfl

def extended (m : A) (n : Nat) : A :=
  Memory.writeNat
    (Block.retag (Arena.extend m n) (Memory.size m) n (Tag.of n false))
    (Memory.size m + n - 4) 4 (Tag.of 0 true).word.toNat

theorem size_extended {m : A} (admitted : Arena.admits m n = .ok true) :
    Memory.size (extended m n) = Memory.size m + n := by
  simp [extended, Arena.size_extend m n admitted]

theorem byte_extended {m : A} {i : Nat} (admitted : Arena.admits m n = .ok true)
    (front : 4 ≤ Memory.size m) (room : 8 ≤ n) (old : i + 4 < Memory.size m) :
    Memory.byte (extended m n) i = Memory.byte m i := by
  have size := Arena.size_extend m n admitted
  rw [extended, Memory.byte_writeNat_outside _ _ _ _ _ (by simp; omega) (by omega),
    Block.byte_retag front (by omega) room (by omega), Arena.byte_extend m n i (by omega)]

theorem written_extended {m : A} (admitted : Arena.admits m n = .ok true)
    (front : 4 ≤ Memory.size m) (room : 8 ≤ n) (divides : n % 8 = 0) (fits : n ≤ Tag.maxSize) :
    (Span.of (Memory.size m) n false).Written (extended m n) := by
  have size := Arena.size_extend m n admitted
  have span_size : (Span.of (Memory.size m) n false).tag.size = n := Tag.size_of false fits divides
  have written : (Span.of (Memory.size m) n false).Written
      (Block.retag (Arena.extend m n) (Memory.size m) n (Tag.of n false)) :=
    Span.written_retag false front (by omega) room fits divides
  refine written.of_same (by omega) (by simp [extended]) fun i tagged => ?_
  simp only [Span.InTags, span_size, Span.block_of] at tagged
  exact Memory.byte_writeNat_outside _ _ _ _ _ (by simp; omega) (by omega)

theorem epilogue_extended {m : A} (admitted : Arena.admits m n = .ok true) (room : 8 ≤ n) :
    Block.tag (extended m n) (Memory.size m + n) = .ok (Tag.of 0 true) := by
  have size := Arena.size_extend m n admitted
  exact Block.tag_eq_ok.mpr ⟨by omega, Block.tagAt_written (by simp; omega)⟩

theorem extended_chained (shown : h.Shows v) (admitted : Arena.admits h.memory n = .ok true)
    (room : 16 ≤ n) (divides : n % 8 = 0) (fits : n ≤ Tag.maxSize) :
    Chained (extended h.memory n) h.prologue
      (v.spans ++ [.of (Memory.size h.memory) n false]) := by
  have size := size_extended (m := h.memory) admitted
  have ends := shown.chained.end_ge
  have span_size : (Span.of (Memory.size h.memory) n false).tag.size = n :=
    Tag.size_of false fits divides
  have same : ∀ i, i + 4 < Memory.size h.memory →
      Memory.byte (extended h.memory n) i = Memory.byte h.memory i := fun i old =>
    byte_extended admitted (by omega) (by omega) old
  constructor
  · refine shown.chained.sentinel.of_same (Nat.le_of_eq Tag.size_sentinel.symm) (by omega)
      fun i tagged => same i ?_
    simp only [Span.InTags, Span.block_of, Span.tag_of, Tag.size_sentinel] at tagged
    omega
  · rw [size]
    exact shown.chained.tiles.append ⟨rfl, by rw [span_size]; rfl⟩
  · intro x member
    rcases List.mem_append.mp member with old | new
    · have bounds := shown.within old
      have eight := shown.room_eight x old
      refine (shown.chained.written x old).of_same eight (by omega) fun i tagged => same i ?_
      unfold Span.InTags at tagged
      omega
    · rw [List.mem_singleton.mp new]
      exact written_extended admitted (by omega) (by omega) divides fits
  · refine ⟨Tag.of 0 true, ?_, by decide, by decide⟩
    rw [size]
    exact epilogue_extended admitted (by omega)

theorem extended_filed (shown : h.Shows v) (admitted : Arena.admits h.memory n = .ok true)
    (room : 8 ≤ n) : Filed (extended h.memory n) h.lists v.ends v.files := by
  have size := size_extended (m := h.memory) admitted
  have ends := shown.chained.end_ge
  have same : ∀ i, i + 4 < Memory.size h.memory →
      Memory.byte (extended h.memory n) i = Memory.byte h.memory i := fun i old =>
    byte_extended admitted (by omega) room old
  apply shown.filed.of_same (by omega)
  · intro cls c listed i _ _
    obtain ⟨x, member, rfl, _⟩ := shown.listed cls c listed
    have := shown.within member
    have := shown.room x member
    exact same i (by omega)
  · intro stop ending i _ _
    have := shown.ends stop ending
    exact same i (by omega)

theorem extended_shows (shown : h.Shows v) (admitted : Arena.admits h.memory n = .ok true)
    (room : 16 ≤ n) (divides : n % 8 = 0) (fits : n ≤ Tag.maxSize) :
    ({ h with memory := extended h.memory n } : Heap A).Shows
      { v with spans := v.spans ++ [.of (Memory.size h.memory) n false] } where
  chained := extended_chained shown admitted room divides fits
  room x member := by
    rcases List.mem_append.mp member with old | new
    · exact shown.room x old
    · rw [List.mem_singleton.mp new, Span.tag_of, Tag.size_of false fits divides]
      exact room
  prologue_aligned := shown.prologue_aligned
  filed := show Filed (extended h.memory n) h.lists v.ends v.files from
    extended_filed shown admitted (by omega)
  ends stop ending := by
    have := shown.ends stop ending
    dsimp only
    rw [size_extended admitted]
    omega
  clear x member unused := by
    rcases List.mem_append.mp member with old | new
    · exact shown.clear x old unused
    · intro stop ending
      have := shown.ends stop ending
      rw [List.mem_singleton.mp new, Span.block_of]
      omega
  listed cls b listed := by
    obtain ⟨x, member, rest⟩ := shown.listed cls b listed
    exact ⟨x, List.mem_append_left _ member, rest⟩
  terminator := shown.terminator
  journal := shown.journal

/-- Growth by `n` bytes is refused: no tag could hold the heap, or the arena does not admit it. -/
def Refused (m : A) (n : Nat) : Prop :=
  Tag.maxSize < Memory.size m + n ∨ Arena.admits m n = .ok false

theorem grow_of_refused {bytes size : Nat} (rounded : roundUp bytes Block.alignment = .ok size)
    (refused : Refused h.memory size) :
    grow bytes h = .ok (.error (.arenaExhausted size (Memory.size h.memory)))
      { h with journal := h.journal.push (.exhausted (Memory.size h.memory) size) } := by
  simp only [grow, lift_bind, rounded]
  rw [bind_of_ok memorySize_apply]
  by_cases fits : Memory.size h.memory + size ≤ Tag.maxSize
  · have refused : Arena.admits h.memory size = .ok false := by
      rcases refused with large | refused
      · omega
      · exact refused
    rw [if_pos fits, bind_of_ok (extendArena_of_refused refused)]
    exact bind_of_ok (record_apply _)
  · rw [if_neg fits, pure_bind]
    exact bind_of_ok (record_apply _)

theorem grow_refused {bytes : Nat} (shown : h.Shows v) (divides : bytes % 8 = 0)
    (small : bytes ≤ Tag.maxSize) (refused : Refused h.memory bytes) :
    ∃ h', grow bytes h = .ok (.error (.arenaExhausted bytes (Memory.size h.memory))) h' ∧
      h'.Shows (v.note (.exhausted (Memory.size h.memory) bytes)) ∧ h.Keeps h' fun _ => False := by
  have limit : Tag.maxSize + 8 < offsetLimit := by decide
  have rounded : roundUp bytes Block.alignment = .ok bytes :=
    roundUp_of_divides divides (by omega)
  obtain ⟨h', ran, shown', keeps⟩ :=
    record_shows shown (.exhausted (Memory.size h.memory) bytes)
  refine ⟨h', ?_, shown', keeps⟩
  rw [record_apply] at ran
  cases ran
  exact grow_of_refused rounded refused

/-- Growing comes down to merging the new block. -/
theorem grow_of_admitted {bytes : Nat} (front : 4 ≤ Memory.size h.memory) (room : 8 ≤ bytes)
    (divides : bytes % 8 = 0) (fits : Memory.size h.memory + bytes ≤ Tag.maxSize)
    (admitted : Arena.admits h.memory bytes = .ok true) :
    grow bytes h = (do
      record (.extended bytes (Memory.size h.memory))
      let b ← coalesce (Memory.size h.memory)
      pure (.ok b) : HeapM A (Except HeapError Block))
        { h with memory := extended h.memory bytes } := by
  have limit : Tag.maxSize + 8 < offsetLimit := by decide
  have size := Arena.size_extend h.memory bytes admitted
  have rounded : roundUp bytes Block.alignment = .ok bytes :=
    roundUp_of_divides divides (by omega)
  have next : Block.next (Block.retag (Arena.extend h.memory bytes) (Memory.size h.memory) bytes
      (Tag.of bytes false)) (Memory.size h.memory) = .ok (Memory.size h.memory + bytes) :=
    Block.next_retag false front (by omega) (by omega) (by omega) divides (by omega)
  have header : Block.headerOffset (Memory.size h.memory + bytes) =
      .ok (Memory.size h.memory + bytes - 4) :=
    minus_of_le (by simp only [Tag.bytes]; omega)
  simp only [grow, lift_bind, rounded]
  rw [bind_of_ok memorySize_apply, if_pos fits, bind_of_ok (extendArena_of_admitted admitted)]
  refine (bind_of_ok (setTags_of_inside front (by omega) (by dsimp only; omega) (by omega)
    (by omega))).trans ?_
  simp only [query_bind, next, lift_bind, header, Tag.pack_eq_of true (Nat.zero_le _), setTag]
  exact bind_of_ok (setNat_of_inside (by simp [Tag.bytes]; omega))

theorem Shows.end_unlisted (shown : h.Shows v) (cls : SizeClass) :
    Memory.size h.memory ∉ v.files cls := by
  intro listed
  obtain ⟨x, member, here, _⟩ := shown.listed cls _ listed
  have := shown.within member
  have := shown.room x member
  omega

/-- What growth by `n` bytes leaves alone: all in front of the old epilogue but what it is said to
change. -/
structure Extends (h h' : Heap A) (n : Nat) (changed : Nat → Prop) : Prop where
  size : Memory.size h'.memory = Memory.size h.memory + n
  byte : ∀ i, i + 4 < Memory.size h.memory → ¬changed i →
    Memory.byte h'.memory i = Memory.byte h.memory i
  prologue : h'.prologue = h.prologue
  config : h'.config = h.config

theorem grow_extends {bytes : Nat} (shown : h.Shows v) (settled : v.Settled) (room : 16 ≤ bytes)
    (divides : bytes % 8 = 0) (fits : Memory.size h.memory + bytes ≤ Tag.maxSize)
    (admitted : Arena.admits h.memory bytes = .ok true) :
    ∃ h', grow bytes h = .ok (.ok (v.added (Memory.size h.memory) bytes).block) h' ∧
      h'.Shows (v.grow (Memory.size h.memory) bytes) ∧
      (v.grow (Memory.size h.memory) bytes).Settled ∧
      h.Extends h' bytes (Marked (v.grow (Memory.size h.memory) bytes).spans) ∧
      (v.add (Memory.size h.memory) bytes).Loose v.spans (.of (Memory.size h.memory) bytes false)
        [] ∧
      mergedSize v.spans (.of (Memory.size h.memory) bytes false) [] ≤ Tag.maxSize := by
  have front := shown.chained.front
  have ends := shown.chained.end_ge
  have limit : Tag.maxSize < offsetLimit := by decide
  have size := size_extended (m := h.memory) admitted
  have unused : (Span.of (Memory.size h.memory) bytes false).tag.allocated = false :=
    Tag.allocated_of false (by omega) divides
  have loose := settled.loose_add unused shown.end_unlisted
  obtain ⟨h₁, ran₁, shown₁, keeps₁⟩ := record_shows
    (extended_shows shown admitted room divides (by omega))
    (.extended bytes (Memory.size h.memory))
  have shown₁ : h₁.Shows (v.add (Memory.size h.memory) bytes) := shown₁
  have size₁ : Memory.size h₁.memory = Memory.size h.memory + bytes := keeps₁.size.trans size
  have total := shown₁.merged_fits (by omega) loose
  obtain ⟨h₂, ran₂, shown₂, keeps₂⟩ := coalesce_shows shown₁ (by omega) total loose
  have ran : grow bytes h = .ok (.ok (v.added (Memory.size h.memory) bytes).block) h₂ := by
    rw [grow_of_admitted (by omega) (by omega) divides fits admitted, bind_of_ok ran₁]
    exact bind_of_ok ran₂
  refine ⟨h₂, ran, shown₂, shown₁.settled_coalesce loose, ?_, loose, total⟩
  constructor
  · exact keeps₂.size.trans size₁
  · intro i old outside
    calc
      Memory.byte h₂.memory i = Memory.byte h₁.memory i := keeps₂.byte i outside
      _ = Memory.byte (extended h.memory bytes) i := keeps₁.byte i not_false
      _ = Memory.byte h.memory i := byte_extended admitted (by omega) (by omega) old
  · exact keeps₂.prologue.trans keeps₁.prologue
  · exact keeps₂.config.trans keeps₁.config

theorem grow_admitted {bytes : Nat} (shown : h.Shows v) (settled : v.Settled) (room : 16 ≤ bytes)
    (divides : bytes % 8 = 0) (fits : Memory.size h.memory + bytes ≤ Tag.maxSize)
    (admitted : Arena.admits h.memory bytes = .ok true) :
    ∃ h', grow bytes h = .ok (.ok (v.added (Memory.size h.memory) bytes).block) h' ∧
      h'.Shows (v.grow (Memory.size h.memory) bytes) ∧
      (v.grow (Memory.size h.memory) bytes).Settled ∧
      (v.grow (Memory.size h.memory) bytes).used = v.used ∧
      Memory.size h'.memory = Memory.size h.memory + bytes ∧ h.Spares h' v.used ∧
      v.added (Memory.size h.memory) bytes ∈ (v.grow (Memory.size h.memory) bytes).spans ∧
      (v.added (Memory.size h.memory) bytes).tag.allocated = false ∧
      bytes ≤ (v.added (Memory.size h.memory) bytes).tag.size := by
  have ends := shown.chained.end_ge
  obtain ⟨h', ran, shown', settled', grown, loose, total⟩ :=
    grow_extends shown settled room divides fits admitted
  have span_size : (Tag.of bytes false).size = bytes := Tag.size_of false (by omega) divides
  have same_used : (v.grow (Memory.size h.memory) bytes).used = v.used := by
    calc
      (v.grow (Memory.size h.memory) bytes).used = (v.add (Memory.size h.memory) bytes).used :=
        loose.used_coalesce total
      _ = v.used := View.used_add loose.unused
  have spares : h.Spares h' v.used := by
    have size := grown.size
    refine ⟨by omega, ?_, ?_, grown.prologue, grown.config⟩
    · intro y used i payload
      have bounds := shown.within (View.mem_of_used used)
      have old : i + 4 < Memory.size h.memory := by
        unfold Span.Payload at payload
        omega
      rw [← same_used] at used
      exact grown.byte i old (shown'.not_marked used (Span.covers_of_payload payload))
    · intro i low
      apply grown.byte i (by omega)
      intro marked
      have behind := shown'.marked_behind marked
      rw [grown.prologue] at behind
      omega
  unfold View.added
  refine ⟨h', ran, shown', settled', same_used, grown.size, spares, ?_,
    coalesced_free loose.unused total, ?_⟩
  · unfold View.grow
    rw [loose.coalesce_spans]
    simp
  · rw [coalesced_size total]
    simp [mergedSize, merged, span_size]
    omega

theorem admission (h : Heap A) (bytes : Nat) :
    Refused h.memory bytes ∨
      Memory.size h.memory + bytes ≤ Tag.maxSize ∧ Arena.admits h.memory bytes = .ok true := by
  by_cases fits : Memory.size h.memory + bytes ≤ Tag.maxSize
  · obtain ⟨answer, defined⟩ := Arena.admits_defined h.memory bytes
      (Nat.lt_of_le_of_lt fits (by decide))
    cases answer with
    | false => exact .inl (.inr defined)
    | true => exact .inr ⟨fits, defined⟩
  · exact .inl (.inl (by omega))

section Creation

variable {arena : A} {config : Config} {journal entries : Array Entry}

def sentinels (arena : A) : A :=
  let start := Memory.size arena
  Memory.writeNat (Memory.writeNat (Memory.writeNat (Memory.writeNat (Arena.extend arena 16)
    start 4 0) (start + 4) 4 (Tag.of 8 true).word.toNat)
    (start + 8) 4 (Tag.of 8 true).word.toNat) (start + 12) 4 (Tag.of 0 true).word.toNat

theorem size_sentinels (admitted : Arena.admits arena 16 = .ok true) :
    Memory.size (sentinels arena) = Memory.size arena + 16 := by
  simp [sentinels, Arena.size_extend arena 16 admitted]

def empty (arena : A) (config : Config) (journal : Array Entry) : Heap A where
  memory := sentinels arena
  lists := .empty (Memory.size arena + 8)
  prologue := Memory.size arena + 8
  config := config
  journal := journal

theorem sentinel_written (admitted : Arena.admits arena 16 = .ok true) :
    Block.tag (sentinels arena) (Memory.size arena + 8) = .ok (Tag.of 8 true) ∧
      Block.tagAt (sentinels arena) (Memory.size arena + 8) = .ok (Tag.of 8 true) := by
  have size := Arena.size_extend arena 16 admitted
  constructor
  · refine Block.tag_eq_ok.mpr ⟨by omega, ?_⟩
    refine Block.tagAt_of_same (m := Memory.writeNat (Memory.writeNat (Arena.extend arena 16)
      (Memory.size arena) 4 0) (Memory.size arena + 4) 4 (Tag.of 8 true).word.toNat)
      (by simp [sentinels]) ?_ (Block.tagAt_written (by simp; omega))
    intro i low high
    rw [sentinels, Memory.byte_writeNat_outside _ _ _ _ _ (by simp; omega) (by omega),
      Memory.byte_writeNat_outside _ _ _ _ _ (by simp; omega) (by omega)]
  · refine Block.tagAt_of_same (m := Memory.writeNat (Memory.writeNat (Memory.writeNat
      (Arena.extend arena 16) (Memory.size arena) 4 0) (Memory.size arena + 4) 4
      (Tag.of 8 true).word.toNat) (Memory.size arena + 8) 4 (Tag.of 8 true).word.toNat)
      (by simp [sentinels]) ?_ (Block.tagAt_written (by simp; omega))
    intro i low high
    rw [sentinels, Memory.byte_writeNat_outside _ _ _ _ _ (by simp; omega) (by omega)]

theorem epilogue_written (admitted : Arena.admits arena 16 = .ok true) :
    Block.tag (sentinels arena) (Memory.size arena + 16) = .ok (Tag.of 0 true) := by
  have size := Arena.size_extend arena 16 admitted
  exact Block.tag_eq_ok.mpr ⟨by omega, Block.tagAt_written (by simp; omega)⟩

theorem empty_chained (admitted : Arena.admits arena 16 = .ok true) :
    Chained (sentinels arena) (Memory.size arena + 8) [] := by
  obtain ⟨header, footer⟩ := sentinel_written admitted
  have whole := size_sentinels admitted
  constructor
  · refine ⟨header, ?_⟩
    simp only [Span.block_of, Span.tag_of, Tag.size_sentinel]
    exact footer
  · exact whole.symm
  · simp
  · refine ⟨Tag.of 0 true, ?_, by decide, by decide⟩
    rw [whole]
    exact epilogue_written admitted

theorem empty_filed (admitted : Arena.admits arena 16 = .ok true) :
    Filed (sentinels arena) (.empty (Memory.size arena + 8))
      (fun stop => stop = Memory.size arena + 8) fun _ => [] where
  threaded cls := ⟨_, rfl, FreeLists.head_empty _ cls⟩
  nodup := by simp
  free := by simp
  terminator := rfl
  used := by
    rintro stop rfl
    exact ⟨_, (sentinel_written admitted).1, Tag.allocated_sentinel⟩
  apart := by simp
  ends_apart := by simp

theorem empty_shows (admitted : Arena.admits arena 16 = .ok true)
    (aligned : Memory.size arena % 8 = 0) :
    (empty arena config journal).Shows
      ⟨[], fun _ => [], fun stop => stop = Memory.size arena + 8, journal⟩ where
  chained := empty_chained admitted
  room := by simp
  prologue_aligned := by
    simp only [empty]
    omega
  filed := empty_filed admitted
  ends := by
    rintro stop rfl
    simp only [empty, size_sentinels admitted]
    omega
  clear := by simp
  listed := by simp
  terminator := rfl
  journal := rfl

theorem validate_eq_ok : config.validate = .ok () ↔
    config.chunkSize ≠ 0 ∧ config.chunkSize % 8 = 0 ∧ config.chunkSize ≤ Tag.maxSize ∧
      config.maxHeap ≤ Tag.maxSize ∧ 16 + config.chunkSize ≤ config.maxHeap := by
  unfold Config.validate Block.overhead sentinelBytes
  grind

theorem roundUp_chunk (valid : config.validate = .ok ()) :
    roundUp config.chunkSize Block.alignment = .ok config.chunkSize := by
  obtain ⟨_, divides, fits, _⟩ := validate_eq_ok.mp valid
  have limit : Tag.maxSize + 8 < offsetLimit := by decide
  exact roundUp_of_divides divides (by omega)

theorem initialise_of_admitted (valid : config.validate = .ok ())
    (admitted : Arena.admits arena 16 = .ok true) (aligned : Memory.size arena % 8 = 0) :
    initialise (bare arena 0 config journal) = (do
      match ← grow config.chunkSize with
      | .error error => return .error error
      | .ok _ =>
        record (.initialised (Memory.size arena + 8) (← memorySize))
        return .ok () : HeapM A (Except HeapError Unit)) (empty arena config journal) := by
  have size := Arena.size_extend arena 16 admitted
  have extended : extendArena sentinelBytes (bare arena 0 config journal) =
      .ok (some (Memory.size arena))
        { bare arena 0 config journal with memory := Arena.extend arena 16 } :=
    extendArena_of_admitted admitted
  have prologue : Tag.pack Block.overhead true = .ok (Tag.of 8 true) := Tag.pack_eq_of true (by decide)
  have epilogue : Tag.pack 0 true = .ok (Tag.of 0 true) := Tag.pack_eq_of true (by decide)
  simp only [initialise, get_bind]
  simp only [bare] at extended ⊢
  simp only [valid]
  rw [bind_of_ok extended]
  simp only [Block.alignment, aligned, ne_eq, not_true_eq_false, if_false]
  rw [bind_of_ok (setNat_of_inside (by simp only [Tag.bytes]; omega))]
  simp only [lift_bind, prologue, setTag]
  rw [bind_of_ok (setNat_of_inside (by simp [Tag.bytes]; omega))]
  simp only [lift_bind]
  rw [bind_of_ok (setNat_of_inside (by simp [Tag.bytes]; omega))]
  simp only [lift_bind, epilogue]
  rw [bind_of_ok (setNat_of_inside (by simp [Tag.bytes]; omega))]
  rfl

theorem admitted_of_initialise {h : Heap A}
    (ran : initialise (bare arena 0 config journal) = .ok (.ok ()) h) :
    config.validate = .ok () ∧ Arena.admits arena 16 = .ok true ∧ Memory.size arena % 8 = 0 := by
  cases valid : config.validate with
  | error reason => simp [initialise, get_bind, bare, valid, pure_apply] at ran
  | ok _ =>
    simp only [initialise, get_bind] at ran
    simp only [show (bare arena 0 config journal).config = config from rfl, valid] at ran
    cases answer : Arena.admits arena 16 with
    | error fault =>
      have failed : extendArena sentinelBytes (bare arena 0 config journal) = .error fault _ :=
        extendArena_of_fault answer
      rw [bind_of_error failed] at ran
      exact absurd ran (by simp)
    | ok admitted =>
      cases admitted with
      | false =>
        have refused : extendArena sentinelBytes (bare arena 0 config journal) = .ok none _ :=
          extendArena_of_refused answer
        rw [bind_of_ok refused] at ran
        simp [bind_of_ok memorySize_apply, pure_apply] at ran
      | true =>
        have extended : extendArena sentinelBytes (bare arena 0 config journal) =
            .ok (some (Memory.size arena)) _ :=
          extendArena_of_admitted answer
        refine ⟨rfl, rfl, ?_⟩
        by_contra misaligned
        rw [bind_of_ok extended] at ran
        simp [Block.alignment, misaligned, pure_apply] at ran

theorem initialise_of_create {h : Heap A}
    (created : create arena config journal = .ok (.ok h) entries) :
    initialise (bare arena 0 config journal) = .ok (.ok ()) h := by
  unfold create EStateM.run at created
  split at created <;> simp_all

/-- A heap that comes into being has one free block, which is settled, and all of its lists end at
the prologue. -/
theorem create_shows {h : Heap A} (created : create arena config journal = .ok (.ok h) entries)
    (chunk : 16 ≤ config.chunkSize) :
    ∃ v, v = View.opened (Memory.size arena) config.chunkSize journal ∧ h.Shows v ∧ v.Settled ∧
      v.used = [] ∧ Memory.size h.memory ≤ Tag.maxSize ∧ h.config = config ∧
      config.validate = .ok () ∧ h.prologue + 8 < Memory.size h.memory ∧
      ∀ stop, v.ends stop → stop = h.prologue := by
  have ran := initialise_of_create created
  obtain ⟨valid, admitted, aligned⟩ := admitted_of_initialise ran
  obtain ⟨_, divides, fits, _⟩ := validate_eq_ok.mp valid
  have shown : (empty arena config journal).Shows _ := empty_shows admitted aligned
  have settled : View.Settled ⟨[], fun _ => [], fun stop => stop = Memory.size arena + 8, journal⟩ :=
    ⟨.nil, by simp⟩
  rw [initialise_of_admitted valid admitted aligned] at ran
  rcases admission (empty arena config journal) config.chunkSize with
    refused | ⟨room, grows⟩
  · obtain ⟨h₁, ran₁, _⟩ := grow_refused shown divides fits refused
    rw [bind_of_ok ran₁] at ran
    simp [pure_apply] at ran
  · obtain ⟨h₁, ran₁, shown₁, settled₁, used, size, spares, _⟩ :=
      grow_admitted shown settled chunk divides room grows
    obtain ⟨h₂, ran₂, shown₂, keeps⟩ :=
      record_shows shown₁ (.initialised (Memory.size arena + 8) (Memory.size h₁.memory))
    rw [bind_of_ok ran₁] at ran
    simp only [] at ran
    rw [bind_of_ok memorySize_apply, bind_of_ok ran₂, pure_apply] at ran
    have same : h₂ = h := by simpa using ran
    subst same
    have size_empty := size_sentinels admitted
    have prologue : h₂.prologue = Memory.size arena + 8 := keeps.prologue.trans spares.prologue
    refine ⟨_, ?_, shown₂, ⟨settled₁.apart, settled₁.filed⟩, used, ?_, ?_, valid, ?_, ?_⟩
    · rw [size]
      dsimp only [empty]
      rw [size_empty]
      rfl
    · rw [keeps.size, size]
      exact room
    · rw [keeps.config, spares.config]
      rfl
    · rw [keeps.size, prologue, size]
      dsimp only [empty]
      omega
    · intro stop ending
      rw [prologue]
      simpa [View.note] using ending

end Creation

end Heap

end SegregatedFit
