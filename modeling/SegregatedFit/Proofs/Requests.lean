import SegregatedFit.Heap.Requests
import SegregatedFit.Proofs.Transitions

/-!
What the requests do. On a sound heap every request answers and leaves a sound heap, the blocks in
use change by the one it is about, and the payloads of all others stay as they were.
-/

namespace SegregatedFit

namespace Heap

variable {A : Type} [Arena A] {h h' : Heap A} {v v' : View} {x : Span} {left right : List Span}
  {wanted size : Nat}

/-- A heap between two requests. -/
structure Sound (h : Heap A) (v : View) : Prop where
  shown : h.Shows v
  settled : v.Settled
  small : Memory.size h.memory ≤ Tag.maxSize
  valid : h.config.validate = .ok ()

theorem Sound.step {spans : List Span} (sound : h.Sound v) (spares : h.Spares h' spans)
    (shown : h'.Shows v') (settled : v'.Settled) (small : Memory.size h'.memory ≤ Tag.maxSize) :
    h'.Sound v' :=
  ⟨shown, settled, small, spares.config ▸ sound.valid⟩

theorem Sound.bounded (sound : h.Sound v) : Memory.size h.memory < offsetLimit :=
  Nat.lt_of_le_of_lt sound.small (by decide)

theorem record_sound (sound : h.Sound v) (entry : Entry) (spans : List Span) :
    ∃ h', record entry h = .ok () h' ∧ h'.Sound (v.note entry) ∧ h.Spares h' spans := by
  obtain ⟨h', ran, shown, keeps⟩ := record_shows sound.shown entry
  have spares : h.Spares h' spans := keeps.spares (fun _ _ _ _ => not_false) fun _ => False.elim
  refine ⟨h', ran, sound.step spares shown ⟨sound.settled.apart, sound.settled.filed⟩ ?_, spares⟩
  rw [keeps.size]
  exact sound.small

theorem blockSizeFor_eq (size : Nat) :
    blockSizeFor size =
      .ok (if (size + 15) / 8 * 8 ≤ Tag.maxSize then .ok (blockSize size)
        else .error (.sizeOverflow size)) := by
  have limit : Tag.maxSize + 16 < offsetLimit := by decide
  have rounded : roundUp? (size + Block.overhead) Block.alignment =
      .ok (if size + 15 < offsetLimit then some ((size + 15) / 8 * 8) else none) :=
    roundUp?_eight (size + 8)
  simp only [blockSizeFor, rounded, bind, Except.bind, pure, Except.pure]
  by_cases past : offsetLimit ≤ size + Block.overhead
  · have : offsetLimit ≤ size + 8 := past
    rw [if_pos past, if_neg (by omega)]
  · rw [if_neg past]
    by_cases near : size + 15 < offsetLimit
    · simp only [if_pos near]
      by_cases large : Tag.maxSize < (size + 15) / 8 * 8
      · rw [if_pos large, if_neg (by omega)]
      · rw [if_neg large, if_pos (by omega)]
        rfl
    · simp only [if_neg near]
      rw [if_neg (by omega)]

theorem Shows.taken_avoids (shown : h.Shows v) (member : x ∈ v.spans)
    (unused : x.tag.allocated = false) (divides : wanted % 8 = 0) (fits : wanted ≤ x.tag.size) :
    v.Avoids (taken x wanted) := by
  have within := (size_taken_bounds divides fits).2
  have here : (taken x wanted).block = x.block := rfl
  intro stop ending
  have := shown.clear x member unused stop ending
  omega

def terms (h : Heap A) : Terms where
  size := Memory.size h.memory
  chunk := h.config.chunkSize
  grants n := decide (Memory.size h.memory + n ≤ Tag.maxSize) &&
    match Arena.admits h.memory n with
    | .ok admitted => admitted
    | .error _ => false

theorem grants_eq_true {n : Nat} (fits : Memory.size h.memory + n ≤ Tag.maxSize)
    (admitted : Arena.admits h.memory n = .ok true) : h.terms.grants n = true := by
  simp [terms, fits, admitted]

theorem grants_eq_false {n : Nat} (refused : Refused h.memory n) :
    h.terms.grants n = false := by
  rcases refused with large | refused
  · simp [terms, Nat.not_le.mpr large]
  · simp [terms, refused]

theorem firstFit_shows (shown : h.Shows v) (small : wanted ≤ Tag.maxSize) :
    firstFit wanted h = .ok (v.fit wanted) h := by
  have bounded : wanted ≤ 1 <<< 63 := Nat.le_trans small (by decide)
  have same : ((SizeClass.all.drop (SizeClass.ofSize wanted)).flatMap v.files).find?
      (fun c => wanted ≤ Block.sizeAt h.memory c) = v.fit wanted := by
    apply List.find?_congr
    intro c member
    obtain ⟨cls, _, listed⟩ := List.mem_flatMap.mp member
    obtain ⟨x, inside, rfl, _⟩ := shown.listed cls c listed
    rw [Block.sizeAt_eq (shown.read inside), View.sizeOf_eq shown.blocks_nodup inside]
  simp only [firstFit, get_bind, query, shown.filed.firstFit_eq bounded, same]

theorem Shows.fit_spec {b : Nat} (shown : h.Shows v) (fit : v.fit wanted = some b) :
    ∃ x ∈ v.spans, x.block = b ∧ x.tag.allocated = false ∧ wanted ≤ x.tag.size := by
  have passed := List.find?_some fit
  obtain ⟨cls, _, listed⟩ := List.mem_flatMap.mp (List.mem_of_find?_eq_some fit)
  obtain ⟨x, member, rfl, unused, _⟩ := shown.listed cls b listed
  rw [View.sizeOf_eq shown.blocks_nodup member] at passed
  exact ⟨x, member, rfl, unused, by simpa using passed⟩

theorem grow_shows {bytes : Nat} {answer : Except HeapError Block} (sound : h.Sound v)
    (room : 16 ≤ bytes) (divides : bytes % 8 = 0) (small : bytes ≤ Tag.maxSize)
    (turn : v.grown h.terms bytes = (answer, v')) :
    ∃ h', grow bytes h = .ok answer h' ∧ h'.Sound v' ∧ v'.used = v.used ∧ h.Spares h' v.used ∧
      ∀ b, answer = .ok b → ∃ x ∈ v'.spans, x.block = b ∧ x.tag.allocated = false ∧
        bytes ≤ x.tag.size := by
  unfold View.grown at turn
  rcases admission h bytes with refused | ⟨fits, admitted⟩
  · rw [grants_eq_false refused, if_neg Bool.false_ne_true] at turn
    cases turn
    obtain ⟨h', ran, shown, keeps⟩ := grow_refused sound.shown divides small refused
    have spares : h.Spares h' v.used := keeps.spares (fun _ _ _ _ => not_false) fun _ => False.elim
    have settled : (v.note (.exhausted (Memory.size h.memory) bytes)).Settled :=
      ⟨sound.settled.apart, sound.settled.filed⟩
    refine ⟨h', ran, sound.step spares shown settled ?_, rfl, spares, ?_⟩
    · rw [keeps.size]
      exact sound.small
    · intro b found
      cases found
  · rw [grants_eq_true fits admitted, if_pos rfl] at turn
    cases turn
    obtain ⟨h', ran, shown, settled, used, size, spares, member, unused, enough⟩ :=
      grow_admitted sound.shown sound.settled room divides fits admitted
    refine ⟨h', ran, sound.step spares shown settled ?_, used, spares, ?_⟩
    · rw [size]
      exact fits
    · intro b found
      cases found
      exact ⟨_, member, rfl, unused, enough⟩

theorem found_shows {found : Except HeapError Block} (sound : h.Sound v) (room : 16 ≤ wanted)
    (divides : wanted % 8 = 0) (small : wanted ≤ Tag.maxSize)
    (turn : v.found h.terms wanted = (found, v')) :
    ∃ h', (∀ next : Except HeapError Block → HeapM A (Except HeapError Block), (do
        match ← firstFit wanted with
        | some b => next (.ok b)
        | none => next (← grow (max wanted h.config.chunkSize))) h = next found h') ∧
      h'.Sound v' ∧ v'.used = v.used ∧ h.Spares h' v.used ∧
      ∀ b, found = .ok b → ∃ x ∈ v'.spans, x.block = b ∧ x.tag.allocated = false ∧
        wanted ≤ x.tag.size := by
  obtain ⟨_, chunk_divides, chunk_fits, _⟩ := validate_eq_ok.mp sound.valid
  have searched := firstFit_shows sound.shown small
  unfold View.found at turn
  cases fit : v.fit wanted with
  | some b =>
    simp only [fit] at turn searched
    cases turn
    refine ⟨h, ?_, sound, rfl, ?_, ?_⟩
    · intro next
      rw [bind_of_ok searched]
    · exact .refl h v.used
    · intro c found
      cases found
      exact sound.shown.fit_spec fit
  | none =>
    simp only [fit] at turn searched
    have bytes_divides : max wanted h.config.chunkSize % 8 = 0 := by
      rcases Nat.le_total wanted h.config.chunkSize with le | le
      · rwa [Nat.max_eq_right le]
      · rwa [Nat.max_eq_left le]
    obtain ⟨h', ran, sound', used, spares, got⟩ :=
      grow_shows sound (by omega) bytes_divides (by omega) turn
    refine ⟨h', ?_, sound', used, spares, fun b answered => ?_⟩
    · intro next
      rw [bind_of_ok searched]
      exact bind_of_ok ran
    · obtain ⟨x, member, here, unused, enough⟩ := got b answered
      exact ⟨x, member, here, unused, by omega⟩

/-- What an allocation answers: a block with room that becomes one of those in use, or nothing. -/
def Grants (v v' : View) (size : Nat) : Except HeapError Block → Prop
  | .ok b => ∃ y, y.block = b ∧ v'.used.Perm (y :: v.used) ∧ size + 8 ≤ y.tag.size ∧ v'.Avoids y
  | .error _ => v'.used = v.used

theorem take_shows (sound : h.Sound v) (member : x ∈ v.spans) (unused : x.tag.allocated = false)
    (room : 16 ≤ wanted) (divides : wanted % 8 = 0) (fits : wanted ≤ x.tag.size) :
    ∃ h', carve x.block wanted h = .ok () h' ∧ h'.Sound (v.take x.block wanted) ∧
      h.Spares h' v.used ∧ (v.take x.block wanted).used.Perm (taken x wanted :: v.used) ∧
      wanted ≤ (taken x wanted).tag.size ∧ (v.take x.block wanted).Avoids (taken x wanted) := by
  obtain ⟨left, right, spans⟩ := List.append_of_mem member
  obtain ⟨h', ran, shown, settled, perm, size, spares⟩ :=
    carve_shows sound.shown sound.bounded sound.settled spans unused room divides fits
  have small : Memory.size h'.memory ≤ Tag.maxSize := size ▸ sound.small
  have viewed : v.take x.block wanted = v.carve left x right wanted :=
    View.around_eq sound.shown.blocks_nodup spans _
  rw [viewed]
  exact ⟨h', ran, sound.step spares shown settled small, spares, perm,
    (size_taken_bounds divides fits).1,
    (sound.shown.taken_avoids member unused divides fits).of_ends (View.ends_carve ..)⟩

def handOut (size wanted : Nat) : Except HeapError Block → HeapM A (Except HeapError Block)
  | .error error => return .error error
  | .ok b => do
    carve b wanted
    record (.allocated size b)
    return .ok b

theorem allocate_shows {answer : Except HeapError Block} (sound : h.Sound v) (size : Nat)
    (turn : v.allocate h.terms size = (answer, v')) :
    ∃ h', allocate size h = .ok answer h' ∧ h'.Sound v' ∧ h.Spares h' v.used ∧
      Grants v v' size answer := by
  have needed := blockSizeFor_eq size
  unfold View.allocate at turn
  by_cases fits : (size + 15) / 8 * 8 ≤ Tag.maxSize
  · rw [if_pos fits] at needed turn
    obtain ⟨room, divides, enough⟩ := blockSize_spec size
    rcases sought : v.found h.terms (blockSize size) with ⟨found, v₁⟩
    rw [sought] at turn
    obtain ⟨h₁, ran₁, sound₁, used₁, spares₁, got⟩ :=
      found_shows sound room divides (blockSize_le fits) sought
    have run : allocate size h = handOut size (blockSize size) found h₁ := by
      simp only [allocate, lift_bind, needed, get_bind, pure_bind]
      exact ran₁ (handOut size (blockSize size))
    rw [run]
    cases found with
    | error error =>
      cases turn
      exact ⟨h₁, rfl, sound₁, spares₁, used₁⟩
    | ok b =>
      cases turn
      obtain ⟨x, member, rfl, unused, large⟩ := got b rfl
      obtain ⟨h₂, ran₂, sound₂, spares₂, perm, taken_size, avoided⟩ :=
        take_shows sound₁ member unused room divides large
      obtain ⟨h₃, ran₃, sound₃, spares₃⟩ := record_sound sound₂ (.allocated size x.block) v.used
      rw [used₁] at spares₂ perm
      refine ⟨h₃, ?_, sound₃, (spares₁.trans spares₂).trans spares₃,
        taken x (blockSize size), rfl, perm, by omega, avoided⟩
      simp only [handOut, bind_of_ok ran₂, bind_of_ok ran₃, pure_apply]
  · rw [if_neg fits] at needed turn
    cases turn
    refine ⟨h, ?_, sound, .refl h v.used, rfl⟩
    simp only [allocate, lift_bind, needed]
    rfl

theorem allocate_sound (sound : h.Sound v) (size : Nat) :
    ∃ answer h' v', v'.ends = v.ends ∧ allocate size h = .ok answer h' ∧ h'.Sound v' ∧
      h.Spares h' v.used ∧ Grants v v' size answer := by
  obtain ⟨h', allocated⟩ := allocate_shows sound size rfl
  exact ⟨_, h', _, v.ends_allocate .., allocated⟩

theorem Shows.used_unlisted (shown : h.Shows v) (live : x ∈ v.used) (cls : SizeClass) :
    x.block ∉ v.files cls := by
  obtain ⟨member, used⟩ := View.mem_used.mp live
  intro listed
  obtain ⟨z, other, same, unused, _⟩ := shown.listed cls _ listed
  rw [shown.eq_of_block other member same, used] at unused
  exact absurd unused (by decide)

theorem Sound.loose_untake (sound : h.Sound v) (live : x ∈ v.used)
    (spans : v.spans = left ++ x :: right) :
    (v.untake left x right).Loose left (.of x.block x.tag.size false) right := by
  have inside := sound.shown.within (View.mem_of_used live)
  have small := sound.small
  have free : (Span.of x.block x.tag.size false).tag.allocated = false :=
    Tag.allocated_of false (by omega) x.tag.size_mod
  have apart := sound.settled.apart
  rw [spans, List.isChain_append, List.isChain_cons] at apart
  refine ⟨rfl, free, fun cls => sound.shown.used_unlisted live cls, ?_, apart.1, apart.2.1.2⟩
  intro y inside unused
  refine sound.settled.filed y ?_ unused
  rw [spans]
  simp only [List.mem_append, List.mem_cons] at inside ⊢
  tauto

theorem Sound.used_untake (sound : h.Sound v) (live : x ∈ v.used)
    (spans : v.spans = left ++ x :: right) :
    v.used.Perm (x :: (v.untake left x right).used) := by
  have used := (View.mem_used.mp live).2
  have free := (sound.loose_untake live spans).unused
  rw [Span.tag_of] at free
  simp [View.used, View.untake, View.note, spans, used, free, List.perm_middle]

theorem Sound.untake_shows (sound : h.Sound v) (live : x ∈ v.used) (avoided : v.Avoids x)
    (spans : v.spans = left ++ x :: right) :
    ∃ h₁ h₂, setTags x.block x.tag.size false h = .ok () h₁ ∧
      record (.released x.block x.tag.size) h₁ = .ok () h₂ ∧
      h₂.Shows (v.untake left x right) ∧ Memory.size h₂.memory = Memory.size h.memory ∧
      h.Spares h₂ (v.untake left x right).used := by
  have shown := sound.shown
  have member := View.mem_of_used live
  have around : v.spans = left ++ [x] ++ right := by simp [spans]
  have unlisted : ∀ z ∈ [x], ∀ cls, z.block ∉ v.files cls := by
    simpa using shown.used_unlisted live
  obtain ⟨h₁, ran₁, shown₁, keeps₁⟩ := setTags_shows false shown sound.bounded around unlisted
    (by simpa using avoided) (b := x.block) (n := x.tag.size) (by simp [Tiles])
    (shown.room x member) x.tag.size_le x.tag.size_mod
  obtain ⟨h₂, ran₂, shown₂, keeps₂⟩ := record_shows shown₁ (.released x.block x.tag.size)
  have shown₂ : h₂.Shows (v.untake left x right) := shown₂
  have keeps := keeps₁.trans (keeps₂.mono fun _ => False.elim)
  have here : Span.of x.block x.tag.size false ∈ (v.untake left x right).spans := by
    simp [View.untake, View.note]
  refine ⟨h₁, h₂, ran₁, ran₂, shown₂, keeps.size, keeps.spares ?_ fun i tagged => ?_⟩
  · intro y kept i payload tagged
    exact shown₂.chained.tiles.not_inTags shown₂.room_eight (View.mem_of_used kept) here payload
      tagged
  · exact keeps.prologue ▸ shown₂.tags_behind here tagged

/-- A block in use in which no list ends becomes free and is merged with its free neighbours. -/
theorem releaseBlock_shows (sound : h.Sound v) (live : x ∈ v.used) (avoided : v.Avoids x) :
    ∃ h', releaseBlock x.block h = .ok () h' ∧ h'.Sound (v.release x.block) ∧
      h.Spares h' (v.release x.block).used ∧ v.used.Perm (x :: (v.release x.block).used) := by
  have member := View.mem_of_used live
  obtain ⟨left, right, spans⟩ := List.append_of_mem member
  have viewed : v.release x.block =
      (v.untake left x right).coalesce left (.of x.block x.tag.size false) right :=
    View.around_eq sound.shown.blocks_nodup spans _
  rw [viewed]
  obtain ⟨h₁, h₂, ran₁, ran₂, shown₂, same_size, first⟩ := sound.untake_shows live avoided spans
  have loose := sound.loose_untake live spans
  have small : Memory.size h₂.memory ≤ Tag.maxSize := same_size ▸ sound.small
  have fits := shown₂.merged_fits small loose
  obtain ⟨h₃, ran₃, shown₃, keeps₃⟩ := coalesce_shows shown₂
    (Nat.lt_of_le_of_lt small (by decide)) fits loose
  have same_used := loose.used_coalesce fits
  rw [← same_used] at first
  have spares := first.trans (shown₃.spares_marked keeps₃)
  refine ⟨h₃, ?_, sound.step spares shown₃ (shown₂.settled_coalesce loose) ?_, spares, ?_⟩
  · simp only [releaseBlock, query_bind, Block.size_of_tag (sound.shown.read member)]
    rw [bind_of_ok ran₁, bind_of_ok ran₂]
    exact discard_of_ok ran₃
  · rw [keeps₃.size]
    exact small
  · rw [same_used]
    exact sound.used_untake live spans

theorem releaseBlock_sound (sound : h.Sound v) (live : x ∈ v.used) (avoided : v.Avoids x) :
    ∃ h' v', v'.ends = v.ends ∧ releaseBlock x.block h = .ok () h' ∧ h'.Sound v' ∧
      h.Spares h' v'.used ∧ v.used.Perm (x :: v'.used) := by
  obtain ⟨h', released⟩ := releaseBlock_shows sound live avoided
  exact ⟨h', _, v.ends_release .., released⟩

section Payloads

variable {m' : A}

theorem Shows.payloads_apart (shown : h.Shows v) {y : Span} (first : x ∈ v.used)
    (second : y ∈ v.used) (different : x.block ≠ y.block) {i : Nat} (payload : x.Payload i) :
    ¬y.Payload i := by
  have := shown.chained.tiles.apart (View.mem_of_used first) (View.mem_of_used second)
    different
  unfold Span.Payload at *
  omega

theorem Sound.payload_written (sound : h.Sound v) (live : x ∈ v.used) (avoided : v.Avoids x)
    (same_size : Memory.size m' = Memory.size h.memory)
    (same : ∀ i, ¬x.Payload i → Memory.byte m' i = Memory.byte h.memory i) :
    ({ h with memory := m' } : Heap A).Sound v := by
  have shown := sound.shown
  obtain ⟨member, used⟩ := View.mem_used.mp live
  have bounds := shown.within member
  refine ⟨⟨?_, shown.room, shown.prologue_aligned, ?_, same_size ▸ shown.ends,
    shown.clear, shown.listed, shown.terminator, shown.journal⟩, sound.settled, ?_, sound.valid⟩
  · exact shown.chained.of_payloads shown.room_eight same_size same fun i payload =>
      ⟨x, member, payload⟩
  · apply shown.filed.of_same (Nat.le_of_eq same_size.symm)
    · intro cls c listed i low high
      obtain ⟨y, other, rfl, unused, _⟩ := shown.listed cls c listed
      have different : x.block ≠ y.block := fun here =>
        shown.used_unlisted live cls (here ▸ listed)
      have := shown.chained.tiles.apart member other different
      have := shown.room y other
      apply same i
      intro payload
      unfold Span.Payload at payload
      omega
    · intro stop ending i _ _
      have := avoided stop ending
      apply same i
      intro payload
      unfold Span.Payload at payload
      omega
  · dsimp only
    rw [same_size]
    exact sound.small

theorem Sound.payload_spares {spans : List Span} (sound : h.Sound v) (live : x ∈ v.used)
    (same_size : Memory.size m' = Memory.size h.memory)
    (same : ∀ i, ¬x.Payload i → Memory.byte m' i = Memory.byte h.memory i)
    (others : ∀ y ∈ spans, y ∈ v.used ∧ y.block ≠ x.block) :
    h.Spares { h with memory := m' } spans := by
  have bounds := sound.shown.within (View.mem_of_used live)
  refine ⟨Nat.le_of_eq same_size.symm, fun y member i payload => same i ?_,
    fun i low => same i fun payload => ?_, rfl, rfl⟩
  · obtain ⟨used, different⟩ := others y member
    exact sound.shown.payloads_apart used live different payload
  · unfold Span.Payload at payload
    omega

end Payloads

theorem Sound.read_payloadSize (sound : h.Sound v) (live : x ∈ v.used) :
    Block.payloadSize h.memory x.block = .ok (x.tag.size - 8) := by
  have member := View.mem_of_used live
  exact Block.payloadSize_of_tag (sound.shown.read member) (sound.shown.room_eight x member)

theorem writePayload_sound {start : Nat} {bytes : ByteArray} (sound : h.Sound v) (live : x ∈ v.used)
    (avoided : v.Avoids x) (fits : start + bytes.size + 8 ≤ x.tag.size) :
    ∃ h', writePayload x.block start bytes h = .ok () h' ∧ h'.Sound v ∧
      (∀ spans, (∀ y ∈ spans, y ∈ v.used ∧ y.block ≠ x.block) → h.Spares h' spans) ∧
      ∀ i, i + 8 < x.tag.size → Memory.byte h'.memory (x.block + i) =
        if start ≤ i ∧ i < start + bytes.size then Bytes.get bytes (i - start)
        else Memory.byte h.memory (x.block + i) := by
  have bounds := sound.shown.within (View.mem_of_used live)
  have written := fun i => Memory.byte_writeRun h.memory (x.block + start) bytes i (by omega)
  have same : ∀ i, ¬x.Payload i → Memory.byte
      (Memory.writeRun h.memory (x.block + start) bytes) i = Memory.byte h.memory i := by
    intro i outside
    unfold Span.Payload at outside
    rw [written, if_neg (by omega)]
  refine ⟨{ h with memory := Memory.writeRun h.memory (x.block + start) bytes }, ?_,
    sound.payload_written live avoided (Memory.size_writeRun ..) same, fun spans others =>
      sound.payload_spares live (Memory.size_writeRun ..) same others, fun i inside => ?_⟩
  · have inside : Memory.ensure h.memory x.block (x.tag.size - 8) = .ok () :=
      Memory.ensure_eq_ok.mpr (by omega)
    have within : start + bytes.size ≤ x.tag.size - 8 := by omega
    simp only [writePayload, query_bind, sound.read_payloadSize live, inside, if_pos within]
    exact setBytes_of_inside (by omega)
  · dsimp only
    rw [written]
    by_cases covered : start ≤ i ∧ i < start + bytes.size
    · rw [if_pos (by omega), if_pos covered]
      congr 1
      omega
    · rw [if_neg (by omega), if_neg covered]

theorem Sound.used_apart (sound : h.Sound v) {y : Span} {rest : List Span}
    (perm : v.used.Perm (y :: rest)) : ∀ z ∈ rest, z ∈ v.used ∧ z.block ≠ y.block := by
  intro z member
  refine ⟨perm.mem_iff.mpr (List.mem_cons_of_mem _ member), fun same => ?_⟩
  have nodup : (v.used.map Span.block).Nodup :=
    sound.shown.blocks_nodup.sublist (List.filter_sublist.map _)
  rw [(perm.map _).nodup_iff, List.map_cons, List.nodup_cons] at nodup
  exact nodup.1 (List.mem_map.mpr ⟨z, member, same⟩)

theorem Sound.clear_eq (sound : h.Sound v) (live : x ∈ v.used) :
    clear x.block h =
      .ok () { h with memory := Memory.fill h.memory x.block (x.tag.size - 8) 0 } := by
  have bounds := sound.shown.within (View.mem_of_used live)
  simp only [clear, query_bind, sound.read_payloadSize live]
  exact fillBytes_of_inside (by omega)

theorem Sound.byte_clear (sound : h.Sound v) (live : x ∈ v.used) (i : Nat) :
    Memory.byte (Memory.fill h.memory x.block (x.tag.size - 8) 0) i =
      if x.block ≤ i ∧ i < x.block + (x.tag.size - 8) then 0 else Memory.byte h.memory i := by
  have bounds := sound.shown.within (View.mem_of_used live)
  exact Memory.byte_fill h.memory x.block (x.tag.size - 8) 0 i (by omega)

section Zeroed

variable {count : Nat} {h₁ h₂ : Heap A}

theorem allocateZeroed_of_large (large : offsetLimit ≤ count * size) :
    allocateZeroed count size h = .ok (.error (.sizeOverflow (offsetLimit - 1))) h := by
  have product : times? count size = none := if_neg (Nat.not_lt.mpr large)
  simp only [allocateZeroed, product]
  rfl

variable (small : count * size < offsetLimit)

include small

theorem allocateZeroed_of_error {error : HeapError}
    (ran : allocate (count * size) h = .ok (.error error) h₁) :
    allocateZeroed count size h = .ok (.error error) h₁ := by
  have product : times? count size = some (count * size) := if_pos small
  simp only [allocateZeroed, product]
  exact bind_of_ok ran

theorem allocateZeroed_of_cleared {b : Nat} (ran : allocate (count * size) h = .ok (.ok b) h₁)
    (cleared : clear b h₁ = .ok () h₂) : allocateZeroed count size h = .ok (.ok b) h₂ := by
  have product : times? count size = some (count * size) := if_pos small
  simp only [allocateZeroed, product]
  rw [bind_of_ok ran]
  exact bind_of_ok cleared

end Zeroed

theorem allocateZeroed_shows {answer : Except HeapError Block} (sound : h.Sound v)
    (count size : Nat) (turn : v.allocateZeroed h.terms count size = (answer, v')) :
    ∃ h', allocateZeroed count size h = .ok answer h' ∧ h'.Sound v' ∧
      h.Spares h' v.used ∧ Grants v v' (count * size) answer ∧
      ∀ y ∈ v'.used, answer = .ok y.block → ∀ i, i + 8 < y.tag.size →
        Memory.byte h'.memory (y.block + i) = 0 := by
  unfold View.allocateZeroed at turn
  by_cases small : count * size < offsetLimit
  · rw [if_pos small] at turn
    obtain ⟨h₁, ran₁, sound₁, spares₁, grants⟩ := allocate_shows sound (count * size) turn
    cases answer with
    | error error =>
      refine ⟨h₁, allocateZeroed_of_error small ran₁, sound₁, spares₁, grants,
        fun _ _ answered => ?_⟩
      cases answered
    | ok b =>
      obtain ⟨y, rfl, perm, enough, avoided⟩ := grants
      have live : y ∈ v'.used := perm.mem_iff.mpr (List.mem_cons_self ..)
      have filled := sound₁.byte_clear live
      have same : ∀ i, ¬y.Payload i → Memory.byte
          (Memory.fill h₁.memory y.block (y.tag.size - 8) 0) i = Memory.byte h₁.memory i := by
        intro i outside
        unfold Span.Payload at outside
        rw [filled, if_neg (by omega)]
      refine ⟨_, allocateZeroed_of_cleared small ran₁ (sound₁.clear_eq live),
        sound₁.payload_written live avoided (Memory.size_fill ..) same, spares₁.trans
          (sound₁.payload_spares live (Memory.size_fill ..) same (sound₁.used_apart perm)),
        ⟨y, rfl, perm, enough, avoided⟩, ?_⟩
      intro z member answered i inside
      have here : y.block = z.block := by simpa using answered
      have same_span := sound₁.shown.eq_of_used live member here
      subst same_span
      dsimp only
      rw [filled, if_pos (by omega)]
  · rw [if_neg small] at turn
    cases turn
    refine ⟨h, allocateZeroed_of_large (Nat.not_lt.mp small), sound, .refl h v.used, rfl,
      fun _ _ answered => ?_⟩
    cases answered

theorem allocateZeroed_sound (sound : h.Sound v) (count size : Nat) :
    ∃ answer h' v', v'.ends = v.ends ∧ allocateZeroed count size h = .ok answer h' ∧
      h'.Sound v' ∧ h.Spares h' v.used ∧ Grants v v' (count * size) answer ∧
      ∀ y ∈ v'.used, answer = .ok y.block → ∀ i, i + 8 < y.tag.size →
        Memory.byte h'.memory (y.block + i) = 0 := by
  obtain ⟨h', allocated⟩ := allocateZeroed_shows sound count size rfl
  exact ⟨_, h', _, v.ends_allocateZeroed .., allocated⟩

theorem copyBytes_sound {y : Span} {count : Nat} (sound : h.Sound v) (source : x ∈ v.used)
    (target : y ∈ v.used) (avoided : v.Avoids y) (held : count + 8 ≤ x.tag.size)
    (fits : count + 8 ≤ y.tag.size) :
    ∃ h', copyBytes x.block y.block count h = .ok () h' ∧ h'.Sound v ∧
      (∀ spans, (∀ z ∈ spans, z ∈ v.used ∧ z.block ≠ y.block) → h.Spares h' spans) ∧
      ∀ i < count, Memory.byte h'.memory (y.block + i) = Memory.byte h.memory (x.block + i) := by
  have from_bounds := sound.shown.within (View.mem_of_used source)
  have to_bounds := sound.shown.within (View.mem_of_used target)
  have written := fun i => Memory.byte_writeRun h.memory y.block
    (Memory.readRun h.memory x.block count) i (by rw [Memory.size_readRun]; omega)
  have same : ∀ i, ¬y.Payload i → Memory.byte (Memory.writeRun h.memory y.block
      (Memory.readRun h.memory x.block count)) i = Memory.byte h.memory i := by
    intro i outside
    unfold Span.Payload at outside
    rw [written, Memory.size_readRun, if_neg (by omega)]
  refine ⟨_, copyBytes_of_inside (by omega) (by omega),
    sound.payload_written target avoided (Memory.size_writeRun ..) same, fun spans others =>
      sound.payload_spares target (Memory.size_writeRun ..) same others, fun i inside => ?_⟩
  dsimp only
  rw [written, Memory.size_readRun, if_pos (by omega), Nat.add_sub_cancel_left,
    Memory.get_readRun _ _ _ _ inside]

/-- What becomes of the block of `x` that is asked to have `size` bytes. -/
def Resizes (h h' : Heap A) (v v' : View) (x : Span) (size : Nat) :
    Except HeapError (Option Block) → Prop
  | .error _ => v'.used = v.used ∧ h.Spares h' v.used
  | .ok none => v.used.Perm (x :: v'.used) ∧ h.Spares h' v'.used
  | .ok (some b) => ∃ y rest, y.block = b ∧ v.used.Perm (x :: rest) ∧ v'.used.Perm (y :: rest) ∧
      size + 8 ≤ y.tag.size ∧ h.Spares h' rest ∧
      ∀ i < size, i + 8 < x.tag.size →
        Memory.byte h'.memory (y.block + i) = Memory.byte h.memory (x.block + i)

theorem Resizes.spares {answer : Except HeapError (Option Block)}
    (resizes : Resizes h h' v v' x size answer) : h.Spares h' [] := by
  rcases answer with error | ⟨_ | b⟩
  · exact resizes.2.nil
  · exact resizes.2.nil
  · obtain ⟨_, _, _, _, _, _, spares, _⟩ := resizes
    exact spares.nil

section Moving

variable {b c n : Nat} {h₁ h₂ h₃ h₄ : Heap A}

theorem reallocate_of_nothing (released : releaseBlock b h = .ok () h₁) :
    reallocate (some b) 0 h = .ok (.ok none) h₁ := by
  simp only [reallocate, release, if_pos rfl]
  exact bind_of_ok released

variable (some_bytes : size ≠ 0)

include some_bytes

theorem reallocate_of_error {error : HeapError}
    (ran : allocate size h = .ok (.error error) h₁) :
    reallocate (some b) size h = .ok (.error error) h₁ := by
  simp only [reallocate, if_neg some_bytes]
  exact bind_of_ok ran

theorem reallocate_of_granted (granted : allocate size h = .ok (.ok c) h₁)
    (held : Block.payloadSize h₁.memory b = .ok n)
    (copied : copyBytes b c (min n size) h₁ = .ok () h₂)
    (released : releaseBlock b h₂ = .ok () h₃)
    (recorded : record (.reallocated b c (min n size)) h₃ = .ok () h₄) :
    reallocate (some b) size h = .ok (.ok (some c)) h₄ := by
  simp only [reallocate, if_neg some_bytes]
  rw [bind_of_ok granted]
  simp only [query_bind, held]
  rw [bind_of_ok copied, bind_of_ok released, bind_of_ok recorded, pure_apply]

end Moving

theorem used_released {y : Span} {used kept rest : List Span} (granted : used.Perm (y :: kept))
    (source : x ∈ kept) (released : used.Perm (x :: rest)) : rest.Perm (y :: kept.erase x) := by
  have swapped : (x :: rest).Perm (x :: y :: kept.erase x) := by
    calc
      List.Perm (x :: rest) used := released.symm
      List.Perm _ (y :: kept) := granted
      List.Perm _ (y :: x :: kept.erase x) := (List.perm_cons_erase source).cons y
      List.Perm _ (x :: y :: kept.erase x) := .swap x y _
  exact swapped.cons_inv

theorem Sound.move_shows {y : Span} {kept : List Span} (sound : h.Sound v)
    (granted : v.used.Perm (y :: kept)) (source : x ∈ kept) (avoided : v.Avoids x)
    (target : v.Avoids y) (enough : size + 8 ≤ y.tag.size) :
    ∃ h₁ h₂ h₃, copyBytes x.block y.block (min (x.tag.size - 8) size) h = .ok () h₁ ∧
      releaseBlock x.block h₁ = .ok () h₂ ∧
      record (.reallocated x.block y.block (min (x.tag.size - 8) size)) h₂ = .ok () h₃ ∧
      h₃.Sound ((v.release x.block).note
        (.reallocated x.block y.block (min (x.tag.size - 8) size))) ∧
      (v.release x.block).used.Perm (y :: kept.erase x) ∧ h.Spares h₃ (kept.erase x) ∧
      ∀ i < size, i + 8 < x.tag.size →
        Memory.byte h₃.memory (y.block + i) = Memory.byte h.memory (x.block + i) := by
  have old_live : x ∈ v.used := granted.mem_iff.mpr (List.mem_cons_of_mem _ source)
  have new_live : y ∈ v.used := granted.mem_iff.mpr (List.mem_cons_self ..)
  have room := sound.shown.room_eight x (View.mem_of_used old_live)
  obtain ⟨h₁, ran₁, sound₁, spares₁, copied⟩ :=
    copyBytes_sound sound old_live new_live target
      (show min (x.tag.size - 8) size + 8 ≤ x.tag.size by omega)
      (show min (x.tag.size - 8) size + 8 ≤ y.tag.size by omega)
  obtain ⟨h₂, ran₂, sound₂, spares₂, released⟩ := releaseBlock_shows sound₁ old_live avoided
  obtain ⟨h₃, ran₃, sound₃, spares₃⟩ := record_sound sound₂
    (.reallocated x.block y.block (min (x.tag.size - 8) size)) (v.release x.block).used
  have perm := used_released granted source released
  have behind := spares₂.trans spares₃
  refine ⟨h₁, h₂, h₃, ran₁, ran₂, ran₃, sound₃, perm, ?_, ?_⟩
  · have first : h.Spares h₁ (kept.erase x) := spares₁ _ fun z member =>
      sound.used_apart granted z (List.mem_of_mem_erase member)
    exact first.trans (behind.mono fun z member =>
      perm.mem_iff.mpr (List.mem_cons_of_mem _ member))
  · intro i below inside
    have stays : y ∈ (v.release x.block).used := perm.mem_iff.mpr (List.mem_cons_self ..)
    have payload : y.Payload (y.block + i) := ⟨by omega, by omega⟩
    calc
      Memory.byte h₃.memory (y.block + i) = Memory.byte h₁.memory (y.block + i) :=
        behind.byte y stays _ payload
      _ = Memory.byte h.memory (x.block + i) := copied i (by omega)

theorem reallocate_shows {answer : Except HeapError (Option Block)} (sound : h.Sound v)
    (live : x ∈ v.used) (avoided : v.Avoids x) (size : Nat)
    (turn : v.reallocate h.terms x.block size = (answer, v')) :
    ∃ h', reallocate (some x.block) size h = .ok answer h' ∧ h'.Sound v' ∧
      Resizes h h' v v' x size answer := by
  unfold View.reallocate at turn
  by_cases nothing : size = 0
  · subst nothing
    rw [if_pos rfl] at turn
    cases turn
    obtain ⟨h', ran, sound', spares, perm⟩ := releaseBlock_shows sound live avoided
    exact ⟨h', reallocate_of_nothing ran, sound', perm, spares⟩
  · rw [if_neg nothing] at turn
    have same_ends := v.ends_allocate h.terms size
    rcases granted : v.allocate h.terms size with ⟨found, v₁⟩
    rw [granted] at turn same_ends
    obtain ⟨h₁, ran₁, sound₁, spares₁, grants⟩ := allocate_shows sound size granted
    cases found with
    | error error =>
      cases turn
      exact ⟨h₁, reallocate_of_error nothing ran₁, sound₁, grants, spares₁⟩
    | ok b =>
      cases turn
      obtain ⟨y, rfl, perm, enough, target⟩ := grants
      have old_live : x ∈ v₁.used := perm.mem_iff.mpr (List.mem_cons_of_mem _ live)
      rw [View.sizeOf_eq sound₁.shown.blocks_nodup (View.mem_of_used old_live)]
      obtain ⟨h₂, h₃, h₄, ran₂, ran₃, ran₄, sound₄, moved, spares₄, copied⟩ :=
        sound₁.move_shows perm live (avoided.of_ends same_ends) target enough
      have first : h.Spares h₁ (v.used.erase x) :=
        spares₁.mono fun z member => List.mem_of_mem_erase member
      refine ⟨h₄, reallocate_of_granted nothing ran₁ (sound₁.read_payloadSize old_live) ran₂ ran₃
        ran₄, sound₄, y, v.used.erase x, rfl, List.perm_cons_erase live, moved, enough,
        first.trans spares₄, ?_⟩
      intro i below inside
      have payload : x.Payload (x.block + i) := ⟨by omega, by omega⟩
      exact (copied i below inside).trans (spares₁.byte x live _ payload)

theorem reallocate_sound (sound : h.Sound v) (live : x ∈ v.used) (avoided : v.Avoids x)
    (size : Nat) :
    ∃ answer h' v', v'.ends = v.ends ∧ reallocate (some x.block) size h = .ok answer h' ∧
      h'.Sound v' ∧ Resizes h h' v v' x size answer := by
  obtain ⟨h', resized⟩ := reallocate_shows sound live avoided size rfl
  exact ⟨_, h', _, v.ends_reallocate .., resized⟩

end Heap

end SegregatedFit
