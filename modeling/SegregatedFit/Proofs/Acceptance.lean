import SegregatedFit.Arena.Buffer
import SegregatedFit.Proofs.Damage

/-!
Heaps of unknown history that the checker accepts. A list may end at anything that looks like a
block in use, and the checker asks no more of it. If that is in a block that is free or becomes
free, the list goes on one day to wherever it takes the bytes there for a link. In all other cases
what the checker accepts stays accepted.
-/

namespace SegregatedFit

namespace Threaded

variable {M : Type} [Memory M] {m : M} {stop stop' b : Nat} {blocks : List Nat}

theorem stop_eq (first : Threaded m stop b blocks) (second : Threaded m stop' b blocks) :
    stop = stop' := by
  induction blocks generalizing b with
  | nil =>
    have here : b = stop := first
    exact here.symm.trans second
  | cons c rest ih =>
    obtain ⟨_, next, link, later⟩ := first
    obtain ⟨_, next', link', later'⟩ := second
    rw [link] at link'
    cases link'
    exact ih later later'

end Threaded

namespace Heap

section Ends

variable {M : Type} [Memory M] {h : Heap M} {cls : SizeClass} {stop stop' : Nat}

/-- The list of `cls` runs over free blocks to `stop`, which looks like a block in use. -/
def EndsAt (h : Heap M) (cls : SizeClass) (stop : Nat) : Prop :=
  ∃ blocks, Threaded h.memory stop (h.lists.head cls) blocks ∧
    (∀ c ∈ blocks, FreeLists.Free h.memory c) ∧ FreeLists.Used h.memory stop

/-- No list ends at a header among the bytes of `x`. -/
def Avoids (h : Heap M) (x : Span) : Prop :=
  ∀ cls stop, h.EndsAt cls stop → stop + 4 ≤ x.block ∨ x.block + x.tag.size ≤ stop

theorem EndsAt.unique (first : h.EndsAt cls stop) (second : h.EndsAt cls stop') :
    stop = stop' := by
  obtain ⟨blocks, threaded, free, used⟩ := first
  obtain ⟨blocks', threaded', free', used'⟩ := second
  have same : blocks = blocks' := threaded.unique threaded' free free' used used'
  subst same
  exact threaded.stop_eq threaded'

theorem Shows.ends_of_endsAt {v : View} (shown : h.Shows v) (ends : h.EndsAt cls stop) :
    v.ends stop := by
  obtain ⟨stop', ending, threaded⟩ := shown.filed.threaded cls
  have known : h.EndsAt cls stop' :=
    ⟨v.files cls, threaded, fun _ => shown.filed.listed_free, shown.filed.used stop' ending⟩
  exact known.unique ends ▸ ending

end Ends

variable {A : Type} [Arena A] {h : Heap A}

/-- The checker accepts the heap. The other conditions are those that no step of a heap can break.
-/
structure Clean (h : Heap A) : Prop where
  valid : h.config.validate = .ok ()
  aligned : h.prologue % 8 = 0
  terminator : h.lists.terminator = h.prologue
  small : Memory.size h.memory ≤ Tag.maxSize
  clean : h.violations = .ok []

/-- The checker accepts the heap, and no list ends in a free block. -/
structure Accepted (h : Heap A) : Prop extends h.Clean where
  clear : ∀ spans, h.chain = .ok spans → ∀ x ∈ spans, x.tag.allocated = false → h.Avoids x

theorem Sound.accepted {v : View} (sound : h.Sound v) : h.Accepted := by
  have shown := sound.shown
  have bounded : Memory.size h.memory < 1 <<< 63 := Nat.lt_of_le_of_lt sound.small (by decide)
  obtain ⟨stops, _, consistent⟩ := sound.consistent
  refine ⟨⟨sound.valid, shown.prologue_aligned, shown.terminator, sound.small,
    consistent.violations_eq bounded⟩, ?_⟩
  intro spans walked x member unused cls stop ends
  rw [consistent.chain_eq (Nat.lt_of_lt_of_le bounded (by decide))] at walked
  cases walked
  exact shown.clear x member unused stop (shown.ends_of_endsAt ends)

namespace Accepted

theorem bounded (accepted : h.Accepted) : Memory.size h.memory < 1 <<< 63 :=
  Nat.lt_of_le_of_lt accepted.small (by decide)

def view (h : Heap A) (spans : List Span) (files : SizeClass → List Nat)
    (stops : SizeClass → Nat) : View where
  spans := spans
  files := files
  ends stop := stop = h.prologue ∨ ∃ cls, stop = stops cls
  journal := h.journal

variable {spans : List Span} {files : SizeClass → List Nat} {stops : SizeClass → Nat} {x : Span}

theorem view_avoids (consistent : h.Consistent spans files stops) (member : x ∈ spans)
    (avoids : h.Avoids x) : (view h spans files stops).Avoids x := by
  rintro stop (rfl | ⟨cls, rfl⟩)
  · have := consistent.chained.tiles.within member
    omega
  · exact avoids cls _
      ⟨files cls, consistent.threaded cls, fun _ => consistent.free, (consistent.ends cls).1⟩

/-- An accepted heap is as sound as one that was made here. -/
theorem sound (accepted : h.Accepted) :
    ∃ v, h.Sound v ∧ h.chain = .ok v.spans ∧ ∀ x ∈ v.spans, h.Avoids x → v.Avoids x := by
  obtain ⟨spans, files, stops, consistent⟩ := consistent_of_clean accepted.bounded accepted.clean
  have walked : h.chain = .ok spans :=
    consistent.chain_eq (Nat.lt_of_lt_of_le accepted.bounded (by decide))
  have settled : (view h spans files stops).Settled :=
    ⟨consistent.apart, fun x member unused =>
      (consistent.listed x.cls x.block).mpr ⟨x, member, rfl, unused, rfl⟩⟩
  have used : ∀ stop, (view h spans files stops).ends stop →
      FreeLists.Used h.memory stop ∧ stop + 8 ≤ Memory.size h.memory := by
    rintro stop (rfl | ⟨cls, rfl⟩)
    · exact ⟨⟨_, consistent.chained.sentinel.header, Tag.allocated_sentinel⟩,
        consistent.chained.end_ge⟩
    · exact consistent.ends cls
  have clear : ∀ x ∈ spans, x.tag.allocated = false → (view h spans files stops).Avoids x :=
    fun x member unused =>
      view_avoids consistent member (accepted.clear spans walked x member unused)
  have listed : ∀ cls, ∀ b ∈ files cls,
      ∃ x ∈ spans, x.block = b ∧ x.tag.allocated = false ∧ x.cls = cls :=
    fun cls b => (consistent.listed cls b).mp
  have filed : Filed h.memory h.lists (view h spans files stops).ends files :=
    filed_of_threads consistent.chained consistent.room
      (fun cls => ⟨stops cls, .inr ⟨cls, rfl⟩, consistent.threaded cls⟩) consistent.nodup listed
      (fun stop ending => (used stop ending).1) clear (.inl accepted.terminator)
  have shown : h.Shows (view h spans files stops) :=
    ⟨consistent.chained, consistent.room, accepted.aligned, filed,
      fun stop ending => (used stop ending).2, clear, listed, accepted.terminator, rfl⟩
  exact ⟨view h spans files stops, ⟨shown, settled, accepted.small, accepted.valid⟩, walked,
    fun x => view_avoids consistent⟩

/-- Requests to an accepted heap are answered and leave an accepted heap, as long as no list ends in
a block that is given back. -/
theorem requests (accepted : h.Accepted) :
    (∀ size, ∃ answer h', allocate size h = .ok answer h' ∧ h'.Accepted) ∧
    (∀ count size, ∃ answer h', allocateZeroed count size h = .ok answer h' ∧ h'.Accepted) ∧
    ∀ spans, h.chain = .ok spans → ∀ x ∈ spans, x.tag.allocated = true → h.Avoids x →
      (∃ h', release (some x.block) h = .ok () h' ∧ h'.Accepted) ∧
      ∀ size, ∃ answer h', reallocate (some x.block) size h = .ok answer h' ∧ h'.Accepted := by
  obtain ⟨v, sound, walked, avoids⟩ := accepted.sound
  refine ⟨fun size => ?_, fun count size => ?_, ?_⟩
  · obtain ⟨answer, h', v', _, ran, sound', _⟩ := allocate_sound sound size
    exact ⟨answer, h', ran, sound'.accepted⟩
  · obtain ⟨answer, h', v', _, ran, sound', _⟩ := allocateZeroed_sound sound count size
    exact ⟨answer, h', ran, sound'.accepted⟩
  · intro spans found x member used clear
    rw [walked] at found
    cases found
    have live : x ∈ v.used := View.mem_used.mpr ⟨member, used⟩
    have avoided := avoids x member clear
    constructor
    · obtain ⟨h', v', _, ran, sound', _⟩ := releaseBlock_sound sound live avoided
      exact ⟨h', ran, sound'.accepted⟩
    · intro size
      obtain ⟨answer, h', v', _, ran, sound', _⟩ := reallocate_sound sound live avoided size
      exact ⟨answer, h', ran, sound'.accepted⟩

def detoured : Heap Buffer where
  memory := ⟨⟨#[0, 0, 0, 0, 9, 0, 0, 0, 9, 0, 0, 0, 17, 0, 0, 0, 0, 0, 0, 0, 0, 0, 0, 0, 17, 0, 0,
    0, 17, 0, 0, 0, 0, 0, 0, 0, 0, 0, 0, 0, 17, 0, 0, 0, 32, 0, 0, 0, 32, 0, 0, 0, 0, 0, 0, 0, 0,
    0, 0, 0, 0, 0, 0, 0, 0, 0, 0, 0, 0, 0, 0, 0, 32, 0, 0, 0, 1, 0, 0, 0]⟩, 128⟩
  lists := (FreeLists.empty 8).setHead (SizeClass.ofSize 32) 48
  prologue := 8
  config := ⟨128, 64⟩
  journal := #[]

theorem detoured_ends (cls : SizeClass) :
    detoured.EndsAt cls (if cls = SizeClass.ofSize 32 then 32 else 8) := by
  by_cases here : cls = SizeClass.ofSize 32
  · subst here
    refine ⟨[48], ⟨rfl, 32, by decide +kernel, rfl⟩, ?_, ⟨17⟩, by decide +kernel, rfl⟩
    exact List.forall_mem_singleton.mpr ⟨⟨32⟩, by decide +kernel, rfl⟩
  · rw [if_neg here]
    have head : detoured.lists.head cls = 8 := by
      simp only [detoured, FreeLists.head_setHead, if_neg here, FreeLists.head_empty]
    exact ⟨[], head, by simp, ⟨9⟩, by decide +kernel, rfl⟩

theorem detoured_avoids {x : Span}
    (apart : 36 ≤ x.block ∨ 12 ≤ x.block ∧ x.block + x.tag.size ≤ 32) : detoured.Avoids x := by
  intro cls stop ends
  have known := ends.unique (detoured_ends cls)
  split at known <;> omega

theorem detoured_accepted : detoured.Accepted where
  valid := rfl
  aligned := rfl
  terminator := rfl
  small := by decide
  clean := by decide +kernel
  clear := by
    have walked : detoured.chain = .ok [⟨16, ⟨17⟩⟩, ⟨32, ⟨17⟩⟩, ⟨48, ⟨32⟩⟩] := by decide +kernel
    intro spans found x member unused
    rw [walked] at found
    cases found
    have last : x = ⟨48, ⟨32⟩⟩ := by
      simp only [List.mem_cons, List.not_mem_nil, or_false] at member
      rcases member with rfl | rfl | rfl <;> first | rfl | exact absurd unused (by decide)
    exact detoured_avoids (.inl (by rw [last]; decide))

theorem detoured_requests :
    detoured.Accepted ∧
      (∀ size, ∃ answer h', allocate size detoured = .ok answer h' ∧ h'.Accepted) ∧
      (∃ h', release (some 16) detoured = .ok () h' ∧ h'.Accepted) ∧
      ∀ size, ∃ answer h', reallocate (some 16) size detoured = .ok answer h' ∧ h'.Accepted := by
  obtain ⟨allocates, _, gives⟩ := requests detoured_accepted
  have walked : detoured.chain = .ok [⟨16, ⟨17⟩⟩, ⟨32, ⟨17⟩⟩, ⟨48, ⟨32⟩⟩] := by decide +kernel
  obtain ⟨releases, reallocates⟩ := gives _ walked ⟨16, ⟨17⟩⟩ (by simp) rfl
    (detoured_avoids (.inr ⟨by decide, by decide⟩))
  exact ⟨detoured_accepted, allocates, releases, reallocates⟩

end Accepted

section Rejected

variable {h : Heap A} {cls : SizeClass}

theorem violations_of_twice {b : Nat} (bounded : Memory.size h.memory < 1 <<< 63)
    (twice : h.list 2 cls = .ok [b, b]) : h.violations ≠ .ok [] := by
  intro clean
  obtain ⟨spans, files, stops, consistent⟩ := consistent_of_clean bounded clean
  have same : (files cls).take 2 = [b, b] :=
    Except.ok.inj ((consistent.list_eq 2 cls).symm.trans twice)
  have nodup := (consistent.nodup cls).sublist (List.take_sublist 2 _)
  rw [same] at nodup
  simp at nodup

theorem violations_of_misaligned {blocks : List Nat} {limit b : Nat}
    (bounded : Memory.size h.memory < 1 <<< 63) (listed : h.list limit cls = .ok blocks)
    (member : b ∈ blocks) (misaligned : b % 8 ≠ 0) : h.violations ≠ .ok [] := by
  intro clean
  obtain ⟨spans, files, stops, consistent⟩ := consistent_of_clean bounded clean
  have same : (files cls).take limit = blocks :=
    Except.ok.inj ((consistent.list_eq limit cls).symm.trans listed)
  obtain ⟨x, inside, rfl, _⟩ := (consistent.listed cls b).mp (List.mem_of_mem_take (same ▸ member))
  exact misaligned (consistent.aligned x inside)

def misled : Heap Buffer where
  memory := ⟨⟨#[0, 0, 0, 0, 9, 0, 0, 0, 9, 0, 0, 0, 17, 0, 0, 0, 0, 0, 0, 0, 0, 0, 0, 0, 17, 0, 0,
    0, 48, 0, 0, 0, 16, 0, 0, 0, 0, 0, 0, 0, 0, 0, 0, 0, 0, 0, 0, 0, 0, 0, 0, 0, 0, 0, 0, 0, 0, 0,
    0, 0, 0, 0, 0, 0, 0, 0, 0, 0, 0, 0, 0, 0, 48, 0, 0, 0, 1, 0, 0, 0]⟩, 65536⟩
  lists := (FreeLists.empty 8).setHead (SizeClass.ofSize 48) 32
  prologue := 8
  config := ⟨65536, 64⟩
  journal := #[]

def waylaid : Heap Buffer where
  memory := ⟨⟨#[0, 0, 0, 0, 9, 0, 0, 0, 9, 0, 0, 0, 48, 0, 0, 0, 8, 0, 0, 0, 0, 0, 0, 0, 0, 0, 0,
    0, 0, 0, 0, 0, 1, 0, 0, 0, 0, 0, 0, 0, 0, 0, 0, 0, 0, 0, 0, 0, 0, 0, 0, 0, 0, 0, 0, 0, 48, 0,
    0, 0, 1, 0, 0, 0]⟩, 128⟩
  lists := ((FreeLists.empty 8).setHead (SizeClass.ofSize 48) 16).setHead (SizeClass.ofSize 512) 36
  prologue := 8
  config := ⟨128, 48⟩
  journal := #[]

theorem misled_clean : misled.Clean :=
  ⟨rfl, rfl, rfl, by decide, by decide +kernel⟩

theorem waylaid_clean : waylaid.Clean :=
  ⟨rfl, rfl, rfl, by decide, by decide +kernel⟩

/-- The checker accepts both heaps. When the block in use of the first is given back its list goes
round, and when the free block of the second is taken the other list goes astray. -/
theorem clean_heaps_rejected :
    (misled.Clean ∧ misled.chain = .ok [⟨16, ⟨17⟩⟩, ⟨32, ⟨48⟩⟩] ∧
      (⟨17⟩ : Tag).allocated = true ∧
      ∃ h', release (some 16) misled = .ok () h' ∧ h'.violations ≠ .ok []) ∧
    waylaid.Clean ∧
      ∃ h', allocateZeroed 1 40 waylaid = .ok (.ok 16) h' ∧ h'.violations ≠ .ok [] := by
  have around : (match release (some 16) misled with
      | .ok () h' => decide (h'.list 2 (SizeClass.ofSize 48) = .ok [16, 16] ∧
          Memory.size h'.memory < 1 <<< 63)
      | .error _ _ => false) = true := by
    decide +kernel
  have astray : (match allocateZeroed 1 40 waylaid with
      | .ok (.ok b) h' => decide (b = 16 ∧ h'.list 1 (SizeClass.ofSize 512) = .ok [36] ∧
          Memory.size h'.memory < 1 <<< 63)
      | .ok (.error _) _ => false
      | .error _ _ => false) = true := by
    decide +kernel
  refine ⟨⟨misled_clean, by decide +kernel, by decide, ?_⟩, waylaid_clean, ?_⟩
  · split at around
    · rename_i h' released
      obtain ⟨twice, bounded⟩ := of_decide_eq_true around
      exact ⟨h', released, violations_of_twice bounded twice⟩
    · cases around
  · split at astray
    · rename_i h' allocated
      obtain ⟨rfl, listed, bounded⟩ := of_decide_eq_true astray
      exact ⟨h', allocated, violations_of_misaligned bounded listed (b := 36) (by simp) (by decide)⟩
    · cases astray
    · cases astray

end Rejected

end Heap

end SegregatedFit
