import SegregatedFit.Proofs.Reachability
import SegregatedFit.Proofs.Refinement

/-!
The journal as an account of the heap. Its entries about lists are instructions: put a block in
front of a list, take the first one off, take a later one off. Followed in order they lead from
empty lists to those of the heap, and the growths it tells add up to the size of the heap.
-/

namespace SegregatedFit

/-- The lists after an entry. No block leaves a list that it is not on, and a block leaves a list as
its head exactly if it is the head. -/
def Entry.replay (files : SizeClass → List Nat) : Entry → Option (SizeClass → List Nat)
  | .pushed cls b => some (Function.update files cls (b :: files cls))
  | .poppedHead cls b =>
    if (files cls).head? = some b then some (Function.update files cls (files cls).tail) else none
  | .unlinked cls b =>
    if b ∈ files cls ∧ (files cls).head? ≠ some b then
      some (Function.update files cls ((files cls).erase b))
    else none
  | _ => some files

namespace View

variable {v v' v'' : View} {x : Span} {left right : List Span}

/-- The entries that were added to the journal recount what became of the lists. -/
def Recounts (v v' : View) : Prop :=
  ∃ entries, v'.journal.toList = v.journal.toList ++ entries ∧
    entries.foldlM Entry.replay v.files = some v'.files

namespace Recounts

theorem refl (v : View) : v.Recounts v := ⟨[], by simp, rfl⟩

theorem trans (first : v.Recounts v') (second : v'.Recounts v'') : v.Recounts v'' := by
  obtain ⟨entries, journal, replayed⟩ := first
  obtain ⟨entries', journal', replayed'⟩ := second
  refine ⟨entries ++ entries', ?_, ?_⟩
  · rw [journal', journal, List.append_assoc]
  · rw [List.foldlM_append, replayed]
    exact replayed'

theorem entry {entry : Entry} (journal : v'.journal = v.journal.push entry)
    (replayed : entry.replay v.files = some v'.files) : v.Recounts v' := by
  refine ⟨[entry], by simp [journal], ?_⟩
  rw [List.foldlM_cons, replayed]
  rfl

end Recounts

theorem recounts_note (v : View) {entry : Entry} (other : entry.replay v.files = some v.files) :
    v.Recounts (v.note entry) :=
  .entry rfl other

theorem recounts_file (v : View) (x : Span) : v.Recounts (v.file x) := .entry rfl rfl

theorem recounts_unfile (listed : x.block ∈ v.files x.cls) : v.Recounts (v.unfile x) := by
  refine .entry rfl ?_
  by_cases first : (v.files x.cls).head? = some x.block
  · obtain ⟨rest, files⟩ := List.head?_eq_some_iff.mp first
    rw [if_pos first, Entry.replay, if_pos first]
    simp only [unfile, files, List.tail_cons, List.erase_cons_head]
  · rw [if_neg first, Entry.replay, if_pos ⟨listed, first⟩]
    rfl

theorem recounts_unfileAll {gone : List Span} (listed : ∀ y ∈ gone, y.block ∈ v.files y.cls)
    (distinct : (gone.map Span.block).Nodup) : v.Recounts (v.unfileAll gone) := by
  induction gone generalizing v with
  | nil => exact .refl v
  | cons y gone ih =>
    rw [List.map_cons, List.nodup_cons] at distinct
    apply (recounts_unfile (listed y (List.mem_cons_self ..))).trans
    apply ih _ distinct.2
    intro z member
    apply mem_unfile_of_ne _ (listed z (List.mem_cons_of_mem _ member))
    intro same
    exact distinct.1 (same ▸ List.mem_map_of_mem member)

theorem Loose.recounts_coalesce (loose : v.Loose left x right)
    (apart : ∀ p ∈ freeLast left, ∀ n ∈ freeHead right, p.block ≠ n.block) :
    v.Recounts (v.coalesce left x right) := by
  have distinct : ((absorbed left right).map Span.block).Nodup := by
    unfold absorbed
    cases last : freeLast left <;> cases head : freeHead right <;> simp
    exact (apart _ last _ head).symm
  rw [coalesce_eq loose.split]
  apply (recounts_unfileAll (fun y gone => (loose.absorbed_listed y gone).2) distinct).trans
  exact (recounts_note { v.unfileAll (absorbed left right) with spans := _ } rfl).trans
    (recounts_file _ _)

theorem Settled.recounts_grow {b size : Nat} (settled : v.Settled) (divides : size % 8 = 0)
    (fits : size ≤ Tag.maxSize) (unlisted : ∀ cls, b ∉ v.files cls) :
    v.Recounts (v.grow b size) := by
  have loose := settled.loose_add (Tag.allocated_of false fits divides) unlisted
  refine .trans (recounts_note { v with spans := _ } rfl) (loose.recounts_coalesce ?_)
  intro p _ n head
  cases head

theorem recounts_opened {size chunk : Nat} {journal : Array Entry} (divides : chunk % 8 = 0)
    (fits : chunk ≤ Tag.maxSize) :
    Recounts ⟨[], fun _ => [], fun stop => stop = size + 8, journal⟩
      (opened size chunk journal) := by
  have settled : Settled ⟨[], fun _ => [], fun stop => stop = size + 8, journal⟩ :=
    ⟨.nil, by simp⟩
  exact (settled.recounts_grow divides fits fun _ => List.not_mem_nil).trans (recounts_note _ rfl)

end View

namespace Heap

variable {A : Type} [Arena A] {h h' : Heap A} {v v' : View} {x : Span} {wanted : Nat}

namespace Sound

theorem recounts_release (sound : h.Sound v) (live : x ∈ v.used) :
    v.Recounts (v.release x.block) := by
  obtain ⟨left, right, spans⟩ := List.append_of_mem (View.mem_of_used live)
  have viewed : v.release x.block =
      (v.untake left x right).coalesce left (.of x.block x.tag.size false) right :=
    View.around_eq sound.shown.blocks_nodup spans _
  rw [viewed]
  have freed : v.Recounts (v.untake left x right) :=
    View.recounts_note { v with spans := _ } rfl
  apply freed.trans ((sound.loose_untake live spans).recounts_coalesce _)
  exact fun _ last _ head => sound.shown.neighbours_ne spans last head

theorem recounts_take (sound : h.Sound v) (member : x ∈ v.spans)
    (unused : x.tag.allocated = false) (room : 16 ≤ wanted) (divides : wanted % 8 = 0)
    (fits : wanted ≤ x.tag.size) : v.Recounts (v.take x.block wanted) := by
  obtain ⟨left, right, spans⟩ := List.append_of_mem member
  have viewed : v.take x.block wanted = v.carve left x right wanted :=
    View.around_eq sound.shown.blocks_nodup spans _
  have unfiled := View.recounts_unfile (sound.settled.filed x member unused)
  rw [viewed, View.carve]
  by_cases left_over : Block.minSize ≤ x.tag.size - wanted
  · have used : (taken x wanted).tag.allocated = true := allocated_taken divides fits
    have free : (leftover x wanted).tag.allocated = false := allocated_leftover divides
    have loose := sound.shown.loose_split sound.settled spans room left_over used free
    rw [if_pos left_over]
    refine unfiled.trans (.trans (View.recounts_note { v.unfile x with spans := _ } rfl)
      (loose.recounts_coalesce fun p last => ?_))
    rw [freeLast_append, used, if_pos rfl] at last
    cases last
  · rw [if_neg left_over]
    exact unfiled.trans (View.recounts_note { v.unfile x with spans := _ } rfl)

theorem recounts_grown (sound : h.Sound v) {bytes : Nat} (divides : bytes % 8 = 0) :
    v.Recounts (v.grown h.terms bytes).2 := by
  unfold View.grown
  by_cases granted : h.terms.grants bytes = true
  · rw [if_pos granted]
    have fits : bytes ≤ Tag.maxSize := by
      have both := granted
      simp only [terms, Bool.and_eq_true, decide_eq_true_eq] at both
      omega
    exact sound.settled.recounts_grow divides fits sound.shown.end_unlisted
  · rw [if_neg granted]
    exact v.recounts_note rfl

theorem recounts_found (sound : h.Sound v) (divides : wanted % 8 = 0) :
    v.Recounts (v.found h.terms wanted).2 := by
  obtain ⟨_, chunk_divides, _⟩ := validate_eq_ok.mp sound.valid
  unfold View.found
  cases v.fit wanted with
  | some b => exact .refl v
  | none =>
    have both : max wanted h.config.chunkSize % 8 = 0 := by grind
    exact sound.recounts_grown both

theorem recounts_allocate (sound : h.Sound v) (size : Nat) :
    v.Recounts (v.allocate h.terms size).2 := by
  unfold View.allocate
  by_cases fits : (size + 15) / 8 * 8 ≤ Tag.maxSize
  · obtain ⟨room, divides, _⟩ := blockSize_spec size
    have first := sound.recounts_found divides
    rw [if_pos fits]
    rcases sought : v.found h.terms (blockSize size) with ⟨found, v₁⟩
    rw [sought] at first
    obtain ⟨h₁, _, sound₁, _, _, got⟩ := found_shows sound room divides (blockSize_le fits) sought
    cases found with
    | error error => exact first
    | ok b =>
      obtain ⟨x, member, rfl, unused, large⟩ := got b rfl
      exact (first.trans (sound₁.recounts_take member unused room divides large)).trans
        (View.recounts_note _ rfl)
  · rw [if_neg fits]
    exact .refl v

theorem recounts_allocateZeroed (sound : h.Sound v) (count size : Nat) :
    v.Recounts (v.allocateZeroed h.terms count size).2 := by
  unfold View.allocateZeroed
  split
  · exact sound.recounts_allocate (count * size)
  · exact .refl v

theorem recounts_reallocate (sound : h.Sound v) (live : x ∈ v.used) (size : Nat) :
    v.Recounts (v.reallocate h.terms x.block size).2 := by
  unfold View.reallocate
  split
  · exact sound.recounts_release live
  · have first := sound.recounts_allocate size
    rcases granted : v.allocate h.terms size with ⟨found, v₁⟩
    rw [granted] at first
    obtain ⟨h₁, _, sound₁, _, grants⟩ := allocate_shows sound size granted
    cases found with
    | error error => exact first
    | ok b =>
      obtain ⟨y, rfl, perm, _⟩ := grants
      have still_live : x ∈ v₁.used := perm.mem_iff.mpr (List.mem_cons_of_mem _ live)
      exact (first.trans (sound₁.recounts_release still_live)).trans (View.recounts_note _ rfl)

end Sound

end Heap

namespace Session

variable {A : Type} [Arena A] {s s' : Session A} {v : View} {r : Request}
  {requests : List Request}

namespace Kept

theorem recounts_perform (kept : s.Kept v) (allowed : r.allowed s = true) :
    v.Recounts (v.perform s.heap.terms r).2 := by
  cases r with
  | allocate size => exact kept.sound.recounts_allocate size
  | allocateZeroed count size => exact kept.sound.recounts_allocateZeroed count size
  | release block =>
    cases block with
    | none => exact .refl v
    | some b =>
      obtain ⟨x, used, rfl⟩ := kept.used_of_target allowed rfl
      exact kept.sound.recounts_release used
  | reallocate block size =>
    cases block with
    | none =>
      simp only [View.perform]
      split
      · exact .refl v
      · exact kept.sound.recounts_allocate size
    | some b =>
      obtain ⟨x, used, rfl⟩ := kept.used_of_target allowed rfl
      exact kept.sound.recounts_reallocate used size
  | write b start bytes => exact .refl v

theorem recounts_play (kept : s.Kept v) (honoured : honours requests s = true) :
    ∃ answers s' v', play requests s = .ok answers s' ∧ s'.Kept v' ∧ v.Recounts v' := by
  induction requests generalizing s v with
  | nil => exact ⟨[], s, v, rfl, kept, .refl v⟩
  | cons r rest ih =>
    have allowed := (Bool.and_eq_true_iff.mp honoured).1
    have recounts := kept.recounts_perform allowed
    obtain ⟨s₁, performed, kept₁, _⟩ := kept.performs_view allowed rfl
    obtain ⟨answers, s₂, v₂, played, kept₂, later⟩ := ih kept₁ (honours_tail honoured performed)
    exact ⟨_, s₂, v₂, play_cons performed played, kept₂, recounts.trans later⟩

end Kept

variable {arena : A} {config : Config} {journal entries : Array Entry} {h : Heap A}

/-- The journal of a heap is a faithful account of it: replayed from empty lists, what it tells of
lists gives all lists of the heap in their order, and what it tells of growth is all the growth
there was. By `honours_of_append` it is so after each request. -/
theorem journal_faithful (created : Heap.create arena config journal = .ok (.ok h) entries)
    (chunk : 16 ≤ config.chunkSize) (honoured : honours requests ⟨h, []⟩ = true) :
    ∃ answers s told files, play requests ⟨h, []⟩ = .ok answers s ∧
      s.heap.journal.toList = journal.toList ++ told ∧
      told.foldlM Entry.replay (fun _ => []) = some files ∧
      (∀ cls limit, Memory.size s.heap.memory ≤ limit → s.heap.list limit cls = .ok (files cls)) ∧
      Memory.size s.heap.memory =
        Memory.size arena + sentinelBytes + (Entry.growths told).sum := by
  have start := kept_opened created chunk
  obtain ⟨valid, opened, first⟩ := Heap.of_create_ok created
  obtain ⟨_, divides, fits, _⟩ := Heap.validate_eq_ok.mp valid
  obtain ⟨answers, s, v, played, kept, recounts⟩ := start.recounts_play honoured
  obtain ⟨told, journaled, replayed⟩ := (View.recounts_opened divides fits).trans recounts
  have shown : s.heap.journal = v.journal := kept.sound.shown.journal
  refine ⟨answers, s, told, v.files, played, shown ▸ journaled, replayed, fun cls limit enough =>
    kept.consistent.whole_list_eq enough cls, ?_⟩
  obtain ⟨sizes, later⟩ := traced_of_play played
  have traced := first.trans later
  obtain ⟨told', journaled', grown⟩ := traced.told
  have joined : journal.toList ++ told' = journal.toList ++ told := by
    calc
      journal.toList ++ told' = s.heap.journal.toList := journaled'.symm
      _ = journal.toList ++ told := shown ▸ journaled
  have same : told' = told := List.append_cancel_left joined
  rw [← same, grown, traced.size_eq]
  exact congrArg (· + _) opened.size_eq

def roundTrip : List Request :=
  [.allocate 8, .allocate 8, .allocate 8, .release (some 48), .release (some 16),
    .release (some 32), .allocate 60]

theorem roundTrip_feasible : feasible (Buffer.new 256) ⟨128, 48⟩ #[] roundTrip = true := by
  decide +kernel

theorem roundTrip_faithful :
    ∃ h entries, Heap.create (Buffer.new 256) ⟨128, 48⟩ #[] = .ok (.ok h) entries ∧
      16 ≤ (⟨128, 48⟩ : Config).chunkSize ∧ honours roundTrip ⟨h, []⟩ = true ∧
      ∃ answers s told files, play roundTrip ⟨h, []⟩ = .ok answers s ∧
        s.heap.journal.toList = (#[] : Array Entry).toList ++ told ∧
        told.foldlM Entry.replay (fun _ => []) = some files ∧
        (∀ cls limit, Memory.size s.heap.memory ≤ limit →
          s.heap.list limit cls = .ok (files cls)) ∧
        Memory.size s.heap.memory = 0 + sentinelBytes + (Entry.growths told).sum := by
  obtain ⟨h, entries, created, honoured⟩ := feasible_iff.mp roundTrip_feasible
  exact ⟨h, entries, created, by decide, honoured, journal_faithful created (by decide) honoured⟩

end Session

end SegregatedFit
