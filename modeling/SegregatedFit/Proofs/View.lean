import SegregatedFit.Proofs.Filing
import SegregatedFit.Proofs.Tiling

/-!
What a heap shows: the spans of its chain, the blocks on its free lists, and its journal. A step of
the heap is a step of this view. The bytes a step may change are the tags and links of free blocks.
-/

namespace SegregatedFit

def Span.cls (x : Span) : SizeClass := SizeClass.ofSize x.tag.size

structure View where
  spans : List Span
  files : SizeClass → List Nat
  /-- The places at which a list may end. -/
  ends : Nat → Prop
  journal : Array Entry

namespace View

def note (v : View) (entry : Entry) : View := { v with journal := v.journal.push entry }

def file (v : View) (x : Span) : View where
  spans := v.spans
  files := Function.update v.files x.cls (x.block :: v.files x.cls)
  ends := v.ends
  journal := v.journal.push (.pushed x.cls x.block)

def unfile (v : View) (x : Span) : View where
  spans := v.spans
  files := Function.update v.files x.cls ((v.files x.cls).erase x.block)
  ends := v.ends
  journal := v.journal.push
    (if (v.files x.cls).head? = some x.block then .poppedHead x.cls x.block
    else .unlinked x.cls x.block)

/-- No list ends at a header among the bytes of `x`. -/
def Avoids (v : View) (x : Span) : Prop :=
  ∀ stop, v.ends stop → stop + 4 ≤ x.block ∨ x.block + x.tag.size ≤ stop

theorem Avoids.of_ends {v v' : View} {x : Span} (avoided : v.Avoids x) (same : v'.ends = v.ends) :
    v'.Avoids x := fun stop ending => avoided stop (same ▸ ending)

def Linked (v : View) (i : Nat) : Prop :=
  ∃ y ∈ v.spans, y.tag.allocated = false ∧ y.block ∈ v.files y.cls ∧ y.InLink i

theorem mem_file {v : View} {x : Span} {cls : SizeClass} {b : Nat} :
    b ∈ (v.file x).files cls ↔ b = x.block ∧ cls = x.cls ∨ b ∈ v.files cls :=
  mem_update_cons

theorem mem_unfile {v : View} {x : Span} (nodup : (v.files x.cls).Nodup) {cls : SizeClass}
    {b : Nat} :
    b ∈ (v.unfile x).files cls ↔ ¬(b = x.block ∧ cls = x.cls) ∧ b ∈ v.files cls := by
  by_cases same : cls = x.cls
  · subst same
    simp [unfile, nodup.mem_erase_iff]
  · simp [unfile, same]

theorem mem_unfile_of_ne {v : View} {x : Span} {cls : SizeClass} {b : Nat}
    (different : b ≠ x.block) (listed : b ∈ v.files cls) : b ∈ (v.unfile x).files cls := by
  by_cases same : cls = x.cls
  · subst same
    simp only [unfile, Function.update_self]
    exact (List.mem_erase_of_ne different).mpr listed
  · simpa [unfile, same] using listed

theorem mem_of_mem_unfile {v : View} {x : Span} {cls : SizeClass} {b : Nat}
    (stays : b ∈ (v.unfile x).files cls) : b ∈ v.files cls :=
  mem_of_mem_update_erase stays

end View

namespace Heap

variable {M : Type} [Memory M] {h h' : Heap M} {v : View} {x : Span}

/-- The heap holds the chain and the lists of the view. All listed blocks are free blocks of the
chain, but a free block need not be listed. No list ends in the bytes of a free block. -/
structure Shows (h : Heap M) (v : View) : Prop where
  chained : Chained h.memory h.prologue v.spans
  room : ∀ x ∈ v.spans, 16 ≤ x.tag.size
  prologue_aligned : h.prologue % 8 = 0
  filed : Filed h.memory h.lists v.ends v.files
  ends : ∀ stop, v.ends stop → stop + 8 ≤ Memory.size h.memory
  clear : ∀ x ∈ v.spans, x.tag.allocated = false → v.Avoids x
  listed : ∀ cls, ∀ b ∈ v.files cls,
    ∃ x ∈ v.spans, x.block = b ∧ x.tag.allocated = false ∧ x.cls = cls
  terminator : h.lists.terminator = h.prologue
  journal : h.journal = v.journal

namespace Shows

theorem read (shown : h.Shows v) (member : x ∈ v.spans) : Block.tag h.memory x.block = .ok x.tag :=
  (shown.chained.written x member).header

theorem room_eight (shown : h.Shows v) : ∀ x ∈ v.spans, 8 ≤ x.tag.size := fun x member =>
  Nat.le_trans (by decide) (shown.room x member)

theorem room_pos (shown : h.Shows v) : ∀ x ∈ v.spans, 0 < x.tag.size := fun x member =>
  Nat.lt_of_lt_of_le (by decide) (shown.room x member)

theorem aligned (shown : h.Shows v) : ∀ x ∈ v.spans, x.block % 8 = 0 :=
  (shown.chained.tiles.aligned (by have := shown.prologue_aligned; omega)).1

theorem within (shown : h.Shows v) (member : x ∈ v.spans) :
    h.prologue + 8 ≤ x.block ∧ x.block + x.tag.size ≤ Memory.size h.memory :=
  shown.chained.tiles.within member

theorem eq_of_block (shown : h.Shows v) {y : Span} (first : x ∈ v.spans) (second : y ∈ v.spans)
    (same : x.block = y.block) : x = y :=
  shown.chained.tiles.eq_of_block shown.room_pos first second same

theorem eq_of_covers (shown : h.Shows v) {y : Span} {i : Nat} (first : x ∈ v.spans)
    (second : y ∈ v.spans) (here : x.Covers i) (there : y.Covers i) : x = y :=
  shown.chained.tiles.eq_of_covers shown.room_pos first second here there

theorem blocks_nodup (shown : h.Shows v) : (v.spans.map Span.block).Nodup :=
  (shown.chained.tiles.sorted shown.room_pos).imp Nat.ne_of_lt

theorem apart (shown : h.Shows v) {y : Span} (first : x ∈ v.spans) (second : y ∈ v.spans)
    (different : x.block ≠ y.block) : Apart x.block y.block := by
  have := shown.chained.tiles.apart first second different
  have := shown.room x first
  have := shown.room y second
  unfold Apart
  omega

theorem ends_past (shown : h.Shows v) (member : x ∈ v.spans) (avoided : v.Avoids x) {stop : Nat}
    (ending : v.ends stop) : stop ≤ x.block ∨ x.block + 12 ≤ stop := by
  have := shown.room x member
  have := avoided stop ending
  omega

theorem not_mem_unfile (shown : h.Shows v) (listed : x.block ∈ v.files x.cls) (cls : SizeClass) :
    x.block ∉ (v.unfile x).files cls := by
  intro stays
  obtain ⟨gone, old⟩ := (View.mem_unfile (shown.filed.nodup _)).mp stays
  exact gone ⟨rfl, shown.filed.class_eq old listed⟩

theorem stretch {left middle right : List Span} (shown : h.Shows v)
    (split : v.spans = left ++ middle ++ right) :
    ∃ low high, Tiles low middle high ∧ h.prologue + 8 ≤ low ∧ high ≤ Memory.size h.memory := by
  obtain ⟨low, high, before, covered, behind⟩ := (split ▸ shown.chained.tiles).stretch
  exact ⟨low, high, covered, before.le, behind.le⟩

theorem relisted {files' : SizeClass → List Nat} {journal' : Array Entry} {changed : Nat → Prop}
    (shown : h.Shows v) (filed : Filed h'.memory h'.lists v.ends files')
    (keeps : h.Keeps h' changed)
    (links : ∀ i, changed i → ∃ x ∈ v.spans, x.block ≤ i ∧ i < x.block + 8)
    (listed : ∀ cls, ∀ b ∈ files' cls,
      ∃ x ∈ v.spans, x.block = b ∧ x.tag.allocated = false ∧ x.cls = cls)
    (journal : h'.journal = journal') :
    h'.Shows { v with files := files', journal := journal' } where
  chained := by
    rw [keeps.prologue]
    apply shown.chained.of_payloads shown.room_eight keeps.size keeps.byte
    intro i change
    obtain ⟨x, member, link⟩ := links i change
    have := shown.room x member
    exact ⟨x, member, by unfold Span.Payload; omega⟩
  room := shown.room
  prologue_aligned := by rw [keeps.prologue]; exact shown.prologue_aligned
  filed := filed
  ends := by rw [keeps.size]; exact shown.ends
  clear := shown.clear
  listed := listed
  terminator := by rw [keeps.terminator, keeps.prologue, shown.terminator]
  journal := journal

/-- Unlisted blocks in which no list ends are replaced by others that tile the same bytes. -/
theorem retile {left middle middle' right : List Span} {m' : M} (shown : h.Shows v)
    (split : v.spans = left ++ middle ++ right)
    (unlisted : ∀ y ∈ middle, ∀ cls, y.block ∉ v.files cls) (avoided : ∀ y ∈ middle, v.Avoids y)
    (tiled : ∀ low high, Tiles low middle high → Tiles low middle' high)
    (same_size : Memory.size m' = Memory.size h.memory)
    (same : ∀ i, (∀ y ∈ middle, ¬y.Covers i) → Memory.byte m' i = Memory.byte h.memory i)
    (written : ∀ y ∈ middle', y.Written m') (room : ∀ y ∈ middle', 16 ≤ y.tag.size) :
    ({ h with memory := m' } : Heap M).Shows { v with spans := left ++ middle' ++ right } := by
  have chained := split ▸ shown.chained
  have listed : ∀ cls, ∀ b ∈ v.files cls,
      ∃ x ∈ left ++ right, x.block = b ∧ x.tag.allocated = false ∧ x.cls = cls := by
    intro cls b visited
    obtain ⟨x, member, rfl, rest⟩ := shown.listed cls b visited
    exact ⟨x, mem_around (split ▸ member) fun inner => unlisted x inner cls visited, rfl, rest⟩
  have old_room : ∀ x ∈ left ++ right, 16 ≤ x.tag.size := fun x outer =>
    shown.room x (split ▸ mem_of_around middle outer)
  obtain ⟨low, high, covered, _⟩ := shown.stretch split
  constructor
  · exact chained.retile (fun x outer => Nat.le_trans (by decide) (old_room x outer)) tiled
      same_size same written
  · intro x member
    by_cases new : x ∈ middle'
    · exact room x new
    · exact old_room x (mem_around member new)
  · exact shown.prologue_aligned
  · apply shown.filed.of_same (Nat.le_of_eq same_size.symm)
    · intro cls c visited i first last
      obtain ⟨x, outer, rfl, _⟩ := listed cls c visited
      have := old_room x outer
      exact same i (chained.tiles.not_covers outer (by unfold Span.Covers; omega))
    · intro stop ending i first last
      apply same i
      intro y inner covers
      have := avoided y inner stop ending
      unfold Span.Covers at covers
      omega
  · exact same_size ▸ shown.ends
  · intro x member unused
    by_cases new : x ∈ middle'
    · intro stop ending
      exact covered.avoid (tiled low high covered) (fun z inner => by have := room z inner; omega)
        (fun y inner => avoided y inner stop ending) new
    · exact shown.clear x (split ▸ mem_of_around middle (mem_around member new)) unused
  · intro cls b visited
    obtain ⟨x, outer, rest⟩ := listed cls b visited
    exact ⟨x, mem_of_around middle' outer, rest⟩
  · exact shown.terminator
  · exact shown.journal

end Shows

theorem record_shows (shown : h.Shows v) (entry : Entry) :
    ∃ h', record entry h = .ok () h' ∧ h'.Shows (v.note entry) ∧ h.Keeps h' fun _ => False :=
  ⟨_, record_apply entry, { shown with journal := congrArg (·.push entry) shown.journal },
    ⟨rfl, fun _ _ => rfl, rfl, rfl, rfl⟩⟩

theorem remove_shows (shown : h.Shows v) (bounded : Memory.size h.memory < offsetLimit)
    (member : x ∈ v.spans) (listed : x.block ∈ v.files x.cls) :
    ∃ h', remove x.block h = .ok () h' ∧ h'.Shows (v.unfile x) ∧
      h.Keeps h' (v.unfile x).Linked := by
  obtain ⟨h', ran, filed, keeps, journal⟩ :=
    remove_filed shown.filed bounded (shown.read member) listed
  have links : ∀ i, (∃ p ∈ (v.files x.cls).erase x.block, p ≤ i ∧ i < p + 8) →
      (v.unfile x).Linked i := by
    rintro i ⟨p, stays, link⟩
    obtain ⟨different, old⟩ := (shown.filed.nodup _).mem_erase_iff.mp stays
    obtain ⟨y, other, rfl, unused, same⟩ := shown.listed _ p old
    refine ⟨y, other, unused, ?_, link⟩
    rw [View.mem_unfile (shown.filed.nodup _), same]
    exact ⟨fun both => different both.1, old⟩
  refine ⟨h', ran, shown.relisted filed keeps ?_ ?_ ?_, keeps.mono links⟩
  · intro i change
    obtain ⟨y, other, _, _, link⟩ := links i change
    exact ⟨y, other, link⟩
  · intro cls b stays
    exact shown.listed cls b ((View.mem_unfile (shown.filed.nodup _)).mp stays).2
  · rw [journal, shown.journal]
    rfl

theorem insert_shows (shown : h.Shows v) (bounded : Memory.size h.memory < offsetLimit)
    (member : x ∈ v.spans) (unused : x.tag.allocated = false)
    (unlisted : ∀ cls, x.block ∉ v.files cls) :
    ∃ h', insert x.block h = .ok () h' ∧ h'.Shows (v.file x) ∧ h.Keeps h' x.InLink := by
  have room := shown.room x member
  have bounds := shown.within member
  have beside : ∀ cls, ∀ c ∈ v.files cls, Apart c x.block := by
    intro cls c other
    obtain ⟨y, inside, rfl, _⟩ := shown.listed cls c other
    exact shown.apart inside member fun same => unlisted cls (same ▸ other)
  obtain ⟨h', ran, filed, keeps, journal⟩ :=
    insert_filed shown.filed bounded (shown.read member) unused (by omega) beside
      fun _ => shown.ends_past member (shown.clear x member unused)
  refine ⟨h', ran, shown.relisted filed keeps (fun i link => ⟨x, member, link⟩) ?_ ?_, keeps⟩
  · intro cls b stays
    rcases View.mem_file.mp stays with ⟨rfl, rfl⟩ | old
    · exact ⟨x, member, rfl, unused, rfl⟩
    · exact shown.listed cls b old
  · rw [journal, shown.journal]
    rfl

/-- What a request leaves alone: the payloads of some blocks, and all in front of the blocks. -/
structure Spares (h h' : Heap M) (spans : List Span) : Prop where
  size_le : Memory.size h.memory ≤ Memory.size h'.memory
  byte : ∀ y ∈ spans, ∀ i, y.Payload i → Memory.byte h'.memory i = Memory.byte h.memory i
  front : ∀ i < h.prologue + 4, Memory.byte h'.memory i = Memory.byte h.memory i
  prologue : h'.prologue = h.prologue
  config : h'.config = h.config

namespace Spares

variable {h'' : Heap M} {spans spans' : List Span}

theorem refl (h : Heap M) (spans : List Span) : h.Spares h spans :=
  ⟨Nat.le_refl _, fun _ _ _ _ => rfl, fun _ _ => rfl, rfl, rfl⟩

theorem trans (first : h.Spares h' spans) (second : h'.Spares h'' spans) : h.Spares h'' spans where
  size_le := Nat.le_trans first.size_le second.size_le
  byte y member i payload := (second.byte y member i payload).trans (first.byte y member i payload)
  front i low := (second.front i (first.prologue ▸ low)).trans (first.front i low)
  prologue := second.prologue.trans first.prologue
  config := second.config.trans first.config

theorem mono (spares : h.Spares h' spans) (fewer : ∀ y ∈ spans', y ∈ spans) :
    h.Spares h' spans' :=
  { spares with byte := fun y member => spares.byte y (fewer y member) }

theorem nil (spares : h.Spares h' spans) : h.Spares h' [] := spares.mono (by simp)

end Spares

theorem Keeps.spares {changed : Nat → Prop} {spans : List Span} (keeps : h.Keeps h' changed)
    (clear : ∀ y ∈ spans, ∀ i, y.Payload i → ¬changed i)
    (behind : ∀ i, changed i → h.prologue + 4 ≤ i) : h.Spares h' spans where
  size_le := Nat.le_of_eq keeps.size.symm
  byte y member i payload := keeps.byte i (clear y member i payload)
  front i low := keeps.byte i fun change => Nat.not_le.mpr low (behind i change)
  prologue := keeps.prologue
  config := keeps.config

end Heap

end SegregatedFit
