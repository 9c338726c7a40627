import SegregatedFit.Proofs.Borders

namespace SegregatedFit

section Ends

variable {front : List Span} {p : Span}

theorem restLeft_of_none {left : List Span} (last : freeLast left = none) :
    restLeft left = left := by
  simp only [restLeft, last]

theorem freeLast_concat (unused : p.tag.allocated = false) : freeLast (front ++ [p]) = some p := by
  rw [freeLast_append, unused, if_neg Bool.false_ne_true]

theorem restLeft_concat (unused : p.tag.allocated = false) : restLeft (front ++ [p]) = front := by
  simp only [restLeft, freeLast_concat unused, List.dropLast_concat]

end Ends

namespace Heap

variable {A : Type} [Arena A] {h h' : Heap A} {spans : List Span} {files : SizeClass → List Nat}
  {bytes size : Nat}

theorem grow_congr (same : roundUp bytes Block.alignment = roundUp size Block.alignment) :
    grow bytes h = grow size h := by
  simp only [grow, same]

/-- The heap gained `size` bytes, and with them the free block of `y` at the end of its chain. -/
structure Appends (h h' : Heap A) (spans : List Span) (files : SizeClass → List Nat) (size : Nat)
    (y : Span) : Prop where
  grown : Memory.size h'.memory = Memory.size h.memory + size
  unused : y.tag.allocated = false
  ends : y.block + y.tag.size = Memory.size h'.memory
  epilogue : ∃ t, Block.tag h'.memory (Memory.size h'.memory) = .ok t ∧ t.size = 0 ∧
    t.allocated = true
  head : h'.lists.head y.cls = y.block
  intact : h.Intact h' spans
  /-- Behind a block in use, and behind none, the new bytes are a block of their own. -/
  alone : (∀ p ∈ spans.getLast?, p.tag.allocated = true) →
    y.block = Memory.size h.memory ∧ y.tag.size = size ∧
      h'.Regular (spans ++ [y]) (enlist files y)
  /-- A free block at the end leaves its list and goes on to the new end. -/
  joined : ∀ front p, spans = front ++ [p] → p.tag.allocated = false →
    y.block = p.block ∧ y.tag.size = p.tag.size + size ∧
      h'.Regular (front ++ [y]) (enlist (without files [p]) y)

namespace Regular

variable (regular : h.Regular spans files) (aligned : spans = [] → h.prologue % 8 = 0)

include regular aligned

theorem shows_plain : h.Shows (h.plainView spans files) := by
  apply regular.shows_of_aligned fun _ member => member
  by_cases empty : spans = []
  · exact aligned empty
  · exact regular.prologue_aligned empty

theorem grow_regular (room : 16 ≤ size) (divides : size % 8 = 0)
    (fits : Memory.size h.memory + size ≤ Tag.maxSize)
    (admitted : Arena.admits h.memory size = .ok true) :
    ∃ y h', y = coalesced spans (.of (Memory.size h.memory) size false) [] ∧
      grow size h = .ok (.ok y.block) h' ∧
      y.tag.size = mergedSize spans (.of (Memory.size h.memory) size false) [] ∧
      y.tag.allocated = false ∧ Memory.size h'.memory = Memory.size h.memory + size ∧
      h'.Regular (restLeft spans ++ [y]) (enlist (without files (freeLast spans).toList) y) ∧
      h.Intact h' spans := by
  have shown := regular.shows_plain aligned
  obtain ⟨h', ran, shown', settled, grown, loose, total⟩ :=
    grow_extends shown regular.settled room divides fits admitted
  obtain ⟨_, _, shown₁, _⟩ := record_shows (extended_shows shown admitted room divides (by omega))
    (.extended size (Memory.size h.memory))
  have spans' : ((h.plainView spans files).grow (Memory.size h.memory) size).spans =
      restLeft spans ++ [coalesced spans (.of (Memory.size h.memory) size false) []] :=
    loose.coalesce_spans
  have files' : ((h.plainView spans files).grow (Memory.size h.memory) size).files =
      enlist (without files (freeLast spans).toList)
        (coalesced spans (.of (Memory.size h.memory) size false) []) :=
    shown₁.files_coalesce loose
  have again := shown'.regular settled <| by
    intro stop ending
    rw [View.ends_grow] at ending
    exact ending.trans grown.prologue.symm
  rw [spans', files'] at again
  refine ⟨_, h', rfl, ran, coalesced_size total, coalesced_free loose.unused total, grown.size,
    again, ?_⟩
  intro z member used i covers
  have old : i + 4 < Memory.size h.memory := by
    have bounds := shown.within member
    unfold Span.Covers at covers
    omega
  apply grown.byte i old
  apply shown'.not_marked _ covers
  have same : ((h.plainView spans files).grow (Memory.size h.memory) size).used =
      (h.plainView spans files).used :=
    (loose.used_coalesce total).trans (View.used_add loose.unused)
  rw [same]
  exact View.mem_used.mpr ⟨member, used⟩

theorem grow_appends (room : 16 ≤ size) (divides : size % 8 = 0)
    (fits : Memory.size h.memory + size ≤ Tag.maxSize)
    (admitted : Arena.admits h.memory size = .ok true) :
    ∃ y h', grow size h = .ok (.ok y.block) h' ∧ h.Appends h' spans files size y := by
  obtain ⟨y, h', merged_eq, ran, total, unused, grown, again, intact⟩ :=
    regular.grow_regular aligned room divides fits admitted
  have new_size : (Tag.of size false).size = size := Tag.size_of false (by omega) divides
  refine ⟨y, h', ran, ?_⟩
  constructor
  · exact grown
  · exact unused
  · obtain ⟨_, tiles⟩ := again.chained.tiles.around
    exact tiles
  · exact again.chained.epilogue
  · exact again.head_enlist
  · exact intact
  · intro used
    have last : freeLast spans = none := freeLast_eq_none used
    rw [restLeft_of_none last, last, Option.toList_none, without_nil] at again
    have alone : y = .of (Memory.size h.memory) size false := by
      rw [merged_eq, coalesced, last]
      rfl
    exact ⟨congrArg Span.block alone, (congrArg (·.tag.size) alone).trans new_size, again⟩
  · intro front p split free
    subst split
    have last : freeLast (front ++ [p]) = some p := freeLast_concat free
    rw [restLeft_concat free, last, Option.toList_some] at again
    have joined : y.block = p.block := by
      rw [merged_eq]
      exact coalesced_block last
    refine ⟨joined, ?_, again⟩
    rw [total]
    simp [mergedSize, merged, last, freeHead, new_size]

end Regular

/-- Growing answers, and it grows the heap unless the growth is refused. The arena gains the bytes
that were asked for, rounded up to whole units, and the heap a free block up to its new end. As long
as there is no block the alignment is that of the prologue, which the first block comes behind. -/
theorem grow_seamless (regular : h.Regular spans files)
    (aligned : spans = [] → h.prologue % 8 = 0) (room : 16 ≤ bytes) (small : bytes ≤ Tag.maxSize)
    (rounded : IsLeast {n | n % 8 = 0 ∧ bytes ≤ n} size) :
    ∃ answer h', grow bytes h = .ok answer h' ∧
      ((∃ b, answer = .ok b) ↔ ¬Refused h.memory size) ∧
      ∀ b, answer = .ok b → ∃ y, y.block = b ∧ h.Appends h' spans files size y := by
  obtain ⟨divides, enough⟩ := rounded.1
  have limit : Tag.maxSize + 16 < offsetLimit := by decide
  have size_eq : size = (bytes + 7) / 8 * 8 := rounded.unique (isLeast_roundUp bytes)
  have same : roundUp bytes Block.alignment = roundUp size Block.alignment := by
    calc
      roundUp bytes Block.alignment = .ok ((bytes + 7) / 8 * 8) := roundUp_eight (by omega)
      _ = .ok size := by rw [size_eq]
      _ = roundUp size Block.alignment := (roundUp_of_divides divides (by omega)).symm
  rw [grow_congr same]
  rcases admission h size with refused | ⟨fits, admitted⟩
  · have ran := grow_of_refused (roundUp_of_divides divides (by omega)) refused
    refine ⟨_, _, ran, ?_, ?_⟩
    · simp [refused]
    · simp
  · obtain ⟨y, h', ran, appends⟩ := regular.grow_appends aligned (by omega) divides fits admitted
    refine ⟨_, h', ran, ?_, ?_⟩
    · have granted : ¬Refused h.memory size := by
        unfold Refused
        rw [admitted]
        simpa using fits
      simp [granted]
    · intro b found
      exact ⟨y, Except.ok.inj found, appends⟩

theorem tail_outcome :
    (Session.outcome (Buffer.new 300) ⟨256, 64⟩ [.allocate 32]).map (fun ended =>
      decide (ended.2.heap.chain = .ok [⟨16, ⟨41⟩⟩, ⟨56, ⟨24⟩⟩] ∧
        Memory.size ended.2.heap.memory = 80 ∧
        Arena.admits ended.2.heap.memory 24 = .ok true)) = some true := by
  decide +kernel

theorem tail_grown : ∃ (s : Session Buffer) (files : SizeClass → List Nat),
    s.heap.Regular [⟨16, ⟨41⟩⟩, ⟨56, ⟨24⟩⟩] files ∧ 16 ≤ 20 ∧ 20 ≤ Tag.maxSize ∧
      IsLeast {n | n % 8 = 0 ∧ 20 ≤ n} 24 ∧
      ∃ (h' : Heap Buffer) (y : Span), grow 20 s.heap = .ok (.ok 56) h' ∧ y.block = 56 ∧
        y.tag.size = 48 ∧ Memory.size h'.memory = 104 ∧
        h'.Regular [⟨16, ⟨41⟩⟩, y] (enlist (without files [⟨56, ⟨24⟩⟩]) y) := by
  obtain ⟨⟨answers, s⟩, ended, facts⟩ := Option.map_eq_some_iff.mp tail_outcome
  obtain ⟨walked, size, admitted⟩ := of_decide_eq_true facts
  obtain ⟨files, regular⟩ := (Session.Reached.of_outcome (by decide) ended).regular walked
  have least : IsLeast {n | n % 8 = 0 ∧ 20 ≤ n} 24 := isLeast_roundUp 20
  obtain ⟨answer, h', ran, granted, grows⟩ :=
    grow_seamless regular (fun empty => by cases empty) (by decide) (by decide) least
  have fits : ¬Refused s.heap.memory 24 := by
    unfold Refused
    rw [size, admitted]
    decide
  obtain ⟨b, answered⟩ := granted.mpr fits
  obtain ⟨y, here, appends⟩ := grows b answered
  obtain ⟨first, total, again⟩ := appends.joined [⟨16, ⟨41⟩⟩] ⟨56, ⟨24⟩⟩ rfl (by decide)
  have same : b = 56 := here.symm.trans first
  rw [answered, same] at ran
  refine ⟨s, files, regular, by decide, by decide, least, h', y, ran, first, total, ?_, again⟩
  rw [appends.grown, size]

end Heap

namespace Session

/-- The prologue of a session is aligned, so its heap can always grow like this. -/
theorem Reached.appends {A : Type} [Arena A] {s : Session A} {spans : List Span} {size : Nat}
    (reached : Reached s) (walked : s.heap.chain = .ok spans) (room : 16 ≤ size)
    (divides : size % 8 = 0) (granted : ¬Heap.Refused s.heap.memory size) :
    ∃ files y h', Heap.grow size s.heap = .ok (.ok y.block) h' ∧
      s.heap.Appends h' spans files size y := by
  obtain ⟨files, regular⟩ := reached.regular walked
  obtain ⟨v, kept⟩ := reached.kept
  rcases Heap.admission s.heap size with refused | ⟨fits, admitted⟩
  · exact absurd refused granted
  · obtain ⟨y, h', ran, appends⟩ := regular.grow_appends
      (fun _ => kept.sound.shown.prologue_aligned) room divides fits admitted
    exact ⟨files, y, h', ran, appends⟩

end Session

end SegregatedFit
