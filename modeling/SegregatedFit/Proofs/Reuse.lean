import SegregatedFit.Proofs.Allocation
import SegregatedFit.Proofs.Canonical
import SegregatedFit.Proofs.Extension
import SegregatedFit.Proofs.Search

/-!
Giving a block back and asking for it again. The block merges with what was left of it when it was
handed out, heads the list of its size, and is the first that the next search comes to. So it is
handed out once more, and the heap is as it was before it was given back.
-/

namespace SegregatedFit

namespace SizeClass

theorem mem_take {cls c : SizeClass} : cls ∈ all.take c ↔ cls < c := by
  constructor
  · exact lt_of_mem_take
  · intro below
    have lower : cls.val < c.val := below
    apply List.mem_take_iff_getElem.mpr
    refine ⟨cls, ?_, by simp [all]⟩
    simp only [all, List.length_finRange]
    omega

theorem all_split (c : SizeClass) : ∃ back, all = all.take c ++ c :: back := by
  have inside : c.val < all.length := by simp [all]
  have here : all[c.val] = c := by simp [all]
  refine ⟨all.drop (c.val + 1), ?_⟩
  conv_lhs => rw [← List.take_append_drop c.val all, List.drop_eq_getElem_cons inside, here]

end SizeClass

def freed (x : Span) : Span := .of x.block x.tag.size false

def remainder (x : Span) (wanted : Nat) : List Span :=
  if Block.minSize ≤ x.tag.size - wanted then [leftover x wanted] else []

/-- The bytes that chain and lists determine: those of all tags, and of the links of free blocks. -/
def Determined (spans : List Span) (i : Nat) : Prop :=
  ∃ y ∈ spans, y.InTags i ∨ y.tag.allocated = false ∧ y.InLink i

def enlistAll (files : SizeClass → List Nat) (added : List Span) : SizeClass → List Nat :=
  added.foldl enlist files

section Parts

variable {x : Span} {wanted : Nat} {left right : List Span}

@[simp] theorem block_freed (x : Span) : (freed x).block = x.block := rfl

@[simp] theorem size_freed (x : Span) : (freed x).tag.size = x.tag.size :=
  Tag.size_of false x.tag.size_le x.tag.size_mod

@[simp] theorem allocated_freed (x : Span) : (freed x).tag.allocated = false :=
  Tag.allocated_of false x.tag.size_le x.tag.size_mod

@[simp] theorem cls_freed (x : Span) : (freed x).cls = x.cls := by
  rw [Span.cls, size_freed, Span.cls]

@[simp] theorem taken_freed (x : Span) (wanted : Nat) : taken (freed x) wanted = taken x wanted := by
  simp [taken]

@[simp] theorem leftover_freed (x : Span) (wanted : Nat) :
    leftover (freed x) wanted = leftover x wanted := by
  simp [leftover]

@[simp] theorem remainder_freed (x : Span) (wanted : Nat) :
    remainder (freed x) wanted = remainder x wanted := by
  simp [remainder]

theorem remainder_of_left_over (left_over : Block.minSize ≤ x.tag.size - wanted) :
    remainder x wanted = [leftover x wanted] :=
  if_pos left_over

theorem remainder_of_whole (whole : ¬Block.minSize ≤ x.tag.size - wanted) :
    remainder x wanted = [] :=
  if_neg whole

theorem parts_cases (divides : wanted % 8 = 0) (fits : wanted ≤ x.tag.size) :
    (taken x wanted).tag.size = wanted ∧ remainder x wanted = [leftover x wanted] ∨
      (taken x wanted).tag.size = x.tag.size ∧ remainder x wanted = [] := by
  have size := size_taken divides fits
  by_cases left_over : Block.minSize ≤ x.tag.size - wanted
  · rw [if_pos left_over] at size
    exact .inl ⟨size, remainder_of_left_over left_over⟩
  · rw [if_neg left_over] at size
    exact .inr ⟨size, remainder_of_whole left_over⟩

section Merging

variable (head : freeHead right = none) (divides : wanted % 8 = 0)

include head divides

theorem freeHead_remainder :
    freeHead (remainder x wanted ++ right) = (remainder x wanted).head? := by
  by_cases left_over : Block.minSize ≤ x.tag.size - wanted
  · rw [remainder_of_left_over left_over, List.singleton_append, freeHead_cons,
      allocated_leftover divides, if_neg Bool.false_ne_true]
    rfl
  · rw [remainder_of_whole left_over]
    exact head

theorem restRight_remainder : restRight (remainder x wanted ++ right) = right := by
  unfold restRight
  rw [freeHead_remainder head divides]
  by_cases left_over : Block.minSize ≤ x.tag.size - wanted
  · rw [remainder_of_left_over left_over]
    rfl
  · rw [remainder_of_whole left_over]
    rfl

variable (last : freeLast left = none)

include last

theorem absorbed_remainder :
    absorbed left (remainder x wanted ++ right) = remainder x wanted := by
  rw [absorbed, last, freeHead_remainder head divides]
  by_cases left_over : Block.minSize ≤ x.tag.size - wanted
  · rw [remainder_of_left_over left_over]
    rfl
  · rw [remainder_of_whole left_over]
    rfl

variable (fits : wanted ≤ x.tag.size)

include fits

theorem mergedSize_remainder :
    mergedSize left (freed (taken x wanted)) (remainder x wanted ++ right) = x.tag.size := by
  rw [mergedSize, merged, last, freeHead_remainder head divides]
  rcases parts_cases divides fits with ⟨size, rest⟩ | ⟨size, rest⟩
  · simp [rest, size, size_leftover divides]
    omega
  · simp [rest, size]

theorem coalesced_remainder :
    coalesced left (freed (taken x wanted)) (remainder x wanted ++ right) = freed x := by
  rw [coalesced, last, freeHead_remainder head divides]
  rcases parts_cases divides fits with ⟨size, rest⟩ | ⟨size, rest⟩ <;> rw [rest]
  · change Span.of x.block ((freed (taken x wanted)).tag.size + (leftover x wanted).tag.size) false =
      freed x
    rw [size_freed, size, size_leftover divides, Nat.add_sub_cancel' fits]
    rfl
  · change freed (taken x wanted) = freed x
    rw [freed, size]
    rfl

end Merging

/-- The tags and the link of the block lie in its parts: in the tags of one of them, or in the
payload of the part that was taken. -/
theorem marks_of_parts (room : 16 ≤ wanted) (divides : wanted % 8 = 0) (fits : wanted ≤ x.tag.size)
    {i : Nat} (marks : (freed x).InTags i ∨ (freed x).InLink i) :
    (taken x wanted).Payload i ∨ ∃ z ∈ taken x wanted :: remainder x wanted, z.InTags i := by
  have here : (taken x wanted).block = x.block := rfl
  unfold Span.InTags Span.InLink at marks
  rw [block_freed, size_freed] at marks
  by_cases payload : (taken x wanted).Payload i
  · exact .inl payload
  · right
    unfold Span.Payload at payload
    rcases parts_cases divides fits with ⟨size, rest⟩ | ⟨size, rest⟩ <;> rw [rest]
    · have left_size : (leftover x wanted).tag.size = x.tag.size - wanted := size_leftover divides
      have behind : (leftover x wanted).block = x.block + wanted := rfl
      by_cases front : i < x.block
      · refine ⟨taken x wanted, by simp, ?_⟩
        unfold Span.InTags
        omega
      · refine ⟨leftover x wanted, by simp, ?_⟩
        unfold Span.InTags
        omega
    · refine ⟨taken x wanted, by simp, ?_⟩
      unfold Span.InTags
      omega

theorem Marked.determined {spans : List Span} {i : Nat} (marked : Marked spans i) :
    Determined spans i := by
  obtain ⟨y, member, unused, marks⟩ := marked
  exact ⟨y, member, marks.imp_right fun link => ⟨unused, link⟩⟩

/-- What was written to give the block back is in the payload of the part that was taken, or it is
determined by the chain with the parts. -/
theorem Marked.of_freed (room : 16 ≤ wanted) (divides : wanted % 8 = 0)
    (fits : wanted ≤ x.tag.size) {i : Nat} (marked : Marked (left ++ freed x :: right) i) :
    (taken x wanted).Payload i ∨
      Determined (left ++ taken x wanted :: (remainder x wanted ++ right)) i := by
  obtain ⟨y, member, unused, marks⟩ := marked
  rw [List.append_cons] at member
  by_cases here : y ∈ [freed x]
  · rw [List.mem_singleton.mp here] at marks
    rcases marks_of_parts room divides fits marks with payload | ⟨z, part, tagged⟩
    · exact .inl payload
    · refine .inr ⟨z, ?_, .inl tagged⟩
      simp only [List.mem_append, List.mem_cons] at part ⊢
      tauto
  · have outer := mem_of_around (taken x wanted :: remainder x wanted) (mem_around member here)
    refine .inr ⟨y, by simpa using outer, marks.imp_right fun link => ⟨unused, link⟩⟩

section Lists

variable {files : SizeClass → List Nat} {y : Span}

theorem without_enlist (fresh : ∀ cls, y.block ∉ files cls) :
    without (enlist files y) [y] = files := by
  funext cls
  have others : (files cls).filter (fun b => b ∉ [y].map Span.block) = files cls := by
    apply List.filter_eq_self.mpr
    intro b listed
    have different : b ≠ y.block := fun same => fresh cls (same ▸ listed)
    simpa using different
  by_cases same : cls = y.cls
  · subst same
    simpa [without, enlist] using others
  · simpa [without, enlist, same] using others

theorem not_mem_without (cls : SizeClass) : y.block ∉ without files [y] cls := by
  simp [without]

end Lists

end Parts

theorem FreeLists.eq_of_heads {lists lists' : FreeLists}
    (heads : ∀ cls, lists'.head cls = lists.head cls)
    (ends : lists'.terminator = lists.terminator) : lists' = lists := by
  have vectors : lists'.heads = lists.heads := Vector.ext fun i inside => heads ⟨i, inside⟩
  cases lists
  cases lists'
  simp_all

namespace Heap

variable {A : Type} [Arena A] {h h' : Heap A} {spans kept left right : List Span} {x y : Span}
  {files : SizeClass → List Nat} {wanted : Nat}

section Rejournal

variable (journal : Array Entry)

theorem Arranged.rejournal (arranged : h.Arranged spans kept files) :
    ({ h with journal := journal } : Heap A).Arranged spans kept files :=
  ⟨arranged.chained, arranged.room, arranged.aligned, arranged.threaded, arranged.nodup,
    arranged.listed, arranged.terminator⟩

theorem Regular.rejournal (regular : h.Regular spans files) :
    ({ h with journal := journal } : Heap A).Regular spans files :=
  ⟨regular.toArranged.rejournal journal, regular.apart⟩

theorem Unfiled.rejournal (unfiled : h.Unfiled left x right files) :
    ({ h with journal := journal } : Heap A).Unfiled left x right files :=
  ⟨unfiled.toArranged.rejournal journal, unfiled.unused, unfiled.left_apart, unfiled.right_apart⟩

theorem Keeps.rejournal {changed : Nat → Prop} (keeps : h.Keeps h' changed) :
    h.Keeps { h' with journal := journal } changed :=
  ⟨keeps.size, keeps.byte, keeps.prologue, keeps.config, keeps.terminator⟩

end Rejournal

namespace Regular

theorem fresh_of_enlist (regular : h.Regular spans (enlist files y)) (member : y ∈ spans) :
    ∀ cls, y.block ∉ files cls := by
  intro cls listed
  by_cases same : cls = y.cls
  · have nodup := regular.nodup y.cls
    rw [enlist, Function.update_self, List.nodup_cons] at nodup
    exact nodup.1 (same ▸ listed)
  · have here : y.block ∈ enlist files y cls := by
      rw [enlist, Function.update_of_ne same]
      exact listed
    obtain ⟨z, other, block, _, cls_eq⟩ := (regular.listed cls y.block).mp here
    have equal := regular.chained.tiles.eq_of_block regular.room_pos other member block
    exact same (cls_eq.symm.trans (congrArg Span.cls equal))

theorem carves (regular : h.Regular (left ++ x :: right) files)
    (bounded : Memory.size h.memory < offsetLimit) (unused : x.tag.allocated = false)
    (room : 16 ≤ wanted) (divides : wanted % 8 = 0) (fits : wanted ≤ x.tag.size) :
    ∃ h', carve x.block wanted h = .ok () h' ∧
      h'.Regular (left ++ taken x wanted :: (remainder x wanted ++ right))
        (enlistAll (without files [x]) (remainder x wanted)) ∧
      h.Keeps h' (Carved (left ++ taken x wanted :: (remainder x wanted ++ right))
        (taken x wanted)) := by
  by_cases left_over : Block.minSize ≤ x.tag.size - wanted
  · obtain ⟨h', ran, again, _, keeps⟩ :=
      regular.carve_splits bounded unused divides room left_over
    rw [remainder_of_left_over left_over]
    exact ⟨h', ran, again, keeps⟩
  · obtain ⟨h', ran, again, _, keeps⟩ :=
      regular.carve_takes_all bounded unused divides fits left_over
    rw [remainder_of_whole left_over]
    exact ⟨h', ran, again, keeps⟩

theorem releases (regular : h.Regular (left ++ x :: right) files)
    (bounded : Memory.size h.memory < offsetLimit) (used : x.tag.allocated = true)
    (fits : mergedSize left (freed x) right ≤ Tag.maxSize) :
    ∃ h', releaseBlock x.block h = .ok () h' ∧
      h'.Regular (restLeft left ++ coalesced left (freed x) right :: restRight right)
        (enlist (without files (absorbed left right)) (coalesced left (freed x) right)) ∧
      h.Keeps h' fun i => x.InTags i ∨
        Marked (restLeft left ++ coalesced left (freed x) right :: restRight right) i := by
  obtain ⟨h₁, ran₁, unfiled, keeps₁⟩ := regular.setTags_free bounded used
  have size := Block.size_of_tag (regular.header (show x ∈ left ++ x :: right by simp))
  have noted := keeps₁.rejournal (h₁.journal.push (.released x.block x.tag.size))
  obtain ⟨h₂, ran₂, again, _, keeps₂⟩ :=
    (unfiled.rejournal (h₁.journal.push (.released x.block x.tag.size))).coalesces
      (keeps₁.size ▸ bounded) fits
  refine ⟨h₂, ?_, again, (noted.mono fun i tagged => .inl tagged).trans
    (keeps₂.mono fun i marked => .inr marked)⟩
  simp only [releaseBlock, query_bind, size]
  rw [bind_of_ok ran₁, bind_of_ok (record_apply _)]
  exact discard_of_ok ran₂

theorem releases_taken
    (regular : h.Regular (left ++ taken x wanted :: (remainder x wanted ++ right))
      (enlistAll files (remainder x wanted)))
    (bounded : Memory.size h.memory < offsetLimit) (divides : wanted % 8 = 0)
    (fits : wanted ≤ x.tag.size) (last : freeLast left = none) (head : freeHead right = none) :
    ∃ h', releaseBlock x.block h = .ok () h' ∧
      h'.Regular (left ++ freed x :: right) (enlist files (freed x)) ∧
      h.Keeps h' fun i => (taken x wanted).InTags i ∨ Marked (left ++ freed x :: right) i := by
  have total := mergedSize_remainder head divides last fits
  obtain ⟨h', ran, again, keeps⟩ := regular.releases bounded (allocated_taken divides fits)
    (total.trans_le x.tag.size_le)
  have files' : without (enlistAll files (remainder x wanted)) (remainder x wanted) = files := by
    by_cases left_over : Block.minSize ≤ x.tag.size - wanted
    · rw [remainder_of_left_over left_over] at regular ⊢
      exact without_enlist (regular.fresh_of_enlist (by simp))
    · rw [remainder_of_whole left_over]
      exact without_nil files
  rw [coalesced_remainder head divides last fits, restLeft_of_none last,
    restRight_remainder head divides, absorbed_remainder head divides last, files'] at again
  rw [coalesced_remainder head divides last fits, restLeft_of_none last,
    restRight_remainder head divides] at keeps
  exact ⟨h', ran, again, keeps⟩

section Determined

variable (first : h.Regular spans files) (second : h'.Regular spans files)
  (prologue : h'.prologue = h.prologue)

include first second prologue

theorem byte_eq {i : Nat} (determined : Determined spans i) :
    Memory.byte h'.memory i = Memory.byte h.memory i := by
  obtain ⟨y, member, here⟩ := determined
  rcases here with tagged | ⟨unused, low, high⟩
  · exact (second.chained.written y member).byte_eq
      (Nat.le_trans (by decide) (second.room y member)) (first.chained.written y member) tagged
  · have listed := (first.listed y.cls y.block).mpr ⟨y, member, rfl, unused, rfl⟩
    obtain ⟨front, back, split⟩ := List.append_of_mem listed
    have link := (split ▸ first.threaded y.cls).link_eq
    have link' := (split ▸ second.threaded y.cls).link_eq
    rw [prologue] at link'
    exact Block.byte_eq_of_link link' link i low high

theorem lists_eq : h'.lists = h.lists := by
  have heads : ∀ cls, h'.lists.head cls = h.lists.head cls := by
    intro cls
    rw [(first.threaded cls).head_eq, (second.threaded cls).head_eq, prologue]
  have ends : h'.lists.terminator = h.lists.terminator := by
    rw [first.terminator, second.terminator, prologue]
  exact FreeLists.eq_of_heads heads ends

end Determined

end Regular

namespace Regular

variable (regular : h.Regular spans files) (request : wanted ≤ 1 <<< 63) (member : x ∈ spans)

include regular request member

theorem below_found (found : firstFit wanted h = .ok (some x.block) h) :
    ∀ z ∈ spans, z.tag.allocated = false → z.cls < x.cls → z.tag.size < wanted := by
  intro z inside unused below
  obtain ⟨back, split⟩ := SizeClass.all_split x.cls
  rw [regular.consistent.firstFit_eq request, split, List.flatMap_append, List.find?_append]
    at found
  have listed := (regular.listed z.cls z.block).mpr ⟨z, inside, rfl, unused, rfl⟩
  have entry : z.block ∈ (SizeClass.all.take x.cls).flatMap files :=
    List.mem_flatMap.mpr ⟨z.cls, SizeClass.mem_take.mpr below, listed⟩
  cases first : ((SizeClass.all.take x.cls).flatMap files).find?
      (fun b => wanted ≤ Block.sizeAt h.memory b) with
  | none =>
    have small := List.find?_eq_none.mp first z.block entry
    rw [Block.sizeAt_eq (regular.header inside)] at small
    simpa using small
  | some b =>
    -- it would be the block of `x`, which is on no list below its own
    rw [first, Option.some_or] at found
    injection found with same
    obtain ⟨cls, front, elsewhere⟩ := List.mem_flatMap.mp (List.mem_of_find?_eq_some first)
    obtain ⟨y, other, here, _, right_class⟩ := (regular.listed cls b).mp elsewhere
    have equal := regular.chained.tiles.eq_of_block regular.room_pos other member
      (here.trans (Option.some.inj same))
    have lower := SizeClass.mem_take.mp front
    rw [← right_class, equal] at lower
    exact absurd lower (Nat.lt_irrefl _)

theorem firstFit_head {rest : List Nat} (heads : files x.cls = x.block :: rest)
    (enough : wanted ≤ x.tag.size)
    (below : ∀ z ∈ spans, z.tag.allocated = false → z.cls < x.cls → z.tag.size < wanted) :
    firstFit wanted h = .ok (some x.block) h := by
  obtain ⟨back, split⟩ := SizeClass.all_split x.cls
  have passed : ((SizeClass.all.take x.cls).flatMap files).find?
      (fun b => wanted ≤ Block.sizeAt h.memory b) = none := by
    apply List.find?_eq_none.mpr
    intro b entry
    obtain ⟨cls, front, listed⟩ := List.mem_flatMap.mp entry
    obtain ⟨z, inside, _, unused, right_class, read⟩ := regular.consistent.sizeAt_listed listed
    have small := below z inside unused (right_class ▸ SizeClass.mem_take.mp front)
    rw [read]
    simpa using small
  have large : wanted ≤ Block.sizeAt h.memory x.block := by
    rw [Block.sizeAt_eq (regular.header member)]
    exact enough
  rw [regular.consistent.firstFit_eq request, split, List.flatMap_append, List.find?_append, passed,
    Option.none_or, List.flatMap_cons, heads, List.cons_append, List.find?_cons_of_pos (by simpa)]

end Regular

/-- The heap is in the same state again, but for its journal and for what is in the payload of `b`.
-/
structure Restores (h h' : Heap A) (b : Block) : Prop where
  lists : h'.lists = h.lists
  prologue : h'.prologue = h.prologue
  config : h'.config = h.config
  size : Memory.size h'.memory = Memory.size h.memory
  byte : ∀ i, ¬Block.InPayload h.memory b i →
    Memory.byte h'.memory i = Memory.byte h.memory i

/-- A search for `wanted` bytes finds the block of `x`. -/
structure Offers (h : Heap A) (left : List Span) (x : Span) (right : List Span)
    (files : SizeClass → List Nat) (wanted : Nat) : Prop where
  regular : h.Regular (left ++ x :: right) files
  unused : x.tag.allocated = false
  enough : wanted ≤ x.tag.size
  found : firstFit wanted h = .ok (some x.block) h
  small : Memory.size h.memory ≤ Tag.maxSize

namespace Offers

theorem found_again (offers : h.Offers left x right files wanted) (request : wanted ≤ 1 <<< 63)
    {files' : SizeClass → List Nat}
    (regular : h'.Regular (left ++ freed x :: right) (enlist files' (freed x))) :
    firstFit wanted h' = .ok (some x.block) h' := by
  have below := offers.regular.below_found request (show x ∈ left ++ x :: right by simp) offers.found
  apply regular.firstFit_head request (show freed x ∈ left ++ freed x :: right by simp)
    (Function.update_self ..)
  · rw [size_freed]
    exact offers.enough
  · intro z member unused lower
    rw [cls_freed] at lower
    have other : z ∉ [freed x] := by
      rw [List.mem_singleton]
      rintro rfl
      rw [cls_freed] at lower
      exact Nat.lt_irrefl _ lower
    rw [List.append_cons] at member
    exact below z (mem_cons_of_around (mem_around member other)) unused lower

theorem alone (offers : h.Offers left x right files wanted) :
    freeLast left = none ∧ freeHead right = none :=
  offers.regular.settled.alone rfl offers.unused

theorem bounded (offers : h.Offers left x right files wanted) :
    Memory.size h.memory < offsetLimit :=
  Nat.lt_of_le_of_lt offers.small (by decide)

variable {size : Nat}

theorem hands_out (offers : h.Offers left x right files (blockSize size)) :
    ∃ h', handOut size (blockSize size) (.ok x.block) h = .ok (.ok x.block) h' ∧
      h'.Regular (left ++ taken x (blockSize size) :: (remainder x (blockSize size) ++ right))
        (enlistAll (without files [x]) (remainder x (blockSize size))) ∧
      h.Keeps h' (Carved (left ++ taken x (blockSize size) ::
        (remainder x (blockSize size) ++ right)) (taken x (blockSize size))) := by
  obtain ⟨room, divides, _⟩ := blockSize_spec size
  obtain ⟨h', ran, regular, keeps⟩ := offers.regular.carves offers.bounded offers.unused room divides
    offers.enough
  refine ⟨_, ?_, regular.rejournal (h'.journal.push (.allocated size x.block)),
    keeps.rejournal _⟩
  simp only [handOut, bind_of_ok ran, bind_of_ok (record_apply _), pure_apply]

theorem released (offers : h.Offers left x right files wanted) (request : wanted ≤ 1 <<< 63)
    (divides : wanted % 8 = 0)
    (regular : h'.Regular (left ++ taken x wanted :: (remainder x wanted ++ right))
      (enlistAll (without files [x]) (remainder x wanted)))
    (small : Memory.size h'.memory ≤ Tag.maxSize) :
    ∃ h'', releaseBlock x.block h' = .ok () h'' ∧
      h''.Offers left (freed x) right (enlist (without files [x]) (freed x)) wanted ∧
      h'.Keeps h'' fun i => (taken x wanted).InTags i ∨ Marked (left ++ freed x :: right) i := by
  obtain ⟨last, head⟩ := offers.alone
  obtain ⟨h'', ran, again, keeps⟩ := regular.releases_taken
    (Nat.lt_of_le_of_lt small (by decide)) divides offers.enough last head
  refine ⟨h'', ran, ⟨again, allocated_freed x, ?_, offers.found_again request again, ?_⟩, keeps⟩
  · rw [size_freed]
    exact offers.enough
  · rw [keeps.size]
    exact small

theorem restores (offers : h.Offers left x right files (blockSize size))
    (fits : blockSize size ≤ Tag.maxSize)
    (handed : handOut size (blockSize size) (.ok x.block) h = .ok (.ok x.block) h') :
    ∃ h₂ h₃, releaseBlock x.block h' = .ok () h₂ ∧
      h₂.Offers left (freed x) right (enlist (without files [x]) (freed x)) (blockSize size) ∧
      handOut size (blockSize size) (.ok x.block) h₂ = .ok (.ok x.block) h₃ ∧
      h'.Restores h₃ x.block := by
  obtain ⟨room, divides, _⟩ := blockSize_spec size
  have request : blockSize size ≤ 1 <<< 63 := Nat.le_trans fits (by decide)
  obtain ⟨h₁, ran₁, first, keeps₁⟩ := offers.hands_out
  rw [ran₁] at handed
  cases handed
  obtain ⟨h₂, ran₂, again, keeps₂⟩ := offers.released request divides first
    (keeps₁.size ▸ offers.small)
  obtain ⟨h₃, ran₃, second, keeps₃⟩ := again.hands_out
  simp only [taken_freed, remainder_freed] at second keeps₃
  have same_files : without (enlist (without files [x]) (freed x)) [freed x] = without files [x] :=
    without_enlist fun cls => not_mem_without cls
  rw [same_files] at second
  have changed : h'.Keeps h₃ fun i => (taken x (blockSize size)).Payload i ∨
      Determined (left ++ taken x (blockSize size) :: (remainder x (blockSize size) ++ right)) i := by
    apply (keeps₂.mono ?_).trans (keeps₃.mono ?_)
    · rintro i (tagged | marked)
      · exact .inr ⟨taken x (blockSize size), by simp, .inl tagged⟩
      · exact marked.of_freed room divides offers.enough
    · rintro i (tagged | marked)
      · exact .inr ⟨taken x (blockSize size), by simp, .inl tagged⟩
      · exact .inr marked.determined
  refine ⟨h₂, h₃, ran₂, again, ran₃, first.lists_eq second changed.prologue, changed.prologue,
    changed.config, changed.size, ?_⟩
  intro i outside
  by_cases determined :
      Determined (left ++ taken x (blockSize size) :: (remainder x (blockSize size) ++ right)) i
  · exact first.byte_eq second changed.prologue determined
  · apply changed.byte i
    rintro (payload | known)
    · apply outside
      have read : Block.sizeAt h'.memory x.block = (taken x (blockSize size)).tag.size :=
        Block.sizeAt_eq (first.header (show taken x (blockSize size) ∈ _ by simp))
      unfold Block.InPayload
      rw [read]
      exact payload
    · exact determined known

end Offers

section Granting

variable {size : Nat} {b : Block} {answer : Except HeapError Block}

theorem fits_of_granted (granted : allocate size h = .ok (.ok b) h') :
    blockSize size ≤ Tag.maxSize := by
  by_contra large
  have needed := blockSizeFor_eq size
  rw [if_neg (mt blockSize_le_iff.mpr large)] at needed
  simp only [allocate, lift_bind, needed] at granted
  cases granted

theorem Regular.found_last (regular : h.Regular spans files) (request : wanted ≤ 1 <<< 63)
    (missed : firstFit wanted h = .ok none h) {files' : SizeClass → List Nat}
    (regular' : h'.Regular (left ++ [y]) files') (old : ∀ z ∈ left, z ∈ spans)
    (unused : y.tag.allocated = false) (enough : wanted ≤ y.tag.size) :
    firstFit wanted h' = .ok (some y.block) h' := by
  have small : ∀ z ∈ spans, z.tag.allocated = false → z.tag.size < wanted := by
    rw [regular.consistent.firstFit_eq request] at missed
    injection missed with nothing
    exact regular.consistent.find_eq_none.mp nothing
  rw [regular'.consistent.firstFit_eq request]
  cases found : (SizeClass.all.flatMap files').find?
      (fun b => wanted ≤ Block.sizeAt h'.memory b) with
  | none =>
    have := regular'.consistent.find_eq_none.mp found y (by simp) unused
    omega
  | some b =>
    obtain ⟨cls, _, listed⟩ := List.mem_flatMap.mp (List.mem_of_find?_eq_some found)
    obtain ⟨z, member, here, free, _, read⟩ := regular'.consistent.sizeAt_listed listed
    have large := List.find?_some found
    rw [read, decide_eq_true_eq] at large
    rcases List.mem_append.mp member with before | last
    · exact absurd (small z (old z before) free) (Nat.not_lt.mpr large)
    · rw [← here, List.mem_singleton.mp last]

theorem Regular.offers_found (regular : h.Regular spans files) (request : wanted ≤ 1 <<< 63)
    (small : Memory.size h.memory ≤ Tag.maxSize) (found : firstFit wanted h = .ok (some b) h) :
    ∃ left x right, left ++ x :: right = spans ∧ x.block = b ∧
      h.Offers left x right files wanted := by
  have searched := found
  rw [regular.consistent.firstFit_eq request] at searched
  injection searched with entry
  obtain ⟨cls, _, listed⟩ := List.mem_flatMap.mp (List.mem_of_find?_eq_some entry)
  obtain ⟨x, member, here, unused, _, read⟩ := regular.consistent.sizeAt_listed listed
  have large := List.find?_some entry
  rw [read, decide_eq_true_eq] at large
  obtain ⟨left, right, split⟩ := List.append_of_mem member
  subst split here
  exact ⟨left, x, right, rfl, rfl, regular, unused, large, found, small⟩

theorem Regular.offers_grown {growth : Nat} {g : Heap A} (regular : h.Regular spans files)
    (aligned : spans = [] → h.prologue % 8 = 0) (request : wanted ≤ 1 <<< 63)
    (missed : firstFit wanted h = .ok none h) (room : 16 ≤ growth) (divides : growth % 8 = 0)
    (limit : growth ≤ Tag.maxSize) (enough : wanted ≤ growth)
    (grown : grow growth h = .ok (.ok b) g) :
    ∃ left x files', x.block = b ∧ g.Offers left x [] files' wanted ∧
      Memory.size h.memory < Memory.size g.memory := by
  have below : Tag.maxSize + 8 < offsetLimit := by decide
  rcases admission h growth with refused | ⟨bound, admitted⟩
  · have rounded := roundUp_of_divides divides (show growth + 8 < offsetLimit by omega)
    rw [grow_of_refused rounded refused] at grown
    cases grown
  · obtain ⟨y, g', merged_eq, ran, total, unused, more, again, _⟩ :=
      regular.grow_regular aligned room divides bound admitted
    rw [ran] at grown
    cases grown
    have large : wanted ≤ y.tag.size := by
      have part := size_le_mergedSize spans (.of (Memory.size h.memory) growth false) []
      rw [← total, Span.tag_of, Tag.size_of false limit divides] at part
      omega
    refine ⟨restLeft spans, y, _, rfl, ⟨again, unused, large, ?_, by omega⟩, by omega⟩
    exact regular.found_last request missed again (fun z => mem_of_mem_restLeft) unused large

theorem Regular.offered (regular : h.Regular spans files)
    (aligned : spans = [] → h.prologue % 8 = 0) (small : Memory.size h.memory ≤ Tag.maxSize)
    (valid : h.config.validate = .ok ()) (granted : allocate size h = .ok (.ok b) h') :
    ∃ g left x right files, g.Offers left x right files (blockSize size) ∧ x.block = b ∧
      handOut size (blockSize size) (.ok b) g = .ok (.ok b) h' ∧
      (g = h ∧ left ++ x :: right = spans ∨ Memory.size h.memory < Memory.size g.memory) := by
  have fits := fits_of_granted granted
  obtain ⟨room, divides, _⟩ := blockSize_spec size
  have request : blockSize size ≤ 1 <<< 63 := Nat.le_trans fits (by decide)
  have searched := regular.consistent.firstFit_eq request
  rw [allocate_of_searched fits searched] at granted
  cases found : (SizeClass.all.flatMap files).find?
      (fun b => blockSize size ≤ Block.sizeAt h.memory b) with
  | some c =>
    rw [found] at granted searched
    have handed : handOut size (blockSize size) (.ok c) h = .ok (.ok b) h' := granted
    have same : b = c := Except.ok.inj (of_handOut_ok handed)
    subst same
    obtain ⟨left, x, right, split, here, offers⟩ := regular.offers_found request small searched
    exact ⟨h, left, x, right, files, offers, here, handed, .inl ⟨rfl, split⟩⟩
  | none =>
    rw [found] at granted searched
    obtain ⟨_, chunk_divides, chunk_fits, _⟩ := validate_eq_ok.mp valid
    have granted : (grow (max (blockSize size) h.config.chunkSize) >>=
        handOut size (blockSize size)) h = .ok (.ok b) h' := granted
    obtain ⟨answer, g, grown, handed⟩ := of_bind_ok granted
    cases answer with
    | error refusal => cases handed
    | ok c =>
      have same : b = c := Except.ok.inj (of_handOut_ok handed)
      subst same
      obtain ⟨left, x, files', here, offers, more⟩ :=
        regular.offers_grown aligned request searched (by omega) (by grind) (by omega) (by omega)
          grown
      exact ⟨g, left, x, [], files', offers, here, handed, .inr more⟩

end Granting

end Heap

namespace Session

variable {A : Type} [Arena A] {s : Session A} {size : Nat} {b : Block} {h₁ : Heap A}

/-- A block that was granted, given back and asked for again is granted again, the arena does not
grow for that, and the heap is in the state that it was in. If the arena did not grow at first
either, the chain in between is that from before the block was granted. -/
theorem allocate_again (reached : Reached s) (granted : Heap.allocate size s.heap = .ok (.ok b) h₁) :
    ∃ h₂ h₃, Heap.release (some b) h₁ = .ok () h₂ ∧ Heap.allocate size h₂ = .ok (.ok b) h₃ ∧
      h₁.Grows h₃ [] ∧ h₁.Restores h₃ b ∧
      (Memory.size h₁.memory = Memory.size s.heap.memory →
        ∃ spans spans₂, s.heap.chain = .ok spans ∧ h₂.chain = .ok spans₂ ∧
          spans₂.map Span.shape = spans.map Span.shape) := by
  obtain ⟨v, kept⟩ := reached.kept
  have fits := Heap.fits_of_granted granted
  obtain ⟨h, left, x, right, files, offers, here, handed, start⟩ := kept.regular.offered
    (fun _ => kept.sound.shown.prologue_aligned) kept.sound.small kept.sound.valid granted
  subst here
  obtain ⟨h₂, h₃, ran₂, again, ran₃, restores⟩ := offers.restores fits handed
  have quiet := Heap.handOut_quiet _ _ _ _ _ _ handed
  have released := Heap.releaseBlock_quiet _ _ _ _ ran₂
  have reissued := Heap.handOut_quiet _ _ _ _ _ _ ran₃
  refine ⟨h₂, h₃, ran₂, ?_, (released.trans reissued).grows, restores, ?_⟩
  · rw [Heap.allocate_of_searched fits again.found]
    exact ran₃
  · intro same_size
    have kept_size : Memory.size h₁.memory = Memory.size h.memory := quiet.size_eq
    rcases start with ⟨rfl, spans⟩ | grown
    · refine ⟨v.spans, left ++ freed x :: right, kept.chain_eq,
        again.regular.consistent.chain_eq again.bounded, ?_⟩
      simp [← spans, Span.shape, offers.unused]
    · omega

theorem gaps_granted : (outcome (Buffer.new 352) ⟨1024, 336⟩ gaps).map (fun ended =>
    match Heap.allocate 20 ended.2.heap with
    | .ok answer h => some (answer, Memory.size ended.2.heap.memory, Memory.size h.memory)
    | .error _ _ => none) = some (some (.ok 72, 352, 352)) := by
  decide +kernel

theorem gaps_granted_again : ∃ (s : Session Buffer) (h₁ h₂ h₃ : Heap Buffer), Reached s ∧
    Heap.allocate 20 s.heap = .ok (.ok 72) h₁ ∧ Heap.release (some 72) h₁ = .ok () h₂ ∧
    Heap.allocate 20 h₂ = .ok (.ok 72) h₃ ∧ h₁.Grows h₃ [] ∧ h₁.Restores h₃ 72 ∧
    ∃ spans spans₂, s.heap.chain = .ok spans ∧ h₂.chain = .ok spans₂ ∧
      spans₂.map Span.shape = spans.map Span.shape := by
  obtain ⟨⟨answers, s⟩, ended, facts⟩ := Option.map_eq_some_iff.mp gaps_granted
  have reached : Reached s := .of_outcome (by decide) ended
  dsimp only at facts
  cases ran : Heap.allocate 20 s.heap with
  | error fault h₁ =>
    rw [ran] at facts
    cases facts
  | ok answer h₁ =>
    rw [ran] at facts
    injection facts with facts
    injection facts with granted sizes
    injection sizes with before after
    subst granted
    obtain ⟨h₂, h₃, released, again, grows, restores, between⟩ := allocate_again reached ran
    exact ⟨s, h₁, h₂, h₃, reached, ran, released, again, grows, restores,
      between (after.trans before.symm)⟩

end Session

end SegregatedFit
