import SegregatedFit.Proofs.View
import SegregatedFit.Usage

/-!
The free lists by themselves, without the chain of blocks around them. Lists that are threaded
through free blocks do what lists of these blocks do, for every sequence of insertions and removals.
Of the memory such a sequence writes the links of listed blocks only.
-/

namespace SegregatedFit

def Span.Beside (x y : Span) : Prop :=
  x.block + x.tag.size ≤ y.block ∨ y.block + y.tag.size ≤ x.block

theorem Span.Beside.symm {x y : Span} (beside : x.Beside y) : y.Beside x := Or.symm beside

abbrev Shelves := SizeClass → List Span

def Shelves.names (shelves : Shelves) (cls : SizeClass) : List Nat := (shelves cls).map Span.block

inductive Edit
  | insert (x : Span)
  | remove (x : Span)

namespace Edit

def cls : Edit → SizeClass
  | insert x => x.cls
  | remove x => x.cls

def apply (shelves : Shelves) : Edit → Shelves
  | insert x => Function.update shelves x.cls (x :: shelves x.cls)
  | remove x => Function.update shelves x.cls ((shelves x.cls).erase x)

/-- The bytes it may change: the link of the block that comes on a list, or the link of the one in
front of the block that leaves. -/
def Relinks (shelves : Shelves) : Edit → Nat → Prop
  | insert x, i => x.InLink i
  | remove x, i => ∃ front p behind, shelves x.cls = front ++ p :: x :: behind ∧ p.InLink i

end Edit

section Blocks

variable {shelves : Shelves} {x y : Span}

theorem Edit.apply_other {e : Edit} {cls : SizeClass} (other : cls ≠ e.cls) :
    e.apply shelves cls = shelves cls := by
  cases e with
  | insert x => exact Function.update_of_ne other _ _
  | remove x => exact Function.update_of_ne other _ _

theorem Shelves.mem_names {cls : SizeClass} {b : Nat} :
    b ∈ shelves.names cls ↔ ∃ x ∈ shelves cls, x.block = b :=
  List.mem_map

theorem Shelves.names_update (cls : SizeClass) (spans : List Span) :
    Shelves.names (Function.update shelves cls spans) =
      Function.update shelves.names cls (spans.map Span.block) := by
  funext other
  by_cases same : other = cls
  · subst same
    rw [names, Function.update_self, Function.update_self]
  · rw [names, Function.update_of_ne same, Function.update_of_ne same, names]

theorem Span.not_inLink {i : Nat} (room : 16 ≤ x.tag.size) (room' : 16 ≤ y.tag.size)
    (apart : x ≠ y → x.Beside y) (tagged : x.InTags i) : ¬y.InLink i := by
  intro link
  by_cases same : x = y
  · subst same
    unfold InTags at tagged
    unfold InLink at link
    omega
  · have here := covers_of_inTags (Nat.le_trans (by decide) room) tagged
    have there := covers_of_inLink room' link
    have := apart same
    unfold Beside at this
    unfold Covers at here there
    omega

end Blocks

namespace Heap

variable {M : Type} [Memory M] {h h' : Heap M} {shelves shelves' : Shelves} {x y : Span}
  {e : Edit}

/-- A free block of the memory that may be listed. The terminator is not in it. -/
structure Vacant (h : Heap M) (x : Span) : Prop where
  written : x.Written h.memory
  unused : x.tag.allocated = false
  room : Block.minSize ≤ x.tag.size
  clear : h.lists.terminator + 4 ≤ x.block ∨ x.block + x.tag.size ≤ h.lists.terminator

/-- The lists hold the blocks of the shelves in this order, all of them are free and disjoint, and
each is on the list of its size. Each list runs to the terminator, which is in use. -/
structure Shelved (h : Heap M) (shelves : Shelves) : Prop where
  terminator : FreeLists.Used h.memory h.lists.terminator
  threaded : ∀ cls, Threaded h.memory h.lists.terminator (h.lists.head cls) (shelves.names cls)
  vacant : ∀ cls, ∀ x ∈ shelves cls, h.Vacant x
  sorted : ∀ cls, ∀ x ∈ shelves cls, x.cls = cls
  nodup : ∀ cls, (shelves cls).Nodup
  beside : ∀ cls, ∀ x ∈ shelves cls, ∀ cls', ∀ y ∈ shelves cls', x ≠ y → x.Beside y

end Heap

namespace Edit

variable {M : Type} [Memory M]

def run : Edit → HeapM M Unit
  | insert x => Heap.insert x.block
  | remove x => Heap.remove x.block

def Allowed (h : Heap M) (shelves : Shelves) : Edit → Prop
  | insert x => h.Vacant x ∧ ∀ cls, ∀ y ∈ shelves cls, x.Beside y
  | remove x => x ∈ shelves x.cls

def runAll : List Edit → HeapM M Unit
  | [] => pure ()
  | e :: edits => do
    e.run
    runAll edits

/-- An edit of the lists in memory does the same to them as to the shelves. It leaves the heads of
the other lists and all bytes but those of one link. -/
structure Does (e : Edit) (shelves : Shelves) (h h' : Heap M) : Prop where
  ran : e.run h = .ok () h'
  shelved : h'.Shelved (e.apply shelves)
  listed : ∀ cls limit, Memory.size h.memory ≤ limit →
    h'.list limit cls = .ok ((e.apply shelves).names cls)
  emptied : ∀ cls, e.apply shelves cls = [] → h'.lists.head cls = h.lists.terminator
  others : ∀ cls, cls ≠ e.cls → h'.lists.head cls = h.lists.head cls
  keeps : h.Keeps h' (e.Relinks shelves)

def AllDo (shelves : Shelves) (h : Heap M) : List Edit → Heap M → Prop
  | [], h' => h' = h
  | e :: edits, h' => ∃ h₁, e.Does shelves h h₁ ∧ AllDo (e.apply shelves) h₁ edits h'

def AllAllowed (h : Heap M) (shelves : Shelves) : List Edit → Prop
  | [] => True
  | e :: edits => e.Allowed h shelves ∧
    ∀ h', e.run h = .ok () h' → AllAllowed h' (e.apply shelves) edits

end Edit

namespace Heap

variable {M : Type} [Memory M] {h h' : Heap M} {shelves shelves' : Shelves} {x y : Span}
  {e : Edit} {cls : SizeClass}

theorem Vacant.roomy (vacant : h.Vacant x) : 16 ≤ x.tag.size := vacant.room

theorem Vacant.inside (vacant : h.Vacant x) : x.block + 8 ≤ Memory.size h.memory := by
  have room := vacant.roomy
  have footer := (Block.tagAt_eq_ok.mp vacant.written.footer).1
  omega

theorem Vacant.apart (vacant : h.Vacant x) (vacant' : h.Vacant y) (beside : x.Beside y) :
    Apart x.block y.block := by
  have room := vacant.roomy
  have room' := vacant'.roomy
  unfold Span.Beside at beside
  unfold Apart
  omega

theorem Vacant.past (vacant : h.Vacant x) :
    h.lists.terminator ≤ x.block ∨ x.block + 12 ≤ h.lists.terminator := by
  have room := vacant.roomy
  have clear := vacant.clear
  omega

theorem Vacant.of_keeps {changed : Nat → Prop} (vacant : h.Vacant x) (keeps : h.Keeps h' changed)
    (clear : ∀ i, x.InTags i → ¬changed i) : h'.Vacant x where
  written := by
    apply vacant.written.of_same (Nat.le_trans (by decide) vacant.roomy)
    · exact Nat.le_of_eq keeps.size.symm
    · exact fun i tagged => keeps.byte i (clear i tagged)
  unused := vacant.unused
  room := vacant.room
  clear := by
    rw [keeps.terminator]
    exact vacant.clear

namespace Shelved

theorem apart (shelved : h.Shelved shelves) {cls' : SizeClass} (first : x ∈ shelves cls)
    (second : y ∈ shelves cls') (different : x ≠ y) : Apart x.block y.block :=
  (shelved.vacant cls x first).apart (shelved.vacant cls' y second)
    (shelved.beside cls x first cls' y second different)

theorem names_nodup (shelved : h.Shelved shelves) (cls : SizeClass) :
    (shelves.names cls).Nodup := by
  apply List.Nodup.map_on _ (shelved.nodup cls)
  intro x first y second same
  apply Decidable.byContradiction
  intro different
  have apart := shelved.apart first second different
  unfold Apart at apart
  omega

theorem filed (shelved : h.Shelved shelves) :
    Filed h.memory h.lists (fun stop => stop = h.lists.terminator) shelves.names where
  threaded cls := ⟨h.lists.terminator, rfl, shelved.threaded cls⟩
  nodup := shelved.names_nodup
  free cls c listed := by
    obtain ⟨x, member, rfl⟩ := Shelves.mem_names.mp listed
    have vacant := shelved.vacant cls x member
    exact ⟨x.tag, vacant.written.header, vacant.unused, shelved.sorted cls x member⟩
  terminator := rfl
  used stop here := here ▸ shelved.terminator
  apart cls c listed cls' d other different := by
    obtain ⟨x, member, rfl⟩ := Shelves.mem_names.mp listed
    obtain ⟨y, member', rfl⟩ := Shelves.mem_names.mp other
    exact shelved.apart member member' fun same => different (congrArg Span.block same)
  ends_apart cls c listed stop here := by
    obtain ⟨x, member, rfl⟩ := Shelves.mem_names.mp listed
    exact here ▸ (shelved.vacant cls x member).past

theorem of_filed {changed : Nat → Prop}
    (filed : Filed h'.memory h'.lists (fun stop => stop = h.lists.terminator) shelves'.names)
    (keeps : h.Keeps h' changed) (vacant : ∀ cls, ∀ x ∈ shelves' cls, h.Vacant x)
    (clear : ∀ cls, ∀ x ∈ shelves' cls, ∀ i, x.InTags i → ¬changed i)
    (sorted : ∀ cls, ∀ x ∈ shelves' cls, x.cls = cls)
    (beside : ∀ cls, ∀ x ∈ shelves' cls, ∀ cls', ∀ y ∈ shelves' cls', x ≠ y → x.Beside y) :
    h'.Shelved shelves' where
  terminator := filed.used _ filed.terminator
  threaded cls := by
    obtain ⟨stop, rfl, threaded⟩ := filed.threaded cls
    rw [keeps.terminator]
    exact threaded
  vacant cls x member := (vacant cls x member).of_keeps keeps (clear cls x member)
  sorted := sorted
  nodup cls := (filed.nodup cls).of_map _
  beside := beside

theorem head_eq (shelved : h.Shelved shelves) (cls : SizeClass) :
    h.lists.head cls = (shelves.names cls).headD h.lists.terminator :=
  (shelved.threaded cls).head_eq

theorem list_eq (shelved : h.Shelved shelves) {limit : Nat}
    (enough : Memory.size h.memory ≤ limit) (cls : SizeClass) :
    h.list limit cls = .ok (shelves.names cls) := by
  have free : ∀ c ∈ shelves.names cls, FreeLists.Free h.memory c := fun _ =>
    shelved.filed.listed_free
  have length := FreeLists.length_le_of_nodup (shelved.names_nodup cls) free
  have taken := FreeLists.take_threaded limit (shelved.threaded cls) free shelved.terminator
  rw [List.take_of_length_le (Nat.le_trans length enough)] at taken
  exact taken

theorem mem_insert {z : Span} (member : z ∈ (Edit.insert x).apply shelves cls) :
    z = x ∧ cls = x.cls ∨ z ∈ shelves cls :=
  mem_update_cons.mp member

theorem insert (shelved : h.Shelved shelves) (bounded : Memory.size h.memory < offsetLimit)
    (vacant : h.Vacant x) (beside : ∀ cls, ∀ y ∈ shelves cls, x.Beside y) :
    ∃ h', Heap.insert x.block h = .ok () h' ∧ h'.Shelved ((Edit.insert x).apply shelves) ∧
      h.Keeps h' x.InLink := by
  have room := vacant.roomy
  have apart : ∀ cls, ∀ c ∈ shelves.names cls, Apart c x.block := by
    intro cls c listed
    obtain ⟨y, member, rfl⟩ := Shelves.mem_names.mp listed
    exact (shelved.vacant cls y member).apart vacant (beside cls y member).symm
  have past : ∀ stop, stop = h.lists.terminator → stop ≤ x.block ∨ x.block + 12 ≤ stop :=
    fun _ here => here ▸ vacant.past
  obtain ⟨h', ran, filed, keeps, _⟩ := insert_filed shelved.filed bounded vacant.written.header
    vacant.unused vacant.inside apart past
  have renamed : Shelves.names ((Edit.insert x).apply shelves) =
      Function.update shelves.names x.cls (x.block :: shelves.names x.cls) :=
    Shelves.names_update x.cls (x :: shelves x.cls)
  change Filed h'.memory h'.lists _
    (Function.update shelves.names x.cls (x.block :: shelves.names x.cls)) at filed
  rw [← renamed] at filed
  refine ⟨h', ran, of_filed filed keeps ?_ ?_ ?_ ?_, keeps⟩
  · intro cls z member
    rcases mem_insert member with ⟨rfl, _⟩ | old
    · exact vacant
    · exact shelved.vacant cls z old
  · intro cls z member i tagged
    rcases mem_insert member with ⟨rfl, _⟩ | old
    · exact Span.not_inLink room room (fun different => absurd rfl different) tagged
    · exact Span.not_inLink (shelved.vacant cls z old).roomy room
        (fun _ => (beside cls z old).symm) tagged
  · intro cls z member
    rcases mem_insert member with ⟨rfl, rfl⟩ | old
    · rfl
    · exact shelved.sorted cls z old
  · intro cls z member cls' w other different
    rcases mem_insert member with ⟨rfl, _⟩ | old
    · rcases mem_insert other with ⟨rfl, _⟩ | old'
      · exact absurd rfl different
      · exact beside cls' w old'
    · rcases mem_insert other with ⟨rfl, _⟩ | old'
      · exact (beside cls z old).symm
      · exact shelved.beside cls z old cls' w old' different

theorem mem_of_mem_remove {z : Span} (member : z ∈ (Edit.remove x).apply shelves cls) :
    z ∈ shelves cls :=
  mem_of_mem_update_erase member

theorem remove_top {behind : List Span} (shelved : h.Shelved shelves)
    (split : shelves x.cls = x :: behind) :
    ∃ h', Heap.remove x.block h = .ok () h' ∧
      Filed h'.memory h'.lists (fun stop => stop = h.lists.terminator)
        (Shelves.names ((Edit.remove x).apply shelves)) ∧
      h.Keeps h' ((Edit.remove x).Relinks shelves) := by
  have member : x ∈ shelves x.cls := by simp [split]
  have read := (shelved.vacant x.cls x member).written.header
  have named : shelves.names x.cls = x.block :: behind.map Span.block := by
    rw [Shelves.names, split, List.map_cons]
  have left : Shelves.names ((Edit.remove x).apply shelves) =
      Function.update shelves.names x.cls (behind.map Span.block) := by
    rw [Edit.apply, split, List.erase_cons_head, Shelves.names_update]
  rw [left]
  exact ⟨_, remove_head shelved.filed read named, shelved.filed.head_removed named,
    ⟨rfl, fun _ _ => rfl, rfl, rfl, rfl⟩⟩

theorem remove_below {front behind : List Span} {p : Span} (shelved : h.Shelved shelves)
    (bounded : Memory.size h.memory < offsetLimit)
    (split : shelves x.cls = front ++ p :: x :: behind) :
    ∃ h', Heap.remove x.block h = .ok () h' ∧
      Filed h'.memory h'.lists (fun stop => stop = h.lists.terminator)
        (Shelves.names ((Edit.remove x).apply shelves)) ∧
      h.Keeps h' ((Edit.remove x).Relinks shelves) := by
  have member : x ∈ shelves x.cls := by simp [split]
  have p_member : p ∈ shelves x.cls := by simp [split]
  have read := (shelved.vacant x.cls x member).written.header
  have inside := (shelved.vacant x.cls p p_member).inside
  have named : shelves.names x.cls =
      front.map Span.block ++ p.block :: x.block :: behind.map Span.block := by
    rw [Shelves.names, split, List.map_append, List.map_cons, List.map_cons]
  have erased : (shelves x.cls).erase x = front ++ p :: behind := by
    have nodup := shelved.nodup x.cls
    rw [split] at nodup ⊢
    exact erase_second nodup
  have left : Shelves.names ((Edit.remove x).apply shelves) =
      Function.update shelves.names x.cls
        (front.map Span.block ++ p.block :: behind.map Span.block) := by
    rw [Edit.apply, erased, Shelves.names_update, List.map_append, List.map_cons]
  rw [left]
  refine ⟨_, remove_inner shelved.filed read rfl (shelved.threaded x.cls) named,
    shelved.filed.inner_removed bounded rfl (shelved.threaded x.cls) named, ?_⟩
  refine ⟨Memory.size_writeNat _ _ _ _, fun i outside => ?_, rfl, rfl, rfl⟩
  apply Memory.byte_writeNat_outside _ _ _ _ _ inside
  have : ¬p.InLink i := fun link => outside ⟨front, p, behind, split, link⟩
  unfold Span.InLink at this
  omega

theorem remove (shelved : h.Shelved shelves) (bounded : Memory.size h.memory < offsetLimit)
    (listed : x ∈ shelves x.cls) :
    ∃ h', Heap.remove x.block h = .ok () h' ∧ h'.Shelved ((Edit.remove x).apply shelves) ∧
      h.Keeps h' ((Edit.remove x).Relinks shelves) := by
  have relinked : ∃ h', Heap.remove x.block h = .ok () h' ∧
      Filed h'.memory h'.lists (fun stop => stop = h.lists.terminator)
        (Shelves.names ((Edit.remove x).apply shelves)) ∧
      h.Keeps h' ((Edit.remove x).Relinks shelves) := by
    rcases List.append_of_mem listed with ⟨front, behind, split⟩
    rcases front.eq_nil_or_concat with rfl | ⟨front, p, rfl⟩
    · exact shelved.remove_top split
    · rw [List.concat_eq_append, List.append_assoc, List.singleton_append] at split
      exact shelved.remove_below bounded split
  rcases relinked with ⟨h', ran, filed, keeps⟩
  refine ⟨h', ran, of_filed filed keeps ?_ ?_ ?_ ?_, keeps⟩
  · exact fun cls z member => shelved.vacant cls z (mem_of_mem_remove member)
  · rintro cls z member i tagged ⟨front, p, behind, split, link⟩
    have old := mem_of_mem_remove member
    have above : p ∈ shelves x.cls := by simp [split]
    exact Span.not_inLink (shelved.vacant cls z old).roomy (shelved.vacant x.cls p above).roomy
      (shelved.beside cls z old x.cls p above) tagged link
  · exact fun cls z member => shelved.sorted cls z (mem_of_mem_remove member)
  · intro cls z member cls' w other
    exact shelved.beside cls z (mem_of_mem_remove member) cls' w (mem_of_mem_remove other)

theorem step (shelved : h.Shelved shelves) (bounded : Memory.size h.memory < offsetLimit)
    (allowed : e.Allowed h shelves) : ∃ h', e.Does shelves h h' := by
  have stepped : ∃ h', e.run h = .ok () h' ∧ h'.Shelved (e.apply shelves) ∧
      h.Keeps h' (e.Relinks shelves) := by
    cases e with
    | insert x => exact shelved.insert bounded allowed.1 allowed.2
    | remove x => exact shelved.remove bounded allowed
  rcases stepped with ⟨h', ran, after, keeps⟩
  refine ⟨h', ran, after, ?_, ?_, ?_, keeps⟩
  · intro cls limit enough
    rw [← keeps.size] at enough
    exact after.list_eq enough cls
  · intro cls nothing
    rw [after.head_eq, Shelves.names, nothing, keeps.terminator]
    rfl
  · intro cls other
    rw [after.head_eq, shelved.head_eq, keeps.terminator, Shelves.names, Shelves.names,
      Edit.apply_other other]

end Shelved

/-- The lists in memory are lists: every sequence of edits that are allowed runs, each of its edits
does to the lists what it does to the shelves, and what is listed in the end are the shelves of the
end. -/
theorem edits_refine {edits : List Edit} (shelved : h.Shelved shelves)
    (bounded : Memory.size h.memory < offsetLimit) (allowed : Edit.AllAllowed h shelves edits) :
    ∃ h', Edit.runAll edits h = .ok () h' ∧ Edit.AllDo shelves h edits h' ∧
      h'.Shelved (edits.foldl Edit.apply shelves) ∧
      ∀ cls limit, Memory.size h.memory ≤ limit →
        h'.list limit cls = .ok ((edits.foldl Edit.apply shelves).names cls) := by
  induction edits generalizing h shelves with
  | nil => exact ⟨h, rfl, rfl, shelved, fun cls _ enough => shelved.list_eq enough cls⟩
  | cons e edits ih =>
    rcases shelved.step bounded allowed.1 with ⟨h₁, does⟩
    have size := does.keeps.size
    rcases ih does.shelved (size ▸ bounded) (allowed.2 h₁ does.ran) with
      ⟨h', ran, all, final, listed⟩
    rw [size] at listed
    refine ⟨h', ?_, ⟨h₁, does, all⟩, final, listed⟩
    rw [Edit.runAll, bind_of_ok does.ran]
    exact ran

def twoListed : Heap ByteArray where
  memory := ⟨#[0, 0, 0, 0, 9, 0, 0, 0, 9, 0, 0, 0, 16, 0, 0, 0, 8, 0, 0, 0, 0, 0, 0, 0, 16, 0, 0, 0,
    16, 0, 0, 0, 16, 0, 0, 0, 0, 0, 0, 0, 16, 0, 0, 0, 16, 0, 0, 0, 0, 0, 0, 0, 0, 0, 0, 0,
    16, 0, 0, 0]⟩
  lists := (FreeLists.empty 8).setHead (SizeClass.ofSize 16) 32
  prologue := 8
  config := default
  journal := #[]

def twoShelves : Shelves :=
  Function.update (fun _ => []) (SizeClass.ofSize 16) [⟨32, ⟨16⟩⟩, ⟨16, ⟨16⟩⟩]

theorem of_mem_twoShelves (member : x ∈ twoShelves cls) :
    cls = SizeClass.ofSize 16 ∧ (x = ⟨32, ⟨16⟩⟩ ∨ x = ⟨16, ⟨16⟩⟩) := by
  by_cases here : cls = SizeClass.ofSize 16
  · subst here
    simpa [twoShelves] using member
  · rw [twoShelves, Function.update_of_ne here] at member
    exact absurd member List.not_mem_nil

theorem twoListed_vacant (b : Nat) (known : b = 16 ∨ b = 32 ∨ b = 48) :
    twoListed.Vacant ⟨b, ⟨16⟩⟩ := by
  rcases known with rfl | rfl | rfl <;>
    exact ⟨⟨by decide, by decide⟩, by decide, by decide, by decide⟩

theorem twoListed_shelved : twoListed.Shelved twoShelves := by
  constructor
  · exact ⟨⟨9⟩, by decide, by decide⟩
  · intro cls
    by_cases here : cls = SizeClass.ofSize 16
    · subst here
      exact ⟨by decide, 16, by decide, by decide, 8, by decide, rfl⟩
    · rw [Shelves.names, twoShelves, Function.update_of_ne here, twoListed,
        FreeLists.head_setHead, if_neg here]
      exact FreeLists.head_empty 8 cls
  · intro cls x member
    rcases (of_mem_twoShelves member).2 with rfl | rfl
    · exact twoListed_vacant 32 (by decide)
    · exact twoListed_vacant 16 (by decide)
  · intro cls x member
    rcases of_mem_twoShelves member with ⟨rfl, rfl | rfl⟩ <;> decide
  · intro cls
    by_cases here : cls = SizeClass.ofSize 16
    · subst here
      decide
    · rw [twoShelves, Function.update_of_ne here]
      exact List.nodup_nil
  · intro cls x member cls' y member' different
    rcases (of_mem_twoShelves member).2 with rfl | rfl <;>
      rcases (of_mem_twoShelves member').2 with rfl | rfl
    · exact absurd rfl different
    · exact .inr (by decide)
    · exact .inl (by decide)
    · exact absurd rfl different

theorem twoListed_edited : twoListed.Shelved twoShelves ∧
    Memory.size twoListed.memory < offsetLimit ∧
    Edit.AllAllowed twoListed twoShelves [.insert ⟨48, ⟨16⟩⟩, .remove ⟨32, ⟨16⟩⟩] ∧
    ∃ h', Edit.runAll [.insert ⟨48, ⟨16⟩⟩, .remove ⟨32, ⟨16⟩⟩] twoListed = .ok () h' ∧
      h'.list 60 4 = .ok [48, 16] := by
  have bounded : Memory.size twoListed.memory < offsetLimit := by decide
  have beside : ∀ cls, ∀ y ∈ twoShelves cls, (⟨48, ⟨16⟩⟩ : Span).Beside y := by
    intro cls y member
    rcases (of_mem_twoShelves member).2 with rfl | rfl <;> exact .inr (by decide)
  have allowed : Edit.AllAllowed twoListed twoShelves
      [.insert ⟨48, ⟨16⟩⟩, .remove ⟨32, ⟨16⟩⟩] := by
    refine ⟨⟨twoListed_vacant 48 (by decide), beside⟩, fun h' _ => ⟨?_, fun _ _ => trivial⟩⟩
    change (⟨32, ⟨16⟩⟩ : Span) ∈ (Edit.insert ⟨48, ⟨16⟩⟩).apply twoShelves 4
    decide
  rcases edits_refine twoListed_shelved bounded allowed with ⟨h', ran, _, _, listed⟩
  exact ⟨twoListed_shelved, bounded, allowed, h', ran, listed 4 60 (by decide)⟩

end Heap

end SegregatedFit
