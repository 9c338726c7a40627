import SegregatedFit.Proofs.Reachability

/-!
The rules that a heap keeps from one request to the next, by its memory, its list heads and its
prologue alone: it is consistent, and all of its lists end at the prologue. While a block is given
back or split the rules hold but for that block, which is free and on no list yet.
-/

namespace SegregatedFit

namespace Heap

section Rules

variable {M : Type} [Memory M] {h : Heap M} {spans kept left right : List Span} {x : Span}
  {files : SizeClass → List Nat} {v : View}

/-- The chain has the blocks of `spans`. The lists hold exactly the free blocks among `kept`, and
all of them end at the prologue. -/
structure Arranged (h : Heap M) (spans kept : List Span) (files : SizeClass → List Nat) : Prop where
  chained : Chained h.memory h.prologue spans
  room : ∀ x ∈ spans, Block.minSize ≤ x.tag.size
  aligned : ∀ x ∈ spans, x.block % 8 = 0
  threaded : ∀ cls, Threaded h.memory h.prologue (h.lists.head cls) (files cls)
  nodup : ∀ cls, (files cls).Nodup
  listed : ∀ cls b, b ∈ files cls ↔
    ∃ x ∈ kept, x.block = b ∧ x.tag.allocated = false ∧ x.cls = cls
  terminator : h.lists.terminator = h.prologue

/-- A heap between two requests: every free block is listed, and no two of them are neighbours. -/
structure Regular (h : Heap M) (spans : List Span) (files : SizeClass → List Nat) : Prop
    extends h.Arranged spans spans files where
  apart : spans.IsChain NoFreePair

/-- A heap with one free block, that of `x`, on no list. Its neighbours may be free or in use. -/
structure Unfiled (h : Heap M) (left : List Span) (x : Span) (right : List Span)
    (files : SizeClass → List Nat) : Prop
    extends h.Arranged (left ++ x :: right) (left ++ right) files where
  unused : x.tag.allocated = false
  left_apart : left.IsChain NoFreePair
  right_apart : right.IsChain NoFreePair

def plainView (h : Heap M) (spans : List Span) (files : SizeClass → List Nat) : View where
  spans := spans
  files := files
  ends stop := stop = h.prologue
  journal := h.journal

namespace Arranged

theorem sentinel_used (arranged : h.Arranged spans kept files) :
    FreeLists.Used h.memory h.prologue :=
  ⟨_, arranged.chained.sentinel.header, Tag.allocated_sentinel⟩

theorem room_pos (arranged : h.Arranged spans kept files) : ∀ x ∈ spans, 0 < x.tag.size :=
  fun x member => Nat.lt_of_lt_of_le (by decide) (arranged.room x member)

theorem header (arranged : h.Arranged spans kept files) (member : x ∈ spans) :
    Block.tag h.memory x.block = .ok x.tag :=
  (arranged.chained.written x member).header

theorem clear (arranged : h.Arranged spans kept files) (member : x ∈ spans) {stop : Nat}
    (here : stop = h.prologue) : stop + 4 ≤ x.block ∨ x.block + x.tag.size ≤ stop := by
  have := arranged.chained.tiles.within member
  omega

theorem prologue_aligned (arranged : h.Arranged spans kept files) (some_block : spans ≠ []) :
    h.prologue % 8 = 0 := by
  cases spans with
  | nil => exact absurd rfl some_block
  | cons y rest =>
    have first : y.block = h.prologue + 8 := arranged.chained.tiles.1
    have := arranged.aligned y (by simp)
    omega

section Viewed

variable (arranged : h.Arranged spans kept files) (among : ∀ y ∈ kept, y ∈ spans)

include arranged among

theorem listed_among (cls : SizeClass) (b : Nat) (listed : b ∈ files cls) :
    ∃ y ∈ spans, y.block = b ∧ y.tag.allocated = false ∧ y.cls = cls := by
  obtain ⟨y, member, rest⟩ := (arranged.listed cls b).mp listed
  exact ⟨y, among y member, rest⟩

theorem filed : Filed h.memory h.lists (fun stop => stop = h.prologue) files := by
  apply filed_of_threads arranged.chained arranged.room
  · exact fun cls => ⟨h.prologue, rfl, arranged.threaded cls⟩
  · exact arranged.nodup
  · exact arranged.listed_among among
  · rintro _ rfl
    exact arranged.sentinel_used
  · exact fun y member _ _ => arranged.clear member
  · exact arranged.terminator

theorem shows_of_aligned (front : h.prologue % 8 = 0) : h.Shows (h.plainView spans files) where
  chained := arranged.chained
  room := arranged.room
  prologue_aligned := front
  filed := arranged.filed among
  ends := by
    rintro _ rfl
    exact arranged.chained.end_ge
  clear y member _ _ := arranged.clear member
  listed := arranged.listed_among among
  terminator := arranged.terminator
  journal := rfl

theorem shows (some_block : spans ≠ []) : h.Shows (h.plainView spans files) :=
  arranged.shows_of_aligned among (arranged.prologue_aligned some_block)

end Viewed

end Arranged

theorem Regular.consistent (regular : h.Regular spans files) :
    h.Consistent spans files fun _ => h.prologue :=
  ⟨regular.chained, regular.room, regular.aligned, regular.apart, regular.threaded,
    fun _ => ⟨regular.sentinel_used, regular.chained.end_ge⟩, regular.nodup, regular.listed⟩

theorem Regular.settled (regular : h.Regular spans files) : (h.plainView spans files).Settled :=
  ⟨regular.apart, fun y member unused =>
    (regular.listed y.cls y.block).mpr ⟨y, member, rfl, unused, rfl⟩⟩

theorem Unfiled.loose (unfiled : h.Unfiled left x right files) :
    (h.plainView (left ++ x :: right) files).Loose left x right where
  split := rfl
  unused := unfiled.unused
  unlisted cls listed := by
    obtain ⟨y, outer, same, _⟩ := (unfiled.listed cls x.block).mp listed
    exact unfiled.chained.tiles.block_ne unfiled.room_pos outer same
  filed y member unused := (unfiled.listed y.cls y.block).mpr ⟨y, member, rfl, unused, rfl⟩
  left_apart := unfiled.left_apart
  right_apart := unfiled.right_apart

theorem Shows.arranged (shown : h.Shows v) (plain : ∀ stop, v.ends stop → stop = h.prologue)
    (listed : ∀ cls b, b ∈ v.files cls ↔
      ∃ y ∈ kept, y.block = b ∧ y.tag.allocated = false ∧ y.cls = cls) :
    h.Arranged v.spans kept v.files where
  chained := shown.chained
  room := shown.room
  aligned := shown.aligned
  threaded cls := by
    obtain ⟨stop, ending, threaded⟩ := shown.filed.threaded cls
    exact plain stop ending ▸ threaded
  nodup := shown.filed.nodup
  listed := listed
  terminator := shown.terminator

theorem Shows.regular (shown : h.Shows v) (settled : v.Settled)
    (plain : ∀ stop, v.ends stop → stop = h.prologue) : h.Regular v.spans v.files := by
  have listed : ∀ cls b, b ∈ v.files cls ↔
      ∃ y ∈ v.spans, y.block = b ∧ y.tag.allocated = false ∧ y.cls = cls := by
    intro cls b
    constructor
    · exact shown.listed cls b
    · rintro ⟨y, member, rfl, unused, rfl⟩
      exact settled.filed y member unused
  exact ⟨shown.arranged plain listed, settled.apart⟩

theorem Shows.unfiled (shown : h.Shows v) (loose : v.Loose left x right)
    (plain : ∀ stop, v.ends stop → stop = h.prologue) : h.Unfiled left x right v.files := by
  have listed : ∀ cls b, b ∈ v.files cls ↔
      ∃ y ∈ left ++ right, y.block = b ∧ y.tag.allocated = false ∧ y.cls = cls := by
    intro cls b
    constructor
    · intro here
      obtain ⟨y, member, rfl, rest⟩ := shown.listed cls b here
      have other : y ≠ x := fun same => loose.unlisted cls (same ▸ here)
      rw [loose.split, List.append_cons] at member
      exact ⟨y, mem_around member (by simpa using other), rfl, rest⟩
    · rintro ⟨y, member, rfl, unused, rfl⟩
      exact loose.filed y member unused
  have arranged := shown.arranged plain listed
  rw [loose.split] at arranged
  exact ⟨arranged, loose.unused, loose.left_apart, loose.right_apart⟩

theorem Regular.setTags_free (regular : h.Regular (left ++ x :: right) files)
    (bounded : Memory.size h.memory < offsetLimit) (used : x.tag.allocated = true) :
    ∃ h', setTags x.block x.tag.size false h = .ok () h' ∧
      h'.Unfiled left (.of x.block x.tag.size false) right files ∧ h.Keeps h' x.InTags := by
  have shown := regular.shows (fun _ member => member) (by simp)
  have limit := x.tag.size_le
  have divides := x.tag.size_mod
  have others : ∀ cls, x.block ∉ (h.plainView (left ++ x :: right) files).files cls := by
    intro cls listed
    obtain ⟨y, member, same, unused, _⟩ := (regular.listed cls x.block).mp listed
    have here : y = x := shown.eq_of_block member (by simp [plainView]) same
    rw [here, used] at unused
    exact Bool.noConfusion unused
  have avoided : (h.plainView (left ++ x :: right) files).Avoids x := fun _ =>
    regular.clear (by simp)
  obtain ⟨h', ran, shown', keeps⟩ := setTags_shows false shown bounded (b := x.block)
    (n := x.tag.size) (List.append_cons left x right) (by simpa using others)
    (by simpa using avoided) (by simp [Tiles]) (regular.room x (by simp)) limit divides
  have loose : ({ h.plainView (left ++ x :: right) files with
      spans := left ++ Span.of x.block x.tag.size false :: right } : View).Loose left
        (.of x.block x.tag.size false) right := by
    have apart := regular.apart
    rw [List.isChain_append, List.isChain_cons] at apart
    refine ⟨rfl, Tag.allocated_of false limit divides, others, ?_, apart.1, apart.2.1.2⟩
    intro y outer unused
    exact (regular.listed y.cls y.block).mpr ⟨y, mem_cons_of_around outer, rfl, unused, rfl⟩
  refine ⟨h', ran, shown'.unfiled loose ?_, keeps.mono fun i tagged => ?_⟩
  · rintro _ rfl
    exact keeps.prologue.symm
  · have same_size : (Tag.of x.tag.size false).size = x.tag.size := Tag.size_of false limit divides
    simpa only [Span.InTags, Span.block_of, Span.tag_of, same_size] using tagged

end Rules

end Heap

namespace Session

theorem Kept.regular {A : Type} [Arena A] {s : Session A} {v : View} (kept : s.Kept v) :
    s.heap.Regular v.spans v.files :=
  kept.sound.shown.regular kept.sound.settled kept.plain

theorem Reached.regular {A : Type} [Arena A] {s : Session A} {spans : List Span}
    (reached : Reached s) (walked : s.heap.chain = .ok spans) :
    ∃ files, s.heap.Regular spans files := by
  obtain ⟨v, kept⟩ := reached.kept
  have same := Except.ok.inj (kept.chain_eq.symm.trans walked)
  exact ⟨v.files, same ▸ kept.regular⟩

def gaps : List Request :=
  [.allocate 32, .allocate 0, .allocate 56, .allocate 0, .release (some 16), .release (some 72)]

theorem gaps_outcome : (outcome (Buffer.new 352) ⟨1024, 336⟩ gaps).map
    (fun ended => decide (ended.2.heap.chain = .ok [⟨16, ⟨40⟩⟩, ⟨56, ⟨17⟩⟩, ⟨72, ⟨64⟩⟩, ⟨136, ⟨17⟩⟩,
      ⟨152, ⟨200⟩⟩] ∧ Memory.size ended.2.heap.memory = 352)) = some true := by
  decide +kernel

theorem gaps_regular : ∃ (s : Session Buffer) (files : SizeClass → List Nat),
    s.heap.Regular [⟨16, ⟨40⟩⟩, ⟨56, ⟨17⟩⟩, ⟨72, ⟨64⟩⟩, ⟨136, ⟨17⟩⟩, ⟨152, ⟨200⟩⟩] files ∧
      Memory.size s.heap.memory = 352 := by
  obtain ⟨⟨answers, s⟩, ended, facts⟩ := Option.map_eq_some_iff.mp gaps_outcome
  obtain ⟨walked, size⟩ := of_decide_eq_true facts
  obtain ⟨files, regular⟩ := (Reached.of_outcome (by decide) ended).regular walked
  exact ⟨s, files, regular, size⟩

end Session

end SegregatedFit
