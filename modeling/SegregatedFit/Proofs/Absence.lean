import SegregatedFit.Proofs.Checking

namespace SegregatedFit

namespace Block

variable {M : Type} [Memory M] {m : M} {b : Nat}

theorem allocated_front (front : b < 4) : allocated m b = .error .overflow := by
  have none_before : ¬4 ≤ b := Nat.not_le.mpr front
  simp [allocated, tag, headerOffset, minus, Tag.bytes, none_before, bind, Except.bind]

theorem allocated_past (front : 4 ≤ b) (past : Memory.size m < b) :
    allocated m b = .error .outOfBounds := by
  have header : headerOffset b = .ok (b - 4) := minus_of_le front
  have cut : ¬b - 4 + 4 ≤ Memory.size m := by omega
  simp [allocated, tag, header, tagAt, Memory.word, Memory.ensure, cut, bind, Except.bind]

theorem allocated_defined (front : 4 ≤ b) (inside : b ≤ Memory.size m) :
    ∃ used, allocated m b = .ok used := by
  obtain ⟨t, read⟩ := tag_defined front inside
  exact ⟨t.allocated, allocated_of_tag read⟩

end Block

namespace Heap

variable {M : Type} [Memory M] {h : Heap M} {files : SizeClass → List Nat} {b next : Nat} {t : Tag}
  {cls : SizeClass}

/-- Each list runs through free blocks to the terminator, which is in use. -/
structure Terminated (h : Heap M) (files : SizeClass → List Nat) : Prop where
  threaded : ∀ cls, Threaded h.memory h.lists.terminator (h.lists.head cls) (files cls)
  free : ∀ cls, ∀ c ∈ files cls, FreeLists.Free h.memory c
  ends : FreeLists.Used h.memory h.lists.terminator

namespace Terminated

variable (terminated : h.Terminated files)

include terminated

theorem find?_eq (test : Tag → Block → Bool) (cls : SizeClass) :
    FreeLists.find? h.memory test (h.lists.head cls) =
      .ok ((files cls).find? (FreeLists.passes h.memory test)) :=
  FreeLists.find?_threaded test (terminated.threaded cls)
    ((terminated.threaded cls).nodup (terminated.free cls) terminated.ends) (terminated.free cls)
    terminated.ends

theorem not_linked (absent : b ∉ files cls) (other : b ≠ h.lists.terminator) :
    (files cls).find? (FreeLists.passes h.memory fun _ link => link == b) = none := by
  refine List.find?_eq_none.mpr fun c member passed => ?_
  obtain ⟨t, read, _⟩ := terminated.free cls c member
  obtain ⟨xs, ys, split⟩ := List.append_of_mem member
  have link := (split ▸ terminated.threaded cls).link_eq
  rw [FreeLists.passes_eq read link, beq_iff_eq] at passed
  rw [passed] at link
  rcases (terminated.threaded cls).of_link member link with listed | stop
  · exact absent listed
  · exact other stop

theorem head_ne (absent : b ∉ files cls) (other : b ≠ h.lists.terminator) : h.lists.head cls ≠ b := by
  rw [(terminated.threaded cls).head_eq]
  cases listed : files cls with
  | nil => exact other.symm
  | cons c rest =>
    rintro rfl
    simp [listed] at absent

/-- Every list comes to the terminator: it starts there, or one of its blocks links to it. -/
theorem head_eq_or_found (cls : SizeClass) : h.lists.head cls = h.lists.terminator ∨
    ∃ p next, (files cls).find? (FreeLists.passes h.memory fun _ link =>
      link == h.lists.terminator) = some p ∧ Block.link h.memory p = .ok next := by
  have threaded := terminated.threaded cls
  rcases (files cls).eq_nil_or_concat with none_listed | ⟨front, c, split⟩
  · exact .inl (threaded.head_eq.trans (by rw [none_listed]; rfl))
  · rw [List.concat_eq_append] at split
    have last : c ∈ files cls := by simp [split]
    have link : Block.link h.memory c = .ok h.lists.terminator := (split ▸ threaded).link_eq
    obtain ⟨t, read, _⟩ := terminated.free cls c last
    have passed : FreeLists.passes h.memory (fun _ link => link == h.lists.terminator) c :=
      (FreeLists.passes_eq read link).trans (beq_self_eq_true _)
    obtain ⟨p, found⟩ := Option.isSome_iff_exists.mp (List.find?_isSome.mpr ⟨c, last, passed⟩)
    obtain ⟨xs, ys, around⟩ := List.append_of_mem (List.mem_of_find?_eq_some found)
    exact .inr ⟨p, _, found, (around ▸ threaded).link_eq⟩

end Terminated

section Removal

variable (read : Block.tag h.memory b = .ok t) (link : Block.link h.memory b = .ok next)

include read link

theorem remove_of_unreadable {fault : Fault}
    (unreadable : Block.allocated h.memory next = .error fault) :
    remove b h = .error fault h := by
  simp only [remove, query_bind, Block.size_of_tag read, link, unreadable]

variable (readable : 4 ≤ next ∧ next ≤ Memory.size h.memory)

include readable

theorem remove_of_unlinked (other : h.lists.head (SizeClass.ofSize t.size) ≠ b)
    (unlinked : FreeLists.find? h.memory (fun _ link => link == b)
      (h.lists.head (SizeClass.ofSize t.size)) = .ok none) :
    remove b h = .error (.notListed b (SizeClass.ofSize t.size)) h := by
  obtain ⟨last, behind⟩ := Block.allocated_defined readable.1 readable.2
  simp only [remove, query_bind, Block.size_of_tag read, link, behind]
  rw [bind_of_ok (head_apply _), get_bind]
  simp only [if_neg other, query_bind, unlinked]
  rfl

theorem remove_of_linked
    (linked : h.lists.head (SizeClass.ofSize t.size) = b ∨
      ∃ p after, FreeLists.find? h.memory (fun _ link => link == b)
        (h.lists.head (SizeClass.ofSize t.size)) = .ok (some p) ∧
        Block.link h.memory p = .ok after) :
    ∃ h', remove b h = .ok () h' := by
  obtain ⟨last, behind⟩ := Block.allocated_defined readable.1 readable.2
  simp only [remove, query_bind, Block.size_of_tag read, link, behind]
  rw [bind_of_ok (head_apply _), get_bind]
  by_cases first : h.lists.head (SizeClass.ofSize t.size) = b
  · rw [if_pos first, bind_of_ok (setHead_apply _ _), record_apply]
    exact ⟨_, rfl⟩
  · obtain ⟨p, after, before, link'⟩ := linked.resolve_left first
    simp only [if_neg first, query_bind, before]
    rw [bind_of_ok (setLink_of_inside (Block.link_eq_ok.mp link').1), record_apply]
    exact ⟨_, rfl⟩

end Removal

/-- How taking off a block ends that is not on the list of its size. If its link names a header that
can be read, that is reported, unless the block is the terminator, which every list leads to. If not,
reading that header goes wrong first. In no case but that of the terminator does anything change. -/
theorem remove_absent (terminated : h.Terminated files) (read : Block.tag h.memory b = .ok t)
    (room : 16 ≤ t.size) (inside : b + t.size ≤ Memory.size h.memory + 4)
    (absent : b ∉ files (SizeClass.ofSize t.size)) :
    ∃ next, Block.link h.memory b = .ok next ∧
      (next < 4 → remove b h = .error .overflow h) ∧
      (Memory.size h.memory < next → remove b h = .error .outOfBounds h) ∧
      (4 ≤ next ∧ next ≤ Memory.size h.memory →
        (b ≠ h.lists.terminator →
          remove b h = .error (.notListed b (SizeClass.ofSize t.size)) h) ∧
        (b = h.lists.terminator → ∃ h', remove b h = .ok () h')) := by
  obtain ⟨next, link⟩ : ∃ next, Block.link h.memory b = .ok next := Block.link_defined (by omega)
  have front := (Block.tag_inside read).1
  refine ⟨next, link, fun low => ?_, fun past => ?_, fun readable => ⟨fun other => ?_, ?_⟩⟩
  · exact remove_of_unreadable read link (Block.allocated_front low)
  · exact remove_of_unreadable read link (Block.allocated_past (by omega) past)
  · apply remove_of_unlinked read link readable (terminated.head_ne absent other)
    rw [terminated.find?_eq, terminated.not_linked absent other]
  · rintro rfl
    apply remove_of_linked read link readable
    simp only [terminated.find?_eq, Except.ok.injEq]
    exact terminated.head_eq_or_found (SizeClass.ofSize t.size)

def stray (low : UInt8) : Heap ByteArray where
  memory := ⟨#[0, 0, 0, 0, 9, 0, 0, 0, 9, 0, 0, 0, 16, 0, 0, 0, 8, 0, 0, 0, 0, 0, 0, 0, 16, 0, 0, 0,
    17, 0, 0, 0, low, 0, 0, 0, 0, 0, 0, 0, 17, 0, 0, 0, 1, 0, 0, 0]⟩
  lists := (FreeLists.empty 8).setHead (SizeClass.ofSize 16) 16
  prologue := 8
  config := default
  journal := #[]

def strayFiles (cls : SizeClass) : List Nat := if cls = SizeClass.ofSize 16 then [16] else []

theorem stray_terminated (low : UInt8) (known : low = 0 ∨ low = 16) :
    (stray low).Terminated strayFiles := by
  constructor
  · intro cls
    by_cases listed : cls = SizeClass.ofSize 16
    · subst listed
      rcases known with rfl | rfl <;> exact ⟨by decide, 8, by decide, rfl⟩
    · rw [strayFiles, if_neg listed, stray, FreeLists.head_setHead, if_neg listed]
      exact FreeLists.head_empty 8 cls
  · intro cls c member
    have here : c = 16 := by
      unfold strayFiles at member
      split at member
      · exact List.mem_singleton.mp member
      · cases member
    subst here
    rcases known with rfl | rfl <;> exact ⟨⟨16⟩, by decide, by decide⟩
  · rcases known with rfl | rfl <;> exact ⟨⟨9⟩, by decide, by decide⟩

theorem stray_reported : (stray 16).Terminated strayFiles ∧
    Block.tag (stray 16).memory 32 = .ok (Tag.of 16 true) ∧ 16 ≤ (Tag.of 16 true).size ∧
    32 + (Tag.of 16 true).size ≤ Memory.size (stray 16).memory + 4 ∧
    32 ∉ strayFiles (SizeClass.ofSize (Tag.of 16 true).size) ∧
    remove 32 (stray 16) = .error (.notListed 32 4) (stray 16) := by
  have terminated := stray_terminated 16 (by decide)
  have read : Block.tag (stray 16).memory 32 = .ok (Tag.of 16 true) := by decide
  have room : 16 ≤ (Tag.of 16 true).size := by decide
  have inside : 32 + (Tag.of 16 true).size ≤ Memory.size (stray 16).memory + 4 := by decide
  have absent : 32 ∉ strayFiles (SizeClass.ofSize (Tag.of 16 true).size) := by decide
  obtain ⟨next, link, _, _, reported⟩ := remove_absent terminated read room inside absent
  have stale : Block.link (stray 16).memory 32 = .ok 16 := by decide
  obtain rfl : next = 16 := Except.ok.inj (link.symm.trans stale)
  exact ⟨terminated, read, room, inside, absent, (reported (by decide)).1 (by decide)⟩

/-- A payload of zeros is not: the header in front of offset zero cannot be read. -/
theorem stray_overflow : (stray 0).Terminated strayFiles ∧
    Block.tag (stray 0).memory 32 = .ok (Tag.of 16 true) ∧
    Block.tagAt (stray 0).memory 40 = .ok (Tag.of 16 true) ∧
    32 ∉ strayFiles (SizeClass.ofSize (Tag.of 16 true).size) ∧
    remove 32 (stray 0) = .error .overflow (stray 0) ∧ Fault.overflow.assertion? = none :=
  ⟨stray_terminated 0 (by decide), by decide, by decide, by decide, rfl, rfl⟩

end Heap

end SegregatedFit
