import SegregatedFit.Heap.Listing
import SegregatedFit.Proofs.Lists
import SegregatedFit.Proofs.Threads

/-!
The free lists as a family of lists of blocks. Putting a block on the list of its size adds it in
front, taking one off erases it, and a search runs through the lists from one class upwards. The
only bytes that change are those of one link.
-/

namespace SegregatedFit

namespace Heap

/-- What a step leaves alone: the shape of the heap and all bytes that it is not said to change. -/
structure Keeps {M : Type} [Memory M] (h h' : Heap M) (changed : Nat → Prop) : Prop where
  size : Memory.size h'.memory = Memory.size h.memory
  byte : ∀ i, ¬changed i → Memory.byte h'.memory i = Memory.byte h.memory i
  prologue : h'.prologue = h.prologue
  config : h'.config = h.config
  terminator : h'.lists.terminator = h.lists.terminator

namespace Keeps

variable {M : Type} [Memory M] {h h' h'' : Heap M} {changed changed' : Nat → Prop}

theorem mono (keeps : h.Keeps h' changed) (wider : ∀ i, changed i → changed' i) :
    h.Keeps h' changed' :=
  { keeps with byte := fun i outside => keeps.byte i fun inside => outside (wider i inside) }

theorem trans (first : h.Keeps h' changed) (second : h'.Keeps h'' changed) :
    h.Keeps h'' changed where
  size := second.size.trans first.size
  byte i outside := (second.byte i outside).trans (first.byte i outside)
  prologue := second.prologue.trans first.prologue
  config := second.config.trans first.config
  terminator := second.terminator.trans first.terminator

end Keeps

end Heap

/-- The links of two listed blocks, and the header of one and the link of the other, are apart. -/
def Apart (c d : Nat) : Prop := c + 12 ≤ d ∨ d + 12 ≤ c

/-- The lists in memory hold exactly the blocks of `files`, in this order, and each of them ends at
one of the blocks in use that `ends` names. The terminator is one of these. -/
structure Filed {M : Type} [Memory M] (m : M) (lists : FreeLists) (ends : Nat → Prop)
    (files : SizeClass → List Nat) : Prop where
  threaded : ∀ cls, ∃ stop, ends stop ∧ Threaded m stop (lists.head cls) (files cls)
  nodup : ∀ cls, (files cls).Nodup
  free : ∀ cls, ∀ c ∈ files cls, ∃ t, Block.tag m c = .ok t ∧ t.allocated = false ∧
    SizeClass.ofSize t.size = cls
  terminator : ends lists.terminator
  used : ∀ stop, ends stop → FreeLists.Used m stop
  apart : ∀ cls, ∀ c ∈ files cls, ∀ cls', ∀ d ∈ files cls', c ≠ d → Apart c d
  ends_apart : ∀ cls, ∀ c ∈ files cls, ∀ stop, ends stop → stop ≤ c ∨ c + 12 ≤ stop

namespace Filed

variable {M : Type} [Memory M] {m m' : M} {lists : FreeLists} {ends : Nat → Prop}
  {files : SizeClass → List Nat} {cls : SizeClass} {b c stop : Nat}

theorem listed_free (filed : Filed m lists ends files) (member : c ∈ files cls) :
    FreeLists.Free m c := by
  obtain ⟨t, read, unused, _⟩ := filed.free cls c member
  exact ⟨t, read, unused⟩

theorem class_eq (filed : Filed m lists ends files) {cls' : SizeClass} (here : c ∈ files cls)
    (there : c ∈ files cls') : cls = cls' := by
  obtain ⟨t, read, _, rfl⟩ := filed.free cls c here
  obtain ⟨t', read', _, rfl⟩ := filed.free cls' c there
  rw [read] at read'
  cases read'
  rfl

theorem find?_eq (filed : Filed m lists ends files) (test : Tag → Block → Bool) (cls : SizeClass) :
    FreeLists.find? m test (lists.head cls) =
      .ok ((files cls).find? (FreeLists.passes m test)) := by
  obtain ⟨stop, ending, threaded⟩ := filed.threaded cls
  exact FreeLists.find?_threaded test threaded (filed.nodup cls)
    (fun _ member => filed.listed_free member) (filed.used stop ending)

theorem link_defined (filed : Filed m lists ends files) (member : c ∈ files cls) :
    ∃ next, Block.link m c = .ok next := by
  obtain ⟨xs, ys, split⟩ := List.append_of_mem member
  obtain ⟨stop, _, threaded⟩ := filed.threaded cls
  exact ⟨_, (split ▸ threaded).link_eq⟩

theorem firstFit_eq (filed : Filed m lists ends files) {size : Nat} (bounded : size ≤ 1 <<< 63) :
    lists.firstFit m size = .ok
      (((SizeClass.all.drop (SizeClass.ofSize size)).flatMap files).find?
        fun c => size ≤ Block.sizeAt m c) := by
  choose stops ending threaded using filed.threaded
  exact FreeLists.firstFit_threaded threaded filed.nodup
    (fun cls c member => filed.listed_free member) (fun cls => filed.used _ (ending cls)) bounded

theorem tag_written {p value : Nat} {t : Tag} (inside : p + 8 ≤ Memory.size m)
    (clear : c ≤ p ∨ p + 12 ≤ c) (read : Block.tag m c = .ok t) :
    Block.tag (Memory.writeNat m p 8 value) c = .ok t := by
  refine Block.tag_of_same (by simp) ?_ read
  intro i low high
  apply Memory.byte_writeNat_outside _ _ _ _ _ inside
  omega

theorem link_written {p value next : Nat} (inside : p + 8 ≤ Memory.size m) (apart : Apart c p)
    (link : Block.link m c = .ok next) :
    Block.link (Memory.writeNat m p 8 value) c = .ok next := by
  refine Block.link_of_same (by simp) ?_ link
  intro i low high
  apply Memory.byte_writeNat_outside _ _ _ _ _ inside
  unfold Apart at apart
  omega

theorem of_sublists {lists' : FreeLists} {files' : SizeClass → List Nat}
    (filed : Filed m lists ends files) (same_end : lists'.terminator = lists.terminator)
    (threaded : ∀ cls, ∃ stop, ends stop ∧ Threaded m' stop (lists'.head cls) (files' cls))
    (fewer : ∀ cls, (files' cls).Sublist (files cls))
    (same : ∀ c t, ((∃ cls, c ∈ files cls) ∨ ends c) →
      Block.tag m c = .ok t → Block.tag m' c = .ok t) :
    Filed m' lists' ends files' where
  threaded := threaded
  nodup cls := (fewer cls).nodup (filed.nodup cls)
  free cls c member := by
    have old := (fewer cls).subset member
    obtain ⟨t, read, rest⟩ := filed.free cls c old
    exact ⟨t, same c t (.inl ⟨cls, old⟩) read, rest⟩
  terminator := same_end ▸ filed.terminator
  used stop ending := by
    obtain ⟨t, read, used⟩ := filed.used stop ending
    exact ⟨t, same stop t (.inr ending) read, used⟩
  apart cls c here cls' d there :=
    filed.apart cls c ((fewer cls).subset here) cls' d ((fewer cls').subset there)
  ends_apart cls c member := filed.ends_apart cls c ((fewer cls).subset member)

theorem of_same (filed : Filed m lists ends files) (same_size : Memory.size m ≤ Memory.size m')
    (same : ∀ cls, ∀ c ∈ files cls, ∀ i, c ≤ i + 4 → i < c + 8 →
      Memory.byte m' i = Memory.byte m i)
    (same_end : ∀ stop, ends stop → ∀ i, stop ≤ i + 4 → i < stop →
      Memory.byte m' i = Memory.byte m i) : Filed m' lists ends files := by
  refine filed.of_sublists rfl ?_ (fun _ => List.Sublist.refl _) ?_
  · intro cls
    obtain ⟨stop, ending, threaded⟩ := filed.threaded cls
    refine ⟨stop, ending, threaded.of_same fun c member next link => ?_⟩
    exact Block.link_of_same same_size (fun i _ _ => same cls c member i (by omega) (by omega)) link
  · rintro c t (⟨cls, member⟩ | ending) read
    · refine Block.tag_of_same same_size (fun i low _ => ?_) read
      exact same cls c member i low (by omega)
    · exact Block.tag_of_same same_size (same_end c ending) read

theorem head_lt (filed : Filed m lists ends files) (bounded : Memory.size m < offsetLimit)
    (ending : ends stop) (cls : SizeClass) (blocks : List Nat)
    (listed : ∀ c ∈ blocks, c ∈ files cls) : blocks.headD stop < offsetLimit := by
  cases blocks with
  | nil =>
    obtain ⟨t, read, _⟩ := filed.used stop ending
    exact Nat.lt_of_le_of_lt (Block.tag_inside read).2 bounded
  | cons c rest =>
    obtain ⟨t, read, _⟩ := filed.listed_free (listed c (by simp))
    exact Nat.lt_of_le_of_lt (Block.tag_inside read).2 bounded

theorem head_removed {ys : List Nat} (filed : Filed m lists ends files) (split : files cls = b :: ys) :
    Filed m (lists.setHead cls (ys.headD lists.terminator)) ends
      (Function.update files cls ys) := by
  have fewer : ys.Sublist (files cls) := split ▸ List.sublist_cons_self b ys
  refine filed.of_sublists rfl ?_ (update_sublist fewer) fun _ _ _ same => same
  intro other
  rw [FreeLists.head_setHead]
  by_cases same : other = cls
  · subst same
    obtain ⟨stop, ending, threaded⟩ := filed.threaded other
    rw [show files other = [b] ++ ys from split] at threaded
    rw [if_pos rfl, Function.update_self]
    -- a list that becomes empty ends at the terminator from now on
    cases ys with
    | nil => exact ⟨lists.terminator, filed.terminator, rfl⟩
    | cons c rest => exact ⟨stop, ending, threaded.drop_left⟩
  · rw [if_neg same, Function.update_of_ne same]
    exact filed.threaded other

theorem link_beside {p value next : Nat} (filed : Filed m lists ends files)
    (inside : p + 8 ≤ Memory.size m) (member : p ∈ files cls) {other : SizeClass}
    (listed : c ∈ files other) (different : c ≠ p) (link : Block.link m c = .ok next) :
    Block.link (Memory.writeNat m p 8 value) c = .ok next :=
  link_written inside (filed.apart other c listed cls p member different) link

theorem tag_beside {p value : Nat} {t : Tag} (filed : Filed m lists ends files)
    (inside : p + 8 ≤ Memory.size m) (member : p ∈ files cls)
    (known : (∃ cls, c ∈ files cls) ∨ ends c) (read : Block.tag m c = .ok t) :
    Block.tag (Memory.writeNat m p 8 value) c = .ok t := by
  refine tag_written inside ?_ read
  rcases known with ⟨other, listed⟩ | ending
  · by_cases same : c = p
    · omega
    · have apart := filed.apart other c listed cls p member same
      unfold Apart at apart
      omega
  · have := filed.ends_apart cls p member c ending
    omega

theorem inner_removed {p : Nat} {xs ys : List Nat} (filed : Filed m lists ends files)
    (bounded : Memory.size m < offsetLimit) (ending : ends stop)
    (threaded : Threaded m stop (lists.head cls) (files cls))
    (split : files cls = xs ++ p :: b :: ys) :
    Filed (Memory.writeNat m p 8 (ys.headD stop)) lists ends
      (Function.update files cls (xs ++ p :: ys)) := by
  have member : p ∈ files cls := by simp [split]
  have inside := (Block.link_eq_ok.mp (split ▸ threaded).link_eq).1
  have small := filed.head_lt bounded ending cls ys fun c later => by simp [split, later]
  have fewer : (xs ++ p :: ys).Sublist (files cls) := by
    rw [split]
    exact (List.Sublist.refl xs).append ((List.sublist_cons_self b ys).cons_cons p)
  refine filed.of_sublists rfl ?_ (update_sublist fewer) fun _ _ => filed.tag_beside inside member
  intro other
  by_cases same : other = cls
  · subst same
    rw [Function.update_self]
    refine ⟨stop, ending, (split ▸ threaded).unlink (Block.link_written inside small) ?_⟩
    intro d stays next link
    have rest : d ∈ xs ++ b :: ys := mem_cons_of_around stays
    have different : d ≠ p := by
      rintro rfl
      exact not_mem_around (split ▸ filed.nodup other) rest
    exact filed.link_beside inside member (split ▸ mem_cons_of_around rest) different link
  · rw [Function.update_of_ne same]
    obtain ⟨stop', ending', threaded'⟩ := filed.threaded other
    refine ⟨stop', ending', threaded'.of_same fun d listed next link => ?_⟩
    have different : d ≠ p := fun here => same (filed.class_eq listed (here ▸ member))
    exact filed.link_beside inside member listed different link

section Insertion

variable {own : SizeClass}

theorem fresh_of_beside (beside : ∀ cls, ∀ c ∈ files cls, Apart c b) (cls : SizeClass) :
    b ∉ files cls := by
  intro member
  have apart := beside cls b member
  unfold Apart at apart
  omega

theorem threaded_inserted (filed : Filed m lists ends files)
    (bounded : Memory.size m < offsetLimit) (inside : b + 8 ≤ Memory.size m)
    (beside : ∀ cls, ∀ c ∈ files cls, Apart c b) (cls : SizeClass) :
    ∃ stop, ends stop ∧ Threaded (Memory.writeNat m b 8 (lists.head own)) stop
      ((lists.setHead own b).head cls) (Function.update files own (b :: files own) cls) := by
  obtain ⟨stop, ending, threaded⟩ := filed.threaded cls
  have kept : Threaded (Memory.writeNat m b 8 (lists.head own)) stop (lists.head cls)
      (files cls) :=
    threaded.of_same fun c member next link => link_written inside (beside cls c member) link
  refine ⟨stop, ending, ?_⟩
  rw [FreeLists.head_setHead]
  by_cases same : cls = own
  · subst same
    have small : lists.head cls < offsetLimit := by
      rw [threaded.head_eq]
      exact filed.head_lt bounded ending cls (files cls) fun _ member => member
    rw [if_pos rfl, Function.update_self]
    exact ⟨rfl, lists.head cls, Block.link_written inside small, kept⟩
  · rw [if_neg same, Function.update_of_ne same]
    exact kept

theorem apart_inserted (filed : Filed m lists ends files)
    (beside : ∀ cls, ∀ c ∈ files cls, Apart c b) {cls cls' : SizeClass} {d : Nat}
    (here : c ∈ Function.update files own (b :: files own) cls)
    (there : d ∈ Function.update files own (b :: files own) cls') (different : c ≠ d) :
    Apart c d := by
  rcases mem_update_cons.mp here with ⟨rfl, rfl⟩ | old <;>
    rcases mem_update_cons.mp there with ⟨rfl, rfl⟩ | old'
  · exact absurd rfl different
  · exact (beside cls' d old').symm
  · exact beside cls c old
  · exact filed.apart cls c old cls' d old' different

theorem inserted {t : Tag} (filed : Filed m lists ends files) (bounded : Memory.size m < offsetLimit)
    (read : Block.tag m b = .ok t) (unused : t.allocated = false) (inside : b + 8 ≤ Memory.size m)
    (beside : ∀ cls, ∀ c ∈ files cls, Apart c b)
    (past : ∀ stop, ends stop → stop ≤ b ∨ b + 12 ≤ stop) :
    Filed (Memory.writeNat m b 8 (lists.head (SizeClass.ofSize t.size)))
      (lists.setHead (SizeClass.ofSize t.size) b) ends
      (Function.update files (SizeClass.ofSize t.size)
        (b :: files (SizeClass.ofSize t.size))) where
  threaded := filed.threaded_inserted bounded inside beside
  nodup := nodup_update_cons filed.nodup (fresh_of_beside beside _)
  free cls c member := by
    rcases mem_update_cons.mp member with ⟨rfl, rfl⟩ | old
    · exact ⟨t, tag_written inside (by omega) read, unused, rfl⟩
    · obtain ⟨t, read, rest⟩ := filed.free cls c old
      have apart := beside cls c old
      unfold Apart at apart
      exact ⟨t, tag_written inside (by omega) read, rest⟩
  terminator := filed.terminator
  used stop ending := by
    obtain ⟨t, read, used⟩ := filed.used stop ending
    exact ⟨t, tag_written inside (past stop ending) read, used⟩
  apart cls c here cls' d there different := filed.apart_inserted beside here there different
  ends_apart cls c member := by
    rcases mem_update_cons.mp member with ⟨rfl, rfl⟩ | old
    · exact past
    · exact filed.ends_apart cls c old

end Insertion

end Filed

namespace Heap

variable {M : Type} [Memory M] {h : Heap M} {ends : Nat → Prop} {files : SizeClass → List Nat}
  {b p stop : Nat} {t : Tag} {xs ys : List Nat}

theorem allocated_next (filed : Filed h.memory h.lists ends files) (ending : ends stop)
    (cls : SizeClass) (ys : List Nat) (listed : ∀ c ∈ ys, c ∈ files cls) :
    Block.allocated h.memory (ys.headD stop) = .ok ys.isEmpty := by
  cases ys with
  | nil =>
    obtain ⟨t, read, used⟩ := filed.used stop ending
    rw [List.headD_nil, Block.allocated_of_tag read, used]
    rfl
  | cons c rest =>
    obtain ⟨t, read, unused⟩ := filed.listed_free (listed c (by simp))
    rw [List.headD_cons, Block.allocated_of_tag read, unused]
    rfl

theorem remove_head (filed : Filed h.memory h.lists ends files) (read : Block.tag h.memory b = .ok t)
    (split : files (SizeClass.ofSize t.size) = b :: ys) :
    remove b h = .ok ()
      { h with
        lists := h.lists.setHead (SizeClass.ofSize t.size) (ys.headD h.lists.terminator)
        journal := h.journal.push (.poppedHead (SizeClass.ofSize t.size) b) } := by
  obtain ⟨stop, ending, threaded⟩ := filed.threaded (SizeClass.ofSize t.size)
  have threaded : Threaded h.memory stop (h.lists.head (SizeClass.ofSize t.size))
      ([] ++ b :: ys) := split ▸ threaded
  have first : h.lists.head (SizeClass.ofSize t.size) = b := threaded.1
  have last := allocated_next filed ending (SizeClass.ofSize t.size) ys fun c member => by
    simp [split, member]
  have replaced : (if ys.isEmpty = true then h.lists.terminator else ys.headD stop) =
      ys.headD h.lists.terminator := by
    cases ys <;> rfl
  simp only [remove, query_bind, Block.size_of_tag read, threaded.link_eq, last]
  rw [bind_of_ok (head_apply _), get_bind]
  simp only [first, if_true, replaced]
  rw [bind_of_ok (setHead_apply _ _), record_apply]

theorem find_before (filed : Filed h.memory h.lists ends files) {cls : SizeClass}
    (split : files cls = xs ++ p :: b :: ys) :
    (files cls).find? (FreeLists.passes h.memory fun _ link => link == b) = some p := by
  have nodup := filed.nodup cls
  obtain ⟨stop, _, threaded⟩ := filed.threaded cls
  have free : ∀ c ∈ files cls, FreeLists.Free h.memory c := fun _ => filed.listed_free
  rw [split] at nodup threaded free ⊢
  have link_passes : ∀ c next, c ∈ xs ++ p :: b :: ys → Block.link h.memory c = .ok next →
      FreeLists.passes h.memory (fun _ link => link == b) c = (next == b) := by
    intro c next member link
    obtain ⟨t, read, _⟩ := free c member
    exact FreeLists.passes_eq read link
  refine List.find?_eq_some_iff_append.mpr ⟨?_, xs, b :: ys, rfl, ?_⟩
  · simp [link_passes p b (by simp) threaded.link_eq]
  · intro c member
    obtain ⟨us, vs, rfl⟩ := List.append_of_mem member
    rw [List.append_assoc, List.cons_append] at threaded
    rw [link_passes c _ (by simp) threaded.link_eq]
    -- the block behind `c` comes before `b`, and no block comes twice
    have later : (vs ++ p :: b :: ys).Nodup := by
      rw [List.append_assoc, List.cons_append] at nodup
      exact (List.nodup_cons.mp nodup.of_append_right).2
    simpa using headD_ne_second later stop

theorem remove_inner (filed : Filed h.memory h.lists ends files) (read : Block.tag h.memory b = .ok t)
    (ending : ends stop)
    (threaded : Threaded h.memory stop (h.lists.head (SizeClass.ofSize t.size))
      (files (SizeClass.ofSize t.size)))
    (split : files (SizeClass.ofSize t.size) = xs ++ p :: b :: ys) :
    remove b h = .ok ()
      { h with
        memory := Memory.writeNat h.memory p 8 (ys.headD stop)
        journal := h.journal.push (.unlinked (SizeClass.ofSize t.size) b) } := by
  have first : h.lists.head (SizeClass.ofSize t.size) ≠ b := by
    rw [threaded.head_eq, split]
    exact headD_ne_second (split ▸ filed.nodup (SizeClass.ofSize t.size)) stop
  rw [split, List.append_cons] at threaded
  have last := allocated_next filed ending (SizeClass.ofSize t.size) ys fun c member => by
    simp [split, member]
  have found := filed.find?_eq (fun _ link => link == b) (SizeClass.ofSize t.size)
  rw [find_before filed split] at found
  have member : p ∈ files (SizeClass.ofSize t.size) := by simp [split]
  obtain ⟨next, link⟩ := filed.link_defined member
  simp only [remove, query_bind, Block.size_of_tag read, threaded.link_eq, last]
  rw [bind_of_ok (head_apply _), get_bind]
  simp only [first, if_false, query_bind, found]
  rw [bind_of_ok (setLink_of_inside (Block.link_eq_ok.mp link).1), record_apply]

/-- Taking `b` off erases it from its list. Only the link of a block that stays there is written. -/
theorem remove_filed (filed : Filed h.memory h.lists ends files)
    (bounded : Memory.size h.memory < offsetLimit) (read : Block.tag h.memory b = .ok t)
    (listed : b ∈ files (SizeClass.ofSize t.size)) :
    ∃ h', remove b h = .ok () h' ∧
      Filed h'.memory h'.lists ends (Function.update files (SizeClass.ofSize t.size)
        ((files (SizeClass.ofSize t.size)).erase b)) ∧
      h.Keeps h' (fun i => ∃ p ∈ (files (SizeClass.ofSize t.size)).erase b, p ≤ i ∧ i < p + 8) ∧
      h'.journal = h.journal.push
        (if (files (SizeClass.ofSize t.size)).head? = some b then
          .poppedHead (SizeClass.ofSize t.size) b
        else .unlinked (SizeClass.ofSize t.size) b) := by
  have nodup := filed.nodup (SizeClass.ofSize t.size)
  obtain ⟨xs, ys, split⟩ := List.append_of_mem listed
  rcases xs.eq_nil_or_concat with rfl | ⟨zs, p, rfl⟩
  · rw [List.nil_append] at split
    rw [split, List.erase_cons_head, List.head?_cons, if_pos rfl]
    exact ⟨_, remove_head filed read split, filed.head_removed split,
      ⟨rfl, fun _ _ => rfl, rfl, rfl, rfl⟩, rfl⟩
  · rw [List.concat_eq_append, List.append_assoc, List.singleton_append] at split
    obtain ⟨stop, ending, threaded⟩ := filed.threaded (SizeClass.ofSize t.size)
    have link := (split ▸ threaded).link_eq
    have inside := (Block.link_eq_ok.mp link).1
    rw [split] at nodup
    have first : (zs ++ p :: b :: ys).head? ≠ some b := by
      intro head
      apply headD_ne_second nodup stop
      rw [List.headD_eq_head?_getD, head]
      rfl
    rw [split, erase_second nodup, if_neg first]
    refine ⟨_, remove_inner filed read ending threaded split,
      filed.inner_removed bounded ending threaded split, ?_, rfl⟩
    refine ⟨Memory.size_writeNat _ _ _ _, fun i outside => ?_, rfl, rfl, rfl⟩
    apply Memory.byte_writeNat_outside _ _ _ _ _ inside
    have : ¬(p ≤ i ∧ i < p + 8) := fun within => outside ⟨p, by simp, within⟩
    omega

theorem insert_eq (read : Block.tag h.memory b = .ok t) (inside : b + 8 ≤ Memory.size h.memory) :
    insert b h = .ok ()
      { h with
        memory := Memory.writeNat h.memory b 8 (h.lists.head (SizeClass.ofSize t.size))
        lists := h.lists.setHead (SizeClass.ofSize t.size) b
        journal := h.journal.push (.pushed (SizeClass.ofSize t.size) b) } := by
  simp only [insert, query_bind, Block.size_of_tag read]
  rw [bind_of_ok (head_apply _), bind_of_ok (setLink_of_inside inside),
    bind_of_ok (setHead_apply _ _), record_apply]

theorem insert_filed (filed : Filed h.memory h.lists ends files)
    (bounded : Memory.size h.memory < offsetLimit) (read : Block.tag h.memory b = .ok t)
    (unused : t.allocated = false) (inside : b + 8 ≤ Memory.size h.memory)
    (beside : ∀ cls, ∀ c ∈ files cls, Apart c b)
    (past : ∀ stop, ends stop → stop ≤ b ∨ b + 12 ≤ stop) :
    ∃ h', insert b h = .ok () h' ∧
      Filed h'.memory h'.lists ends (Function.update files (SizeClass.ofSize t.size)
        (b :: files (SizeClass.ofSize t.size))) ∧
      h.Keeps h' (fun i => b ≤ i ∧ i < b + 8) ∧
      h'.journal = h.journal.push (.pushed (SizeClass.ofSize t.size) b) := by
  refine ⟨_, insert_eq read inside, filed.inserted bounded read unused inside beside past, ?_, rfl⟩
  refine ⟨Memory.size_writeNat _ _ _ _, fun i outside => ?_, rfl, rfl, rfl⟩
  exact Memory.byte_writeNat_outside _ _ _ _ _ inside (by omega)

end Heap

end SegregatedFit
