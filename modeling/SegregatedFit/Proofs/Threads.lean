import Mathlib.Data.List.Find
import Mathlib.Data.List.Nodup
import Mathlib.Data.List.Perm.Subperm
import SegregatedFit.Proofs.Codec

namespace SegregatedFit

/-- Following the links from `b` on visits `blocks` and then comes to `stop`. -/
def Threaded {M : Type} [Memory M] (m : M) (stop : Nat) : Nat → List Nat → Prop
  | b, [] => b = stop
  | b, c :: rest => b = c ∧ ∃ next, Block.link m c = .ok next ∧ Threaded m stop next rest

namespace Threaded

variable {M : Type} [Memory M] {m m' : M} {stop b p c : Nat} {blocks xs ys : List Nat}

theorem head_eq (threaded : Threaded m stop b blocks) : b = blocks.headD stop := by
  cases blocks with
  | nil => exact threaded
  | cons c rest => exact threaded.1

theorem of_same (same : ∀ d ∈ blocks, ∀ next, Block.link m d = .ok next → Block.link m' d = .ok next)
    (threaded : Threaded m stop b blocks) : Threaded m' stop b blocks := by
  induction blocks generalizing b with
  | nil => exact threaded
  | cons d rest ih =>
    obtain ⟨rfl, next, link, later⟩ := threaded
    refine ⟨rfl, next, same b (by simp) next link, ih ?_ later⟩
    intro e member
    exact same e (List.mem_cons_of_mem _ member)

theorem drop_left (threaded : Threaded m stop b (xs ++ ys)) :
    Threaded m stop (ys.headD stop) ys := by
  induction xs generalizing b with
  | nil => exact threaded.head_eq ▸ threaded
  | cons d rest ih =>
    obtain ⟨_, next, _, later⟩ := threaded
    exact ih later

theorem link_eq (threaded : Threaded m stop b (xs ++ c :: ys)) :
    Block.link m c = .ok (ys.headD stop) := by
  obtain ⟨_, next, link, later⟩ := threaded.drop_left
  rw [link, later.head_eq]

theorem of_link {next : Nat} (threaded : Threaded m stop b blocks) (member : c ∈ blocks)
    (link : Block.link m c = .ok next) : next ∈ blocks ∨ next = stop := by
  obtain ⟨xs, ys, rfl⟩ := List.append_of_mem member
  rw [threaded.link_eq] at link
  cases link
  cases ys with
  | nil => exact .inr rfl
  | cons d rest => exact .inl (by simp)

theorem unlink (threaded : Threaded m stop b (xs ++ p :: c :: ys))
    (taken : Block.link m' p = .ok (ys.headD stop))
    (same : ∀ d ∈ xs ++ ys, ∀ next, Block.link m d = .ok next → Block.link m' d = .ok next) :
    Threaded m' stop b (xs ++ p :: ys) := by
  induction xs generalizing b with
  | nil =>
    obtain ⟨rfl, next, _, later⟩ := threaded
    have behind : Threaded m stop next ([c] ++ ys) := later
    refine ⟨rfl, _, taken, behind.drop_left.of_same ?_⟩
    simpa using same
  | cons d rest ih =>
    obtain ⟨rfl, next, link, later⟩ := threaded
    refine ⟨rfl, next, same b (by simp) next link, ih later ?_⟩
    intro e member
    exact same e (List.mem_cons_of_mem _ member)

end Threaded

namespace FreeLists

variable {M : Type} [Memory M] {m : M} {stop b : Nat} {blocks : List Nat}

def Free (m : M) (c : Nat) : Prop := ∃ t, Block.tag m c = .ok t ∧ t.allocated = false

def Used (m : M) (c : Nat) : Prop := ∃ t, Block.tag m c = .ok t ∧ t.allocated = true

instance (m : M) (c : Nat) : Decidable (Used m c) :=
  match read : Block.tag m c with
  | .ok t => decidable_of_iff (t.allocated = true) (by simp [Used, read])
  | .error _ => isFalse (by simp [Used, read])

def passes (m : M) (test : Tag → Block → Bool) (c : Nat) : Bool :=
  match Block.tag m c, Block.link m c with
  | .ok tag, .ok next => test tag next
  | _, _ => false

theorem passes_eq {test : Tag → Block → Bool} {c next : Nat} {t : Tag}
    (read : Block.tag m c = .ok t) (link : Block.link m c = .ok next) :
    passes m test c = test t next := by
  simp only [passes, read, link]

theorem seek_threaded (test : Tag → Block → Bool) {fuel : Nat} (enough : blocks.length < fuel)
    (threaded : Threaded m stop b blocks) (free : ∀ c ∈ blocks, Free m c) (ends : Used m stop) :
    seek m test fuel b = .ok (blocks.find? (passes m test)) := by
  induction blocks generalizing b fuel with
  | nil =>
    obtain ⟨fuel, rfl⟩ : ∃ n, fuel = n + 1 := ⟨fuel - 1, by omega⟩
    obtain ⟨t, read, allocated⟩ := ends
    have here : b = stop := threaded
    subst here
    simp [seek, read, allocated, bind, Except.bind, pure, Except.pure]
  | cons c rest ih =>
    obtain ⟨fuel, rfl⟩ : ∃ n, fuel = n + 1 := ⟨fuel - 1, by omega⟩
    obtain ⟨rfl, next, link, later⟩ := threaded
    obtain ⟨t, read, unused⟩ := free b (by simp)
    have tail := ih (by simpa using enough) later fun d member =>
      free d (List.mem_cons_of_mem _ member)
    simp only [seek, read, unused, link, bind, Except.bind, List.find?_cons, passes_eq read link,
      Bool.false_eq_true, if_false]
    cases test t next with
    | true => rfl
    | false => simpa using tail

theorem length_le_of_nodup (nodup : blocks.Nodup) (free : ∀ c ∈ blocks, Free m c) :
    blocks.length ≤ Memory.size m := by
  have within : blocks ⊆ (List.range (Memory.size m + 1)).erase 0 := by
    intro c member
    obtain ⟨t, read, _⟩ := free c member
    have := Block.tag_inside read
    rw [List.Nodup.mem_erase_iff List.nodup_range, List.mem_range]
    omega
  have := (List.subperm_of_subset nodup within).length_le
  rwa [List.length_erase_of_mem (by simp), List.length_range, Nat.add_sub_cancel] at this

theorem find?_threaded (test : Tag → Block → Bool) (threaded : Threaded m stop b blocks)
    (nodup : blocks.Nodup) (free : ∀ c ∈ blocks, Free m c) (ends : Used m stop) :
    find? m test b = .ok (blocks.find? (passes m test)) :=
  seek_threaded test (Nat.lt_succ_of_le (length_le_of_nodup nodup free)) threaded free ends

section Searching

variable {lists : FreeLists} {stops : SizeClass → Nat} {files : SizeClass → List Nat}
  (threaded : ∀ cls, Threaded m (stops cls) (lists.head cls) (files cls))
  (nodup : ∀ cls, (files cls).Nodup) (free : ∀ cls, ∀ c ∈ files cls, Free m c)
  (ends : ∀ cls, Used m (stops cls))

include threaded nodup free ends

theorem firstFitIn_threaded (size : Nat) (classes : List SizeClass) :
    lists.firstFitIn m size classes =
      .ok ((classes.flatMap files).find? fun c => size ≤ Block.sizeAt m c) := by
  induction classes with
  | nil => rfl
  | cons cls classes ih =>
    have here : (files cls).find? (passes m fun tag _ => size ≤ tag.size) =
        (files cls).find? fun c => size ≤ Block.sizeAt m c := by
      apply List.find?_congr
      intro c member
      obtain ⟨t, read, _⟩ := free cls c member
      obtain ⟨xs, ys, split⟩ := List.append_of_mem member
      rw [passes_eq read (split ▸ threaded cls).link_eq, Block.sizeAt_eq read]
    have searched := find?_threaded (fun tag _ => size ≤ tag.size) (threaded cls) (nodup cls)
      (free cls) (ends cls)
    simp only [firstFitIn, searched, here, bind, Except.bind, List.flatMap_cons,
      List.find?_append]
    cases (files cls).find? fun c => size ≤ Block.sizeAt m c with
    | some c => rfl
    | none => simpa using ih

/-- A search of the lists from one class upwards is a search of their blocks in turn. -/
theorem firstFit_threaded {size : Nat} (bounded : size ≤ 1 <<< 63) :
    lists.firstFit m size = .ok
      (((SizeClass.all.drop (SizeClass.ofSize size)).flatMap files).find?
        fun c => size ≤ Block.sizeAt m c) := by
  simp only [firstFit, SizeClass.ofRequest, if_pos bounded, bind, Except.bind]
  exact firstFitIn_threaded threaded nodup free ends _ _

end Searching

theorem take_threaded (limit : Nat) (threaded : Threaded m stop b blocks)
    (free : ∀ c ∈ blocks, Free m c) (ends : Used m stop) :
    take m limit b = .ok (blocks.take limit) := by
  induction blocks generalizing b limit with
  | nil =>
    have here : b = stop := threaded
    subst here
    obtain ⟨t, read, used⟩ := ends
    cases limit <;>
      simp [take, Block.allocated_of_tag read, used, bind, Except.bind, pure, Except.pure]
  | cons c rest ih =>
    obtain ⟨rfl, next, link, later⟩ := threaded
    obtain ⟨t, read, unused⟩ := free b (by simp)
    cases limit with
    | zero => rfl
    | succ limit =>
      have tail := ih limit later fun d member => free d (List.mem_cons_of_mem _ member)
      simp [take, Block.allocated_of_tag read, unused, link, tail, bind, Except.bind, pure,
        Except.pure]

end FreeLists

end SegregatedFit
