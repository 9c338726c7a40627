import SegregatedFit.Proofs.Requests
import SegregatedFit.Usage

namespace SegregatedFit

namespace Heap

/-- The chain of blocks goes from the prologue to an epilogue at the end of the memory, and the
lists hold exactly the free blocks of the chain. Each list runs to a block in use, which is its
stop. That sizes are multiples of eight is true of all tags (`Tag.size_mod`). -/
structure Consistent {M : Type} [Memory M] (h : Heap M) (spans : List Span)
    (files : SizeClass → List Nat) (stops : SizeClass → Nat) : Prop where
  chained : Chained h.memory h.prologue spans
  room : ∀ x ∈ spans, Block.minSize ≤ x.tag.size
  aligned : ∀ x ∈ spans, x.block % 8 = 0
  apart : spans.IsChain NoFreePair
  threaded : ∀ cls, Threaded h.memory (stops cls) (h.lists.head cls) (files cls)
  ends : ∀ cls, FreeLists.Used h.memory (stops cls) ∧ stops cls + 8 ≤ Memory.size h.memory
  nodup : ∀ cls, (files cls).Nodup
  listed : ∀ cls b, b ∈ files cls ↔
    ∃ x ∈ spans, x.block = b ∧ x.tag.allocated = false ∧ x.cls = cls

namespace Consistent

variable {M : Type} [Memory M] {h : Heap M} {spans : List Span} {files : SizeClass → List Nat}
  {stops : SizeClass → Nat}

theorem room_pos (consistent : h.Consistent spans files stops) : ∀ x ∈ spans, 0 < x.tag.size :=
  fun x member => Nat.lt_of_lt_of_le (by decide) (consistent.room x member)

theorem free (consistent : h.Consistent spans files stops) {cls : SizeClass} {c : Nat}
    (listed : c ∈ files cls) : FreeLists.Free h.memory c := by
  obtain ⟨x, member, rfl, unused, _⟩ := (consistent.listed cls c).mp listed
  exact ⟨x.tag, (consistent.chained.written x member).header, unused⟩

end Consistent

theorem Sound.consistent {A : Type} [Arena A] {h : Heap A} {v : View} (sound : h.Sound v) :
    ∃ stops, (∀ cls, v.ends (stops cls)) ∧ h.Consistent v.spans v.files stops := by
  have shown := sound.shown
  choose stops ending threaded using shown.filed.threaded
  refine ⟨stops, ending, shown.chained, shown.room, shown.aligned, sound.settled.apart, threaded,
    fun cls => ⟨shown.filed.used _ (ending cls), shown.ends _ (ending cls)⟩, shown.filed.nodup,
    fun cls b => ?_⟩
  constructor
  · exact shown.listed cls b
  · rintro ⟨x, member, rfl, unused, rfl⟩
    exact sound.settled.filed x member unused

theorem Sound.consistent_of_prologue {A : Type} [Arena A] {h : Heap A} {v : View}
    (sound : h.Sound v) (plain : ∀ stop, v.ends stop → stop = h.prologue) :
    h.Consistent v.spans v.files fun _ => h.prologue := by
  obtain ⟨stops, ending, consistent⟩ := sound.consistent
  have same : stops = fun _ => h.prologue := funext fun cls => plain _ (ending cls)
  exact same ▸ consistent

theorem filed_of_threads {M : Type} [Memory M] {h : Heap M} {spans : List Span}
    {files : SizeClass → List Nat} {ends : Nat → Prop}
    (chained : Chained h.memory h.prologue spans) (room : ∀ x ∈ spans, Block.minSize ≤ x.tag.size)
    (threaded : ∀ cls, ∃ stop, ends stop ∧ Threaded h.memory stop (h.lists.head cls) (files cls))
    (nodup : ∀ cls, (files cls).Nodup)
    (listed : ∀ cls, ∀ b ∈ files cls,
      ∃ x ∈ spans, x.block = b ∧ x.tag.allocated = false ∧ x.cls = cls)
    (used : ∀ stop, ends stop → FreeLists.Used h.memory stop)
    (clear : ∀ x ∈ spans, x.tag.allocated = false → ∀ stop, ends stop →
      stop + 4 ≤ x.block ∨ x.block + x.tag.size ≤ stop)
    (terminator : ends h.lists.terminator) : Filed h.memory h.lists ends files := by
  have room : ∀ x ∈ spans, 16 ≤ x.tag.size := room
  constructor
  · exact threaded
  · exact nodup
  · intro cls c here
    obtain ⟨x, member, rfl, unused, right_class⟩ := listed cls c here
    exact ⟨x.tag, (chained.written x member).header, unused, right_class⟩
  · exact terminator
  · exact used
  · intro cls c here cls' d there different
    obtain ⟨x, member, rfl, _⟩ := listed cls c here
    obtain ⟨y, other, rfl, _⟩ := listed cls' d there
    have := chained.tiles.apart member other different
    have := room x member
    have := room y other
    unfold Apart
    omega
  · intro cls c here stop ending
    obtain ⟨x, member, rfl, unused, _⟩ := listed cls c here
    have := clear x member unused stop ending
    have := room x member
    omega

end Heap

namespace Block

variable {M : Type} [Memory M] {m : M} {start : Nat} {spans : List Span}

theorem walk_tiles {fuel : Nat} (enough : spans.length < fuel) (front : 4 ≤ start)
    (bounded : Memory.size m < offsetLimit) (tiles : Tiles start spans (Memory.size m))
    (headers : ∀ x ∈ spans, tag m x.block = .ok x.tag) (room : ∀ x ∈ spans, 0 < x.tag.size)
    (epilogue : ∃ t, tag m (Memory.size m) = .ok t ∧ t.size = 0) :
    walk m fuel start = .ok spans := by
  induction spans generalizing start fuel with
  | nil =>
    obtain ⟨fuel, rfl⟩ : ∃ n, fuel = n + 1 := ⟨fuel - 1, by omega⟩
    obtain ⟨t, read, zero⟩ := epilogue
    have here : start = Memory.size m := tiles
    have inside : ¬(start < Tag.bytes ∨ Memory.size m < start) := by
      simp only [Tag.bytes]
      omega
    simp only [walk, if_neg inside, here ▸ read, zero, bind, Except.bind, if_true]
    rfl
  | cons x rest ih =>
    obtain ⟨fuel, rfl⟩ : ∃ n, fuel = n + 1 := ⟨fuel - 1, by omega⟩
    obtain ⟨rfl, behind⟩ := tiles
    have size := room x (by simp)
    have le := behind.le
    have inside : ¬(x.block < Tag.bytes ∨ Memory.size m < x.block) := by
      simp only [Tag.bytes]
      omega
    have tail := ih (by simpa using enough) (by omega) behind
      (fun y member => headers y (List.mem_cons_of_mem _ member))
      (fun y member => room y (List.mem_cons_of_mem _ member))
    simp only [walk, if_neg inside, headers x (by simp), bind, Except.bind,
      if_neg (Nat.ne_of_gt size), plus_of_lt (show x.block + x.tag.size < offsetLimit by omega),
      tail]
    rfl

end Block

theorem Tiles.length_le {start stop least : Nat} {spans : List Span}
    (tiles : Tiles start spans stop) (room : ∀ x ∈ spans, least ≤ x.tag.size) :
    start + least * spans.length ≤ stop := by
  induction spans generalizing start with
  | nil => exact Nat.le_of_eq tiles
  | cons x rest ih =>
    have size := room x (by simp)
    have behind := ih tiles.2 fun y member => room y (List.mem_cons_of_mem _ member)
    rw [List.length_cons, Nat.mul_succ]
    omega

namespace Heap.Consistent

variable {M : Type} [Memory M] {h : Heap M} {spans : List Span} {files : SizeClass → List Nat}
  {stops : SizeClass → Nat}

theorem chain_eq (consistent : h.Consistent spans files stops)
    (bounded : Memory.size h.memory < offsetLimit) : h.chain = .ok spans := by
  have ends := consistent.chained.end_ge
  have room : ∀ x ∈ spans, 16 ≤ x.tag.size := consistent.room
  have length := consistent.chained.tiles.length_le room
  obtain ⟨t, read, zero, _⟩ := consistent.chained.epilogue
  have first : plus h.prologue Block.overhead = .ok (h.prologue + 8) :=
    plus_of_lt (Nat.lt_of_le_of_lt ends bounded)
  simp only [chain, firstBlock, first, bind, Except.bind, Block.chain]
  exact Block.walk_tiles (by omega) (by omega) bounded consistent.chained.tiles
    (fun x member => (consistent.chained.written x member).header) consistent.room_pos
    ⟨t, read, zero⟩

theorem list_eq (consistent : h.Consistent spans files stops) (limit : Nat) (cls : SizeClass) :
    h.list limit cls = .ok ((files cls).take limit) :=
  FreeLists.take_threaded limit (consistent.threaded cls) (fun _ => consistent.free)
    (consistent.ends cls).1

theorem whole_list_eq (consistent : h.Consistent spans files stops) {limit : Nat}
    (enough : Memory.size h.memory ≤ limit) (cls : SizeClass) :
    h.list limit cls = .ok (files cls) := by
  have length := FreeLists.length_le_of_nodup (consistent.nodup cls) fun _ => consistent.free
  rw [consistent.list_eq, List.take_of_length_le (Nat.le_trans length enough)]

theorem usage_eq (consistent : h.Consistent spans files stops)
    (bounded : Memory.size h.memory < offsetLimit) :
    h.usage = .ok (spans.foldl Usage.count { heapSize := Memory.size h.memory }) := by
  simp only [usage, consistent.chain_eq bounded, bind, Except.bind, pure, Except.pure]

end Heap.Consistent

theorem Heap.Sound.chain_eq {A : Type} [Arena A] {h : Heap A} {v : View} (sound : h.Sound v) :
    h.chain = .ok v.spans := by
  obtain ⟨_, _, consistent⟩ := sound.consistent
  exact consistent.chain_eq (Nat.lt_of_le_of_lt sound.small (by decide))

end SegregatedFit
