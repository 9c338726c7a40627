import Mathlib.Data.List.Chain
import SegregatedFit.Heap.Carving
import SegregatedFit.Proofs.View

/-!
Merging free neighbours. A free block that is on no list becomes one block with the free blocks
around it, and that block goes on the list of its size. Afterwards no two free blocks are
neighbours, all of them are listed, and no byte outside the tags and links of free blocks has
changed.
-/

namespace SegregatedFit

def freeLast (left : List Span) : Option Span := left.getLast?.filter fun p => !p.tag.allocated

def freeHead (right : List Span) : Option Span := right.head?.filter fun n => !n.tag.allocated

/-- The free block that comes of the free block of `x` between its neighbours. -/
def coalesced (left : List Span) (x : Span) (right : List Span) : Span :=
  match freeLast left, freeHead right with
  | none, none => x
  | none, some n => .of x.block (x.tag.size + n.tag.size) false
  | some p, none => .of p.block (p.tag.size + x.tag.size) false
  | some p, some n => .of p.block (p.tag.size + x.tag.size + n.tag.size) false

def restLeft (left : List Span) : List Span :=
  match freeLast left with
  | none => left
  | some _ => left.dropLast

def restRight (right : List Span) : List Span :=
  match freeHead right with
  | none => right
  | some _ => right.tail

def merged (left : List Span) (x : Span) (right : List Span) : List Span :=
  (freeLast left).toList ++ x :: (freeHead right).toList

/-- The free neighbours, in the order in which they leave their lists. -/
def absorbed (left right : List Span) : List Span :=
  (freeHead right).toList ++ (freeLast left).toList

def mergedSize (left : List Span) (x : Span) (right : List Span) : Nat :=
  ((merged left x right).map fun y => y.tag.size).sum

def NoFreePair (x y : Span) : Prop := x.tag.allocated = true ∨ y.tag.allocated = true

/-- The bytes in tags and links of free blocks. -/
def Marked (spans : List Span) (i : Nat) : Prop :=
  ∃ y ∈ spans, y.tag.allocated = false ∧ (y.InTags i ∨ y.InLink i)

namespace View

def unfileAll (v : View) (gone : List Span) : View := gone.foldl unfile v

def coalesce (v : View) (left : List Span) (x : Span) (right : List Span) : View :=
  let y := coalesced left x right
  let noted (v : View) (spans : List Span) (prevAllocated nextAllocated : Bool) : View :=
    ({ v with spans := spans }.note
      (.coalesced x.block prevAllocated nextAllocated y.block y.tag.size)).file y
  match freeLast left, freeHead right with
  | none, none => noted v v.spans true true
  | none, some n => noted (v.unfile n) (left ++ y :: right.tail) true false
  | some p, none => noted (v.unfile p) (left.dropLast ++ y :: right) false true
  | some p, some n => noted ((v.unfile n).unfile p) (left.dropLast ++ y :: right.tail) false false

def used (v : View) : List Span := v.spans.filter fun x => x.tag.allocated

/-- No two neighbours are free, and every free block is on the list of its size. -/
structure Settled (v : View) : Prop where
  apart : v.spans.IsChain NoFreePair
  filed : ∀ x ∈ v.spans, x.tag.allocated = false → x.block ∈ v.files x.cls

/-- All is settled but the block of `x`, which is free and on no list. -/
structure Loose (v : View) (left : List Span) (x : Span) (right : List Span) : Prop where
  split : v.spans = left ++ x :: right
  unused : x.tag.allocated = false
  unlisted : ∀ cls, x.block ∉ v.files cls
  filed : ∀ y ∈ left ++ right, y.tag.allocated = false → y.block ∈ v.files y.cls
  left_apart : left.IsChain NoFreePair
  right_apart : right.IsChain NoFreePair

section Unfiling

variable {v : View} {gone : List Span} {cls : SizeClass} {b : Nat}

@[simp] theorem spans_unfileAll (v : View) (gone : List Span) :
    (v.unfileAll gone).spans = v.spans := by
  induction gone generalizing v with
  | nil => rfl
  | cons y gone ih => exact ih (v.unfile y)

theorem mem_of_mem_unfileAll (stays : b ∈ (v.unfileAll gone).files cls) : b ∈ v.files cls := by
  induction gone generalizing v with
  | nil => exact stays
  | cons y gone ih => exact mem_of_mem_unfile (x := y) (ih stays)

theorem mem_unfileAll_of_ne (different : ∀ y ∈ gone, b ≠ y.block) (listed : b ∈ v.files cls) :
    b ∈ (v.unfileAll gone).files cls := by
  induction gone generalizing v with
  | nil => exact listed
  | cons y gone ih =>
    apply ih fun z member => different z (List.mem_cons_of_mem _ member)
    exact mem_unfile_of_ne (different y (List.mem_cons_self ..)) listed

end Unfiling

@[simp] theorem ends_coalesce (v : View) (left : List Span) (x : Span) (right : List Span) :
    (v.coalesce left x right).ends = v.ends := by
  unfold coalesce
  split <;> rfl

theorem mem_used {v : View} {x : Span} : x ∈ v.used ↔ x ∈ v.spans ∧ x.tag.allocated = true :=
  List.mem_filter

theorem mem_of_used {v : View} {x : Span} (used : x ∈ v.used) : x ∈ v.spans :=
  (mem_used.mp used).1

end View

section Neighbours

variable {left right : List Span} {p n : Span}

theorem freeLast_append (left : List Span) (p : Span) :
    freeLast (left ++ [p]) = if p.tag.allocated then none else some p := by
  cases used : p.tag.allocated <;> simp [freeLast, used, Option.filter]

theorem freeHead_cons (n : Span) (right : List Span) :
    freeHead (n :: right) = if n.tag.allocated then none else some n := by
  cases used : n.tag.allocated <;> simp [freeHead, used, Option.filter]

theorem freeLast_eq_none (used : ∀ q ∈ left.getLast?, q.tag.allocated = true) :
    freeLast left = none := by
  cases last : left.getLast? with
  | none => simp [freeLast, last]
  | some q => simp [freeLast, last, used q last, Option.filter]

theorem freeHead_eq_none (used : ∀ q ∈ right.head?, q.tag.allocated = true) :
    freeHead right = none := by
  cases first : right.head? with
  | none => simp [freeHead, first]
  | some q => simp [freeHead, first, used q first, Option.filter]

theorem freeLast_eq_some (free : freeLast left = some p) :
    left = left.dropLast ++ [p] ∧ p.tag.allocated = false := by
  rcases left.eq_nil_or_concat with rfl | ⟨before, q, rfl⟩
  · simp [freeLast] at free
  · rw [List.concat_eq_append, freeLast_append] at free
    cases used : q.tag.allocated with
    | true => simp [used] at free
    | false =>
      rw [used, if_neg Bool.false_ne_true, Option.some.injEq] at free
      subst free
      simpa using used

theorem freeHead_eq_some (free : freeHead right = some n) :
    right = n :: right.tail ∧ n.tag.allocated = false := by
  cases right with
  | nil => simp [freeHead] at free
  | cons m behind =>
    rw [freeHead_cons] at free
    cases used : m.tag.allocated with
    | true => simp [used] at free
    | false =>
      rw [used, if_neg Bool.false_ne_true, Option.some.injEq] at free
      subst free
      simpa using used

theorem restLeft_append (left : List Span) : restLeft left ++ (freeLast left).toList = left := by
  cases free : freeLast left with
  | none => simp [restLeft, free]
  | some p => simpa [restLeft, free] using (freeLast_eq_some free).1.symm

theorem append_restRight (right : List Span) :
    (freeHead right).toList ++ restRight right = right := by
  cases free : freeHead right with
  | none => simp [restRight, free]
  | some n => simpa [restRight, free] using (freeHead_eq_some free).1.symm

theorem mem_of_mem_restLeft {y : Span} (member : y ∈ restLeft left) : y ∈ left := by
  rw [← restLeft_append left]
  exact List.mem_append_left _ member

theorem mem_of_mem_restRight {y : Span} (member : y ∈ restRight right) : y ∈ right := by
  rw [← append_restRight right]
  exact List.mem_append_right _ member

theorem split_merged (left : List Span) (x : Span) (right : List Span) :
    left ++ x :: right = restLeft left ++ merged left x right ++ restRight right := by
  conv_lhs => rw [← restLeft_append left, ← append_restRight right]
  simp [merged]

theorem restLeft_apart (apart : left.IsChain NoFreePair) :
    (restLeft left).IsChain NoFreePair ∧
      ∀ q ∈ (restLeft left).getLast?, q.tag.allocated = true := by
  cases free : freeLast left with
  | none =>
    simp only [restLeft, free]
    refine ⟨apart, fun q last => ?_⟩
    have last : left.getLast? = some q := last
    cases used : q.tag.allocated with
    | true => rfl
    | false => simp [freeLast, last, used, Option.filter] at free
  | some p =>
    rw [← restLeft_append left, free, List.isChain_append] at apart
    refine ⟨apart.1, fun q last => ?_⟩
    have unused := (freeLast_eq_some free).2
    rcases apart.2.2 q last p rfl with used | used
    · exact used
    · rw [unused] at used
      exact absurd used Bool.false_ne_true

theorem restRight_apart (apart : right.IsChain NoFreePair) :
    (restRight right).IsChain NoFreePair ∧
      ∀ q ∈ (restRight right).head?, q.tag.allocated = true := by
  cases free : freeHead right with
  | none =>
    simp only [restRight, free]
    refine ⟨apart, fun q first => ?_⟩
    have first : right.head? = some q := first
    cases used : q.tag.allocated with
    | true => rfl
    | false => simp [freeHead, first, used, Option.filter] at free
  | some n =>
    rw [← append_restRight right, free, Option.toList_some, List.singleton_append,
      List.isChain_cons] at apart
    refine ⟨apart.2, fun q first => ?_⟩
    have unused := (freeHead_eq_some free).2
    rcases apart.1 q first with used | used
    · rw [unused] at used
      exact absurd used Bool.false_ne_true
    · exact used

theorem used_restLeft (left : List Span) :
    (restLeft left).filter (fun x => x.tag.allocated) = left.filter fun x => x.tag.allocated := by
  conv_rhs => rw [← restLeft_append left]
  cases free : freeLast left with
  | none => simp
  | some p => simp [(freeLast_eq_some free).2]

theorem used_restRight (right : List Span) :
    (restRight right).filter (fun x => x.tag.allocated) =
      right.filter fun x => x.tag.allocated := by
  conv_rhs => rw [← append_restRight right]
  cases free : freeHead right with
  | none => simp
  | some n => simp [(freeHead_eq_some free).2]

end Neighbours

theorem sum_sizes_mod (spans : List Span) : (spans.map fun y => y.tag.size).sum % 8 = 0 := by
  induction spans with
  | nil => rfl
  | cons y rest ih =>
    have divides := y.tag.size_mod
    rw [List.map_cons, List.sum_cons]
    omega

section Runs

variable {left right : List Span} {x : Span}

theorem mem_merged {z : Span} : z ∈ merged left x right ↔ z = x ∨ z ∈ absorbed left right := by
  simp only [absorbed, merged, List.mem_append, List.mem_cons]
  tauto

theorem of_mem_absorbed {y : Span} (member : y ∈ absorbed left right) :
    y ∈ left ++ right ∧ y.tag.allocated = false := by
  simp only [absorbed, List.mem_append, Option.mem_toList] at member
  rcases member with head | last
  · obtain ⟨behind, unused⟩ := freeHead_eq_some head
    rw [behind]
    exact ⟨by simp, unused⟩
  · obtain ⟨before, unused⟩ := freeLast_eq_some last
    rw [before]
    exact ⟨by simp, unused⟩

theorem merged_free (unused : x.tag.allocated = false) :
    ∀ z ∈ merged left x right, z.tag.allocated = false := by
  intro z member
  rcases mem_merged.mp member with rfl | gone
  · exact unused
  · exact (of_mem_absorbed gone).2

theorem coalesced_block {p : Span} (last : freeLast left = some p) :
    (coalesced left x right).block = p.block := by
  unfold coalesced
  rw [last]
  cases freeHead right <;> rfl

theorem coalesced_first (left : List Span) (x : Span) (right : List Span) :
    (merged left x right).head?.map Span.block = some (coalesced left x right).block := by
  unfold merged coalesced
  cases freeLast left <;> cases freeHead right <;> rfl

theorem size_le_mergedSize (left : List Span) (x : Span) (right : List Span) :
    x.tag.size ≤ mergedSize left x right := by
  simp only [mergedSize, merged, List.map_append, List.map_cons, List.sum_append, List.sum_cons]
  omega

theorem tiles_merged {low high : Nat} (tiles : Tiles low (merged left x right) high) :
    low = (coalesced left x right).block ∧
      high = (coalesced left x right).block + mergedSize left x right := by
  have total : low + mergedSize left x right = high := tiles.sum_sizes
  have first : low = (coalesced left x right).block := by
    unfold merged at tiles
    unfold coalesced
    cases last : freeLast left <;> cases head : freeHead right <;>
      simp only [last, head] at tiles <;> exact tiles.1.symm
  exact ⟨first, first ▸ total.symm⟩

theorem coalesced_of_absorbed (some_gone : absorbed left right ≠ []) :
    coalesced left x right =
      .of (coalesced left x right).block (mergedSize left x right) false := by
  unfold coalesced
  cases last : freeLast left <;> cases head : freeHead right <;>
    simp_all [absorbed, mergedSize, merged, Nat.add_assoc]

theorem coalesced_alone (alone : absorbed left right = []) : coalesced left x right = x := by
  unfold coalesced
  cases last : freeLast left <;> cases head : freeHead right <;> simp_all [absorbed]

theorem merged_alone (alone : absorbed left right = []) : merged left x right = [x] := by
  cases last : freeLast left <;> cases head : freeHead right <;> simp_all [absorbed, merged]

theorem mergedSize_alone (alone : absorbed left right = []) :
    mergedSize left x right = x.tag.size := by
  simp [mergedSize, merged_alone alone]

theorem rests_alone (alone : absorbed left right = []) :
    restLeft left = left ∧ restRight right = right := by
  obtain ⟨no_head, no_last⟩ := List.append_eq_nil_iff.mp alone
  have before := restLeft_append left
  have behind := append_restRight right
  rw [no_last, List.append_nil] at before
  rw [no_head, List.nil_append] at behind
  exact ⟨before, behind⟩

theorem coalesced_size (fits : mergedSize left x right ≤ Tag.maxSize) :
    (coalesced left x right).tag.size = mergedSize left x right := by
  by_cases alone : absorbed left right = []
  · rw [coalesced_alone alone, mergedSize_alone alone]
  · rw [coalesced_of_absorbed alone]
    exact Tag.size_of false fits (sum_sizes_mod (merged left x right))

theorem coalesced_free (unused : x.tag.allocated = false)
    (fits : mergedSize left x right ≤ Tag.maxSize) :
    (coalesced left x right).tag.allocated = false := by
  by_cases alone : absorbed left right = []
  · rw [coalesced_alone alone]
    exact unused
  · rw [coalesced_of_absorbed alone]
    exact Tag.allocated_of false fits (sum_sizes_mod (merged left x right))

end Runs

namespace View

variable {v : View} {left right : List Span} {x : Span}

/-- Merging in one step: the neighbours leave their lists, the chain gets the merged block, and
that is listed after an entry about it. -/
theorem coalesce_eq (split : v.spans = left ++ x :: right) :
    v.coalesce left x right =
      ({ v.unfileAll (absorbed left right) with
          spans := restLeft left ++ coalesced left x right :: restRight right }.note
        (.coalesced x.block (freeLast left).isNone (freeHead right).isNone
          (coalesced left x right).block (coalesced left x right).tag.size)).file
        (coalesced left x right) := by
  unfold coalesce restLeft restRight absorbed
  cases last : freeLast left <;> cases head : freeHead right <;>
    simp [unfileAll, coalesced, last, head, ← split]

theorem Loose.coalesce_spans (loose : v.Loose left x right) :
    (v.coalesce left x right).spans =
      restLeft left ++ coalesced left x right :: restRight right := by
  rw [coalesce_eq loose.split]
  rfl

theorem Loose.coalesce_spans_alone (loose : v.Loose left x right)
    (alone : absorbed left right = []) : (v.coalesce left x right).spans = left ++ x :: right := by
  obtain ⟨before, behind⟩ := rests_alone alone
  rw [loose.coalesce_spans, coalesced_alone alone, before, behind]

theorem Loose.used_coalesce (loose : v.Loose left x right)
    (fits : mergedSize left x right ≤ Tag.maxSize) : (v.coalesce left x right).used = v.used := by
  unfold used
  rw [loose.coalesce_spans, loose.split]
  simp [used_restLeft, used_restRight, loose.unused, coalesced_free loose.unused fits]

theorem Loose.absorbed_listed (loose : v.Loose left x right) :
    ∀ y ∈ absorbed left right, y ∈ v.spans ∧ y.block ∈ v.files y.cls := by
  intro y member
  obtain ⟨outer, unused⟩ := of_mem_absorbed member
  constructor
  · rw [loose.split]
    exact mem_cons_of_around outer
  · exact loose.filed y outer unused

end View

namespace Heap

variable {M : Type} [Memory M] {h h' : Heap M} {v : View} {x : Span}
  {left middle right : List Span}

namespace Shows

theorem prev_eq (shown : h.Shows v) (split : v.spans = left ++ x :: right) :
    ∃ p : Span, Block.prev h.memory x.block = .ok p.block ∧
      Block.tag h.memory p.block = .ok p.tag ∧
      freeLast left = if p.tag.allocated then none else some p := by
  have chained := shown.chained
  have room := shown.room_eight
  rw [split] at chained room
  rcases chained.prev_eq fun y member => room y (by simp [member]) with
    ⟨rfl, found, read⟩ | ⟨before, p, rfl, found, read⟩
  · exact ⟨.of h.prologue 8 true, found, read, by simp [Tag.allocated_sentinel, freeLast]⟩
  · exact ⟨p, found, read, freeLast_append before p⟩

theorem next_eq (shown : h.Shows v) (bounded : Memory.size h.memory < offsetLimit)
    (split : v.spans = left ++ x :: right) :
    ∃ n : Span, Block.next h.memory x.block = .ok n.block ∧
      Block.tag h.memory n.block = .ok n.tag ∧
      freeHead right = if n.tag.allocated then none else some n := by
  have chained := shown.chained
  rw [split] at chained
  obtain ⟨found, ⟨rfl, _, t, read, used⟩ | ⟨n, behind, rfl, here, read⟩⟩ := chained.next_eq bounded
  · exact ⟨⟨_, t⟩, found, read, by simp [used, freeHead]⟩
  · exact ⟨n, here ▸ found, read, freeHead_cons n behind⟩

end Shows

theorem setTags_shows {b n : Nat} (allocated : Bool) (shown : h.Shows v)
    (bounded : Memory.size h.memory < offsetLimit) (split : v.spans = left ++ middle ++ right)
    (unlisted : ∀ z ∈ middle, ∀ cls, z.block ∉ v.files cls)
    (avoided : ∀ z ∈ middle, v.Avoids z)
    (tiled : ∀ low high, Tiles low middle high → low = b ∧ high = b + n)
    (room : 16 ≤ n) (fits : n ≤ Tag.maxSize) (divides : n % 8 = 0) :
    ∃ h', setTags b n allocated h = .ok () h' ∧
      h'.Shows { v with spans := left ++ Span.of b n allocated :: right } ∧
      h.Keeps h' (Span.of b n allocated).InTags := by
  obtain ⟨low, high, middle_tiles, front, inside⟩ := shown.stretch split
  obtain ⟨rfl, rfl⟩ := tiled low high middle_tiles
  have size : (Span.of low n allocated).tag.size = n := Tag.size_of allocated fits divides
  have written : (Span.of low n allocated).Written
      (Block.retag h.memory low n (Tag.of n allocated)) :=
    Span.written_retag allocated (by omega) (by omega) (by omega) fits divides
  refine ⟨_, setTags_of_inside (by omega) (by omega) (by omega) fits (by omega), ?_, ?_⟩
  · rw [List.append_cons]
    refine shown.retile split unlisted avoided ?_ (Block.size_retag n) ?_ ?_ ?_
    · intro first last covered
      obtain ⟨rfl, rfl⟩ := tiled first last covered
      exact ⟨rfl, congrArg (first + ·) size⟩
    · intro i beyond
      have apart : ¬(low ≤ i + 4 ∧ i + 4 < low + n) := by
        rintro ⟨first, last⟩
        obtain ⟨y, member, covers⟩ := middle_tiles.covered first last
        exact beyond y member covers
      exact Block.byte_retag (by omega) (by omega) (by omega) (by omega)
    · simpa using written
    · simpa [Tag.size_of allocated fits divides] using room
  · refine ⟨Block.size_retag n, fun i outside => ?_, rfl, rfl, rfl⟩
    exact Span.byte_retag (by omega) (by omega) (by omega) fits divides outside

theorem list_shows (shown : h.Shows v) (bounded : Memory.size h.memory < offsetLimit)
    (member : x ∈ v.spans) (unused : x.tag.allocated = false)
    (unlisted : ∀ cls, x.block ∉ v.files cls) (entry : Entry) :
    ∃ h', (do record entry; insert x.block; pure x.block : HeapM M Block) h = .ok x.block h' ∧
      h'.Shows ((v.note entry).file x) ∧ h.Keeps h' x.InLink := by
  obtain ⟨h₁, ran₁, shown₁, keeps₁⟩ := record_shows shown entry
  obtain ⟨h₂, ran₂, shown₂, keeps₂⟩ :=
    insert_shows shown₁ (keeps₁.size ▸ bounded) member unused unlisted
  refine ⟨h₂, ?_, shown₂, (keeps₁.mono fun _ => False.elim).trans keeps₂⟩
  rw [bind_of_ok ran₁, bind_of_ok ran₂, pure_apply]

theorem merge_shows {b n : Nat} (shown : h.Shows v) (bounded : Memory.size h.memory < offsetLimit)
    (split : v.spans = left ++ middle ++ right)
    (free : ∀ z ∈ middle, z.tag.allocated = false)
    (unlisted : ∀ z ∈ middle, ∀ cls, z.block ∉ v.files cls)
    (tiled : ∀ low high, Tiles low middle high → low = b ∧ high = b + n)
    (room : 16 ≤ n) (fits : n ≤ Tag.maxSize) (divides : n % 8 = 0)
    (first : ∃ z ∈ middle, z.block = b) (entry : Entry) :
    ∃ h', (do setTags b n false; record entry; insert b; pure b : HeapM M Block) h = .ok b h' ∧
      h'.Shows (({ v with spans := left ++ Span.of b n false :: right }.note entry).file
        (Span.of b n false)) ∧
      h.Keeps h' (Marked (left ++ Span.of b n false :: right)) := by
  have avoided : ∀ z ∈ middle, v.Avoids z := fun z inside =>
    shown.clear z (by simp [split, inside]) (free z inside)
  obtain ⟨h₁, tagged, shown₁, keeps₁⟩ :=
    setTags_shows false shown bounded split unlisted avoided tiled room fits divides
  have unused : (Span.of b n false).tag.allocated = false := Tag.allocated_of false fits divides
  have bounded : Memory.size h₁.memory < offsetLimit := by
    rw [keeps₁.size]
    exact bounded
  have member : Span.of b n false ∈ left ++ Span.of b n false :: right := by simp
  obtain ⟨z, inside, rfl⟩ := first
  obtain ⟨h₂, ran, shown₂, keeps₂⟩ :=
    list_shows shown₁ bounded member unused (unlisted z inside) entry
  refine ⟨h₂, (bind_of_ok tagged).trans ran, shown₂,
    (keeps₁.mono ?_).trans (keeps₂.mono ?_)⟩
  · exact fun i tagged => ⟨_, member, unused, .inl tagged⟩
  · exact fun i link => ⟨_, member, unused, .inr link⟩

theorem linked_marked {y : Span} (split : v.spans = left ++ middle ++ right)
    (unused : y.tag.allocated = false)
    (gone : ∀ z ∈ middle, (∀ cls, z.block ∉ v.files cls) ∨ z.block = y.block) {i : Nat}
    (linked : v.Linked i) : Marked (left ++ y :: right) i := by
  obtain ⟨z, member, free, listed, link⟩ := linked
  rw [split, List.append_assoc, List.mem_append, List.mem_append] at member
  rcases member with before | inside | behind
  · exact ⟨z, by simp [before], free, .inr link⟩
  · rcases gone z inside with unlisted | same
    · exact absurd listed (unlisted _)
    · refine ⟨y, by simp, unused, .inr ?_⟩
      unfold Span.InLink at link ⊢
      rwa [← same]
  · exact ⟨z, by simp [behind], free, .inr link⟩

theorem leave_shows {y : Span} {gone : Option Span} (shown : h.Shows v)
    (bounded : Memory.size h.memory < offsetLimit)
    (found : gone = if y.tag.allocated then none else some y)
    (listed : ∀ z ∈ gone, z ∈ v.spans ∧ z.block ∈ v.files z.cls) :
    ∃ h', (unless y.tag.allocated do remove y.block : HeapM M Unit) h = .ok () h' ∧
      h'.Shows (v.unfileAll gone.toList) ∧ h.Keeps h' (v.unfileAll gone.toList).Linked ∧
      ∀ z ∈ gone, ∀ cls, z.block ∉ (v.unfileAll gone.toList).files cls := by
  cases used : y.tag.allocated with
  | true =>
    rw [used, if_pos rfl] at found
    subst found
    exact ⟨h, rfl, shown, ⟨rfl, fun _ _ => rfl, rfl, rfl, rfl⟩, by simp⟩
  | false =>
    rw [used, if_neg Bool.false_ne_true] at found
    subst found
    obtain ⟨member, here⟩ := listed y rfl
    obtain ⟨h', ran, shown', keeps⟩ := remove_shows shown bounded member here
    refine ⟨h', ran, shown', keeps, ?_⟩
    intro z same
    cases same
    exact shown.not_mem_unfile here

section Merging

variable {p n : Span}

theorem merged_found (last : freeLast left = if p.tag.allocated then none else some p)
    (head : freeHead right = if n.tag.allocated then none else some n) :
    (if p.tag.allocated then x.block else p.block) = (coalesced left x right).block ∧
      (if p.tag.allocated then 0 else p.tag.size) + x.tag.size +
        (if n.tag.allocated then 0 else n.tag.size) = mergedSize left x right ∧
      (p.tag.allocated && n.tag.allocated) = (absorbed left right).isEmpty ∧
      p.tag.allocated = (freeLast left).isNone ∧ n.tag.allocated = (freeHead right).isNone := by
  unfold coalesced mergedSize merged absorbed
  rw [last, head]
  cases p.tag.allocated <;> cases n.tag.allocated <;> simp [Nat.add_assoc]

theorem list_merged_shows (shown : h.Shows v) (bounded : Memory.size h.memory < offsetLimit)
    (split : v.spans = left ++ x :: right) (unused : x.tag.allocated = false)
    (unlisted : ∀ z ∈ merged left x right, ∀ cls, z.block ∉ v.files cls)
    (fits : mergedSize left x right ≤ Tag.maxSize) (entry : Entry) :
    ∃ h', (do
        unless (absorbed left right).isEmpty do
          setTags (coalesced left x right).block (mergedSize left x right) false
        record entry
        insert (coalesced left x right).block
        return (coalesced left x right).block : HeapM M Block) h =
          .ok (coalesced left x right).block h' ∧
      h'.Shows (({ v with
        spans := restLeft left ++ coalesced left x right :: restRight right }.note entry).file
          (coalesced left x right)) ∧
      h.Keeps h' (Marked (restLeft left ++ coalesced left x right :: restRight right)) := by
  have free := coalesced_free unused fits
  have regrouped := split.trans (split_merged left x right)
  by_cases alone : absorbed left right = []
  · have same : restLeft left ++ coalesced left x right :: restRight right = v.spans := by
      rw [regrouped, coalesced_alone alone, merged_alone alone, List.append_cons]
    have member : coalesced left x right ∈ v.spans := by
      rw [coalesced_alone alone, split]
      simp
    rw [same]
    have gone : ∀ cls, (coalesced left x right).block ∉ v.files cls := by
      rw [coalesced_alone alone]
      exact unlisted x (by simp [merged])
    obtain ⟨h', ran, shown', keeps⟩ := list_shows shown bounded member free gone entry
    refine ⟨h', ?_, shown', keeps.mono fun i link => ⟨_, member, free, .inr link⟩⟩
    rw [alone, List.isEmpty_nil]
    exact ran
  · have first : ∃ z ∈ merged left x right, z.block = (coalesced left x right).block := by
      have head := coalesced_first left x right
      rcases Option.map_eq_some_iff.mp head with ⟨z, here, same⟩
      exact ⟨z, List.mem_of_head? here, same⟩
    have room : 16 ≤ mergedSize left x right :=
      Nat.le_trans (shown.room x (by simp [split])) (size_le_mergedSize left x right)
    obtain ⟨h', ran, shown', keeps⟩ := merge_shows shown bounded regrouped (merged_free unused)
      unlisted (fun _ _ => tiles_merged) room fits (sum_sizes_mod (merged left x right)) first entry
    rw [← coalesced_of_absorbed alone] at shown' keeps
    refine ⟨h', ?_, shown', keeps⟩
    rw [if_neg (by simpa using alone)]
    exact ran

theorem coalesce_run {h₁ h₂ : Heap M}
    (last : freeLast left = if p.tag.allocated then none else some p)
    (head : freeHead right = if n.tag.allocated then none else some n)
    (prev : Block.prev h.memory x.block = .ok p.block)
    (next : Block.next h.memory x.block = .ok n.block)
    (prev_read : Block.tag h.memory p.block = .ok p.tag)
    (next_read : Block.tag h.memory n.block = .ok n.tag)
    (read : Block.tag h.memory x.block = .ok x.tag)
    (ran₁ : (unless n.tag.allocated do remove n.block : HeapM M Unit) h = .ok () h₁)
    (ran₂ : (unless p.tag.allocated do remove p.block : HeapM M Unit) h₁ = .ok () h₂)
    (before : p.tag.allocated = false → Block.tag h₂.memory p.block = .ok p.tag)
    (behind : n.tag.allocated = false → Block.tag h₂.memory n.block = .ok n.tag) :
    coalesce x.block h = (do
      unless (absorbed left right).isEmpty do
        setTags (coalesced left x right).block (mergedSize left x right) false
      record (.coalesced x.block (freeLast left).isNone (freeHead right).isNone
        (coalesced left x right).block (mergedSize left x right))
      insert (coalesced left x right).block
      return (coalesced left x right).block : HeapM M Block) h₂ := by
  obtain ⟨block, size, kept, front, back⟩ := merged_found (x := x) last head
  simp only [coalesce, query_bind, prev, next, Block.allocated_of_tag prev_read,
    Block.allocated_of_tag next_read, Block.size_of_tag read]
  cases p_used : p.tag.allocated <;> cases n_used : n.tag.allocated <;>
    simp only [p_used, n_used, Bool.false_eq_true, if_true, if_false, forall_const]
      at ran₁ ran₂ before behind block size kept front back ⊢
  · rw [bind_of_ok ran₁, bind_of_ok ran₂]
    simp only [query_bind, Block.size_of_tag before, Block.size_of_tag behind]
    rw [block, size, kept, ← front, ← back]
  · cases (ran₁ : EStateM.Result.ok () h = .ok () h₁)
    rw [bind_of_ok ran₂]
    simp only [query_bind, Block.size_of_tag before, pure_bind]
    rw [block, size, kept, ← front, ← back]
  · cases (ran₂ : EStateM.Result.ok () h₁ = .ok () h₂)
    rw [bind_of_ok ran₁]
    simp only [query_bind, Block.size_of_tag behind, pure_bind]
    rw [size, kept, ← front, ← back, ← block]
  · cases (ran₁ : EStateM.Result.ok () h = .ok () h₁)
    cases (ran₂ : EStateM.Result.ok () h = .ok () h₂)
    simp only [pure_bind]
    rw [size, kept, ← front, ← back, ← block]

theorem Shows.neighbours_ne (shown : h.Shows v) (split : v.spans = left ++ x :: right)
    (last : p ∈ freeLast left) (head : n ∈ freeHead right) : p.block ≠ n.block := by
  have front := (freeLast_eq_some last).1
  have back := (freeHead_eq_some head).1
  have around : v.spans = left.dropLast ++ p :: x :: right := by
    rw [List.append_cons, ← front, split]
  apply Ne.symm
  apply Span.block_ne_of_nodup shown.blocks_nodup around
  rw [back]
  simp

theorem absorb_shows (shown : h.Shows v) (bounded : Memory.size h.memory < offsetLimit)
    (fits : mergedSize left x right ≤ Tag.maxSize) (loose : v.Loose left x right)
    (last : freeLast left = if p.tag.allocated then none else some p)
    (head : freeHead right = if n.tag.allocated then none else some n) :
    ∃ h₁ h₂, (unless n.tag.allocated do remove n.block : HeapM M Unit) h = .ok () h₁ ∧
      (unless p.tag.allocated do remove p.block : HeapM M Unit) h₁ = .ok () h₂ ∧
      h₂.Shows (v.unfileAll (absorbed left right)) ∧
      (∀ z ∈ merged left x right, ∀ cls, z.block ∉ (v.unfileAll (absorbed left right)).files cls) ∧
      h.Keeps h₂ (Marked (restLeft left ++ coalesced left x right :: restRight right)) := by
  have free := coalesced_free loose.unused fits
  have regrouped := loose.split.trans (split_merged left x right)
  have listed := loose.absorbed_listed
  obtain ⟨h₁, ran₁, shown₁, keeps₁, gone₁⟩ := leave_shows shown bounded head <| by
    intro z here
    exact listed z (by simp [absorbed, Option.mem_def.mp here])
  obtain ⟨h₂, ran₂, shown₂, keeps₂, gone₂⟩ := leave_shows shown₁ (keeps₁.size ▸ bounded) last <| by
    intro z here
    obtain ⟨member, filed⟩ := listed z (by simp [absorbed, Option.mem_def.mp here])
    refine ⟨(View.spans_unfileAll v _).symm ▸ member, View.mem_unfileAll_of_ne ?_ filed⟩
    intro y other
    exact shown.neighbours_ne loose.split here (Option.mem_toList.mp other)
  have both : (v.unfileAll (freeHead right).toList).unfileAll (freeLast left).toList =
      v.unfileAll (absorbed left right) := by
    simp [View.unfileAll, absorbed]
  rw [both] at shown₂ keeps₂ gone₂
  have x_gone : ∀ gone cls, x.block ∉ (v.unfileAll gone).files cls := fun _ cls stays =>
    loose.unlisted cls (View.mem_of_mem_unfileAll stays)
  have unlisted : ∀ z ∈ merged left x right, ∀ cls,
      z.block ∉ (v.unfileAll (absorbed left right)).files cls := by
    intro z member cls stays
    rw [merged, List.mem_append, List.mem_cons, Option.mem_toList, Option.mem_toList] at member
    rcases member with here | rfl | here
    · exact gone₂ z here cls stays
    · exact x_gone _ cls stays
    · rw [← both] at stays
      exact gone₁ z here cls (View.mem_of_mem_unfileAll stays)
  refine ⟨h₁, h₂, ran₁, ran₂, shown₂, unlisted, (keeps₁.mono fun i linked => ?_).trans
    (keeps₂.mono fun i linked => ?_)⟩
  · apply linked_marked ((View.spans_unfileAll v _).trans regrouped) free _ linked
    intro z member
    rw [merged, List.mem_append, List.mem_cons, Option.mem_toList, Option.mem_toList] at member
    rcases member with here | rfl | here
    · -- the block in front is still listed here, but it is where the merged block begins
      exact .inr (coalesced_block here).symm
    · exact .inl (x_gone _)
    · exact .inl (gone₁ z here)
  · exact linked_marked ((View.spans_unfileAll v _).trans regrouped) free
      (fun z member => .inl (unlisted z member)) linked

end Merging

/-- A free block that is on no list is merged with its free neighbours. -/
theorem coalesce_shows (shown : h.Shows v) (bounded : Memory.size h.memory < offsetLimit)
    (fits : mergedSize left x right ≤ Tag.maxSize) (loose : v.Loose left x right) :
    ∃ h', coalesce x.block h = .ok (coalesced left x right).block h' ∧
      h'.Shows (v.coalesce left x right) ∧
      h.Keeps h' (Marked (v.coalesce left x right).spans) := by
  obtain ⟨p, prev, prev_read, last⟩ := shown.prev_eq loose.split
  obtain ⟨n, next, next_read, head⟩ := shown.next_eq bounded loose.split
  obtain ⟨h₁, h₂, ran₁, ran₂, shown₂, unlisted, keeps₂⟩ :=
    absorb_shows shown bounded fits loose last head
  have split : (v.unfileAll (absorbed left right)).spans = left ++ x :: right := by
    rw [View.spans_unfileAll, loose.split]
  obtain ⟨h', ran, shown', keeps⟩ := list_merged_shows shown₂ (keeps₂.size ▸ bounded) split
    loose.unused unlisted fits (.coalesced x.block (freeLast left).isNone (freeHead right).isNone
      (coalesced left x right).block (mergedSize left x right))
  have read := shown.read (show x ∈ v.spans by simp [loose.split])
  have still : ∀ y ∈ absorbed left right, Block.tag h₂.memory y.block = .ok y.tag := by
    intro y gone
    apply shown₂.read
    rw [View.spans_unfileAll]
    exact (loose.absorbed_listed y gone).1
  rw [loose.coalesce_spans, View.coalesce_eq loose.split, coalesced_size fits]
  refine ⟨h', ?_, shown', keeps₂.trans keeps⟩
  rw [coalesce_run last head prev next prev_read next_read read ran₁ ran₂]
  · exact ran
  · intro unused
    exact still p (by simp [absorbed, last, unused])
  · intro unused
    exact still n (by simp [absorbed, head, unused])

namespace Shows

theorem listed_coalesce (shown : h.Shows v) (loose : v.Loose left x right) {z : Span}
    (member : z ∈ restLeft left ++ restRight right) {cls : SizeClass}
    (listed : z.block ∈ v.files cls) : z.block ∈ (v.coalesce left x right).files cls := by
  have stays : ∀ y ∈ merged left x right, z.block ≠ y.block := by
    intro y inside same
    have nodup := shown.blocks_nodup
    rw [loose.split, split_merged, List.map_append, List.map_append] at nodup
    apply not_mem_between nodup (List.map_append ▸ List.mem_map_of_mem member)
    exact same ▸ List.mem_map_of_mem inside
  rw [View.coalesce_eq loose.split]
  apply View.mem_file.mpr
  right
  apply View.mem_unfileAll_of_ne _ listed
  exact fun y gone => stays y (mem_merged.mpr (.inr gone))

theorem coalesced_listed (v : View) (left : List Span) (x : Span) (right : List Span) :
    (coalesced left x right).block ∈
      (v.coalesce left x right).files (coalesced left x right).cls := by
  unfold View.coalesce
  cases freeLast left <;> cases freeHead right <;> exact View.mem_file.mpr (.inl ⟨rfl, rfl⟩)

theorem merged_fits (shown : h.Shows v) (small : Memory.size h.memory ≤ Tag.maxSize)
    (loose : v.Loose left x right) : mergedSize left x right ≤ Tag.maxSize := by
  obtain ⟨low, high, tiles, _, inside⟩ := shown.stretch (loose.split.trans (split_merged ..))
  have total := tiles.sum_sizes
  unfold mergedSize
  omega

theorem settled_coalesce (shown : h.Shows v) (loose : v.Loose left x right) :
    (v.coalesce left x right).Settled where
  apart := by
    obtain ⟨left_apart, left_used⟩ := restLeft_apart loose.left_apart
    obtain ⟨right_apart, right_used⟩ := restRight_apart loose.right_apart
    rw [loose.coalesce_spans, List.isChain_append, List.isChain_cons]
    refine ⟨left_apart, ⟨fun q first => .inr (right_used q first), right_apart⟩, ?_⟩
    exact fun q last _ _ => .inl (left_used q last)
  filed := by
    intro z member unused
    rw [loose.coalesce_spans, List.mem_append, List.mem_cons] at member
    have stays : z ∈ restLeft left ++ restRight right →
        z.block ∈ (v.coalesce left x right).files z.cls := by
      intro outside
      refine shown.listed_coalesce loose outside (loose.filed z ?_ unused)
      rcases List.mem_append.mp outside with inside | inside
      · exact List.mem_append_left _ (mem_of_mem_restLeft inside)
      · exact List.mem_append_right _ (mem_of_mem_restRight inside)
    rcases member with before | rfl | behind
    · exact stays (List.mem_append_left _ before)
    · exact coalesced_listed v left x right
    · exact stays (List.mem_append_right _ behind)

theorem eq_of_used (shown : h.Shows v) {y : Span} (first : x ∈ v.used) (second : y ∈ v.used)
    (same : x.block = y.block) : x = y :=
  shown.eq_of_block (View.mem_of_used first) (View.mem_of_used second) same

theorem not_marked (shown : h.Shows v) {y : Span} (member : y ∈ v.used) {i : Nat}
    (covers : y.Covers i) : ¬Marked v.spans i := by
  obtain ⟨inside, used⟩ := View.mem_used.mp member
  rintro ⟨z, other, unused, marked⟩
  have room := shown.room z other
  have there : z.Covers i := by
    rcases marked with tagged | link
    · exact Span.covers_of_inTags (Nat.le_trans (by decide) room) tagged
    · exact Span.covers_of_inLink room link
  have same := shown.eq_of_covers inside other covers there
  rw [same, unused] at used
  exact Bool.noConfusion used

theorem tags_behind (shown : h.Shows v) (member : x ∈ v.spans) {i : Nat} (tagged : x.InTags i) :
    h.prologue + 4 ≤ i := by
  have := shown.within member
  have := shown.room x member
  unfold Span.InTags at tagged
  omega

theorem marked_behind (shown : h.Shows v) {i : Nat} (marked : Marked v.spans i) :
    h.prologue + 4 ≤ i := by
  obtain ⟨y, member, _, tagged | link⟩ := marked
  · exact shown.tags_behind member tagged
  · have := shown.within member
    unfold Span.InLink at link
    omega

theorem spares_marked (shown : h'.Shows v) (keeps : h.Keeps h' (Marked v.spans)) :
    h.Spares h' v.used :=
  keeps.spares
    (fun _ member _ payload => shown.not_marked member (Span.covers_of_payload payload))
    fun _ marked => keeps.prologue ▸ shown.marked_behind marked

end Shows

end Heap

end SegregatedFit
