import SegregatedFit.Proofs.Growth

namespace SegregatedFit

def blockSize (size : Nat) : Nat := max ((size + 15) / 8 * 8) 16

theorem blockSize_spec (size : Nat) :
    16 ≤ blockSize size ∧ blockSize size % 8 = 0 ∧ size + 8 ≤ blockSize size := by
  unfold blockSize
  omega

theorem blockSize_le {size : Nat} (fits : (size + 15) / 8 * 8 ≤ Tag.maxSize) :
    blockSize size ≤ Tag.maxSize := by
  have : 16 ≤ Tag.maxSize := by decide
  unfold blockSize
  omega

/-- How large the heap is, by how much it grows at least, and which growth it would be granted. -/
structure Terms where
  size : Nat
  chunk : Nat
  grants : Nat → Bool

abbrev Turn (α : Type) := Except HeapError α × View

namespace View

def around (v : View) (b : Nat) (next : List Span → Span → List Span → View) : View :=
  match v.spans.find? (·.block == b) with
  | some x =>
    next (v.spans.takeWhile (·.block != b)) x (v.spans.dropWhile (·.block != b)).tail
  | none => v

def sizeOf (v : View) (b : Nat) : Nat :=
  match v.spans.find? (·.block == b) with
  | some x => x.tag.size
  | none => 0

def fit (v : View) (wanted : Nat) : Option Nat :=
  ((SizeClass.all.drop (SizeClass.ofSize wanted)).flatMap v.files).find? fun b =>
    wanted ≤ v.sizeOf b

def grown (v : View) (t : Terms) (bytes : Nat) : Turn Nat :=
  if t.grants bytes then (.ok (v.added t.size bytes).block, v.grow t.size bytes)
  else (.error (.arenaExhausted bytes t.size), v.note (.exhausted t.size bytes))

def found (v : View) (t : Terms) (wanted : Nat) : Turn Nat :=
  match v.fit wanted with
  | some b => (.ok b, v)
  | none => v.grown t (max wanted t.chunk)

def take (v : View) (b wanted : Nat) : View :=
  v.around b fun left x right => v.carve left x right wanted

def handOut (size wanted : Nat) : Turn Nat → Turn Nat
  | (.ok b, v) => (.ok b, (v.take b wanted).note (.allocated size b))
  | (.error error, v) => (.error error, v)

def allocate (v : View) (t : Terms) (size : Nat) : Turn Nat :=
  if (size + 15) / 8 * 8 ≤ Tag.maxSize then
    handOut size (blockSize size) (v.found t (blockSize size))
  else (.error (.sizeOverflow size), v)

def untake (v : View) (left : List Span) (x : Span) (right : List Span) : View :=
  { v with spans := left ++ Span.of x.block x.tag.size false :: right }.note
    (.released x.block x.tag.size)

def release (v : View) (b : Nat) : View :=
  v.around b fun left x right =>
    (v.untake left x right).coalesce left (.of x.block x.tag.size false) right

def allocateZeroed (v : View) (t : Terms) (count size : Nat) : Turn Nat :=
  if count * size < offsetLimit then v.allocate t (count * size)
  else (.error (.sizeOverflow (offsetLimit - 1)), v)

def move (old size : Nat) : Turn Nat → Turn (Option Nat)
  | (.ok new, v) =>
    (.ok (some new),
      (v.release old).note (.reallocated old new (min (v.sizeOf old - 8) size)))
  | (.error error, v) => (.error error, v)

def reallocate (v : View) (t : Terms) (old size : Nat) : Turn (Option Nat) :=
  if size = 0 then (.ok none, v.release old) else move old size (v.allocate t size)

section Ends

variable (v : View) (t : Terms) (b size wanted : Nat)

theorem ends_around {next : List Span → Span → List Span → View}
    (same : ∀ left x right, (next left x right).ends = v.ends) :
    (v.around b next).ends = v.ends := by
  unfold around
  split
  · exact same _ _ _
  · rfl

@[simp] theorem ends_take : (v.take b wanted).ends = v.ends :=
  v.ends_around b fun _ _ _ => ends_carve ..

@[simp] theorem ends_release : (v.release b).ends = v.ends :=
  v.ends_around b fun _ _ _ => ends_coalesce ..

@[simp] theorem ends_grown : (v.grown t size).2.ends = v.ends := by
  unfold grown
  split
  · exact ends_grow ..
  · rfl

@[simp] theorem ends_found : (v.found t wanted).2.ends = v.ends := by
  unfold found
  split
  · rfl
  · exact ends_grown ..

@[simp] theorem ends_handOut (turn : Turn Nat) :
    (handOut size wanted turn).2.ends = turn.2.ends := by
  obtain ⟨error | b, v⟩ := turn
  · rfl
  · exact ends_take ..

@[simp] theorem ends_allocate : (v.allocate t size).2.ends = v.ends := by
  unfold allocate
  split
  · rw [ends_handOut, ends_found]
  · rfl

@[simp] theorem ends_allocateZeroed (count : Nat) :
    (v.allocateZeroed t count size).2.ends = v.ends := by
  unfold allocateZeroed
  split
  · exact ends_allocate ..
  · rfl

@[simp] theorem ends_move (turn : Turn Nat) : (move b size turn).2.ends = turn.2.ends := by
  obtain ⟨error | new, v⟩ := turn
  · rfl
  · exact ends_release ..

@[simp] theorem ends_reallocate : (v.reallocate t b size).2.ends = v.ends := by
  unfold reallocate
  split
  · exact ends_release ..
  · rw [ends_move, ends_allocate]

end Ends

section Around

variable {v : View} {left right : List Span} {x : Span}

theorem left_differs (nodup : (v.spans.map Span.block).Nodup)
    (spans : v.spans = left ++ x :: right) : ∀ y ∈ left, y.block ≠ x.block := by
  intro y before
  exact Span.block_ne_of_nodup nodup spans (List.mem_append_left right before)

theorem find?_eq (nodup : (v.spans.map Span.block).Nodup) (member : x ∈ v.spans) :
    v.spans.find? (·.block == x.block) = some x := by
  obtain ⟨left, right, spans⟩ := List.append_of_mem member
  refine List.find?_eq_some_iff_append.mpr ⟨by simp, left, right, spans, fun y before => ?_⟩
  simpa using left_differs nodup spans y before

theorem sizeOf_eq (nodup : (v.spans.map Span.block).Nodup) (member : x ∈ v.spans) :
    v.sizeOf x.block = x.tag.size := by
  simp only [sizeOf, find?_eq nodup member]

theorem around_eq (nodup : (v.spans.map Span.block).Nodup) (spans : v.spans = left ++ x :: right)
    (next : List Span → Span → List Span → View) : v.around x.block next = next left x right := by
  have others : ∀ y ∈ left, (y.block != x.block) = true := by
    simpa using left_differs nodup spans
  simp only [around, find?_eq nodup (show x ∈ v.spans by simp [spans])]
  rw [spans, List.takeWhile_append_of_pos others, List.dropWhile_append_of_pos others]
  simp

end Around

end View

end SegregatedFit
