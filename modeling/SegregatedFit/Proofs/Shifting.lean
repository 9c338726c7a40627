import Mathlib.Data.List.Basic
import SegregatedFit.Proofs.Refinement

namespace SegregatedFit

def Span.shift (d : Nat) (x : Span) : Span := { x with block := x.block + d }

@[simp] theorem Span.block_shift (d : Nat) (x : Span) : (x.shift d).block = x.block + d := rfl

@[simp] theorem Span.tag_shift (d : Nat) (x : Span) : (x.shift d).tag = x.tag := rfl

@[simp] theorem Span.cls_shift (d : Nat) (x : Span) : (x.shift d).cls = x.cls := rfl

@[simp] theorem Span.shift_of (d b n : Nat) (allocated : Bool) :
    (Span.of b n allocated).shift d = .of (b + d) n allocated := rfl

def HeapError.shift (d : Nat) : HeapError → HeapError
  | .arenaExhausted requested heapSize => .arenaExhausted requested (heapSize + d)
  | error => error

def Answer.shift (d : Nat) : Answer → Answer
  | .ok block => .ok (block.map (· + d))
  | .error error => .error (error.shift d)

def Request.shift (d : Nat) : Request → Request
  | .release block => .release (block.map (· + d))
  | .reallocate block size => .reallocate (block.map (· + d)) size
  | .write block start bytes => .write (block + d) start bytes
  | r => r

@[simp] theorem Request.target_shift (d : Nat) (r : Request) :
    (r.shift d).target = r.target.map (· + d) := by
  cases r <;> rfl

def Terms.shift (d : Nat) (t : Terms) : Terms := { t with size := t.size + d }

section Neighbours

variable (d : Nat) (left : List Span) (x : Span) (right : List Span)

@[simp] theorem freeLast_shift :
    freeLast (left.map (Span.shift d)) = (freeLast left).map (Span.shift d) := by
  simp only [freeLast, List.getLast?_map, Option.filter_map]
  rfl

@[simp] theorem freeHead_shift :
    freeHead (right.map (Span.shift d)) = (freeHead right).map (Span.shift d) := by
  simp only [freeHead, List.head?_map, Option.filter_map]
  rfl

@[simp] theorem coalesced_shift :
    coalesced (left.map (Span.shift d)) (x.shift d) (right.map (Span.shift d)) =
      (coalesced left x right).shift d := by
  simp only [coalesced, freeLast_shift, freeHead_shift]
  cases freeLast left <;> cases freeHead right <;> rfl

@[simp] theorem taken_shift (wanted : Nat) :
    taken (x.shift d) wanted = (taken x wanted).shift d := rfl

@[simp] theorem leftover_shift (wanted : Nat) :
    leftover (x.shift d) wanted = (leftover x wanted).shift d := by
  simp only [leftover, Span.block_shift, Span.tag_shift, Span.shift_of, Nat.add_right_comm]

end Neighbours

namespace View

/-- All blocks of `w` lie `d` bytes behind those of `v`, in the same order. -/
structure Shifted (d : Nat) (v w : View) : Prop where
  spans : w.spans = v.spans.map (Span.shift d)
  files : ∀ cls, w.files cls = (v.files cls).map (· + d)

end View

inductive Turn.Shifted (d : Nat) {α : Type} (shift : α → α) : Turn α → Turn α → Prop
  | granted {v w : View} (a : α) : v.Shifted d w → Shifted d shift (.ok a, v) (.ok (shift a), w)
  | refused {v w : View} (error : HeapError) :
    v.Shifted d w → Shifted d shift (.error error, v) (.error (error.shift d), w)

theorem Turn.Shifted.elim {d : Nat} {turn turn' : Turn (Option Nat)}
    (shifted : Turn.Shifted d (Option.map (· + d)) turn turn') :
    turn'.1 = Answer.shift d turn.1 ∧ turn.2.Shifted d turn'.2 := by
  cases shifted with
  | granted _ after => exact ⟨rfl, after⟩
  | refused _ after => exact ⟨rfl, after⟩

namespace View

variable {d : Nat} {v w : View}

namespace Shifted

variable (shifted : v.Shifted d w)

include shifted

theorem note (entry entry' : Entry) : (v.note entry).Shifted d (w.note entry') :=
  ⟨shifted.spans, shifted.files⟩

theorem respan {spans spans' : List Span} (same : spans' = spans.map (Span.shift d)) :
    ({ v with spans := spans } : View).Shifted d { w with spans := spans' } :=
  ⟨same, shifted.files⟩

theorem used : w.used = v.used.map (Span.shift d) := by
  simp only [View.used, shifted.spans, List.filter_map]
  rfl

theorem file (x : Span) : (v.file x).Shifted d (w.file (x.shift d)) where
  spans := shifted.spans
  files cls := by
    by_cases same : cls = x.cls
    · subst same
      simp [View.file, shifted.files]
    · simp [View.file, same, shifted.files]

theorem unfile (x : Span) : (v.unfile x).Shifted d (w.unfile (x.shift d)) where
  spans := shifted.spans
  files cls := by
    have injective : Function.Injective (· + d) := fun _ _ => Nat.add_right_cancel
    by_cases same : cls = x.cls
    · subst same
      simp [View.unfile, shifted.files, List.map_erase injective]
    · simp [View.unfile, same, shifted.files]

theorem coalesce (left : List Span) (x : Span) (right : List Span) :
    (v.coalesce left x right).Shifted d
      (w.coalesce (left.map (Span.shift d)) (x.shift d) (right.map (Span.shift d))) := by
  -- whichever neighbours are merged, the block that comes of it is listed in the same way
  have listing : ∀ {v w : View} {spans spans' : List Span} (entry entry' : Entry) (y : Span),
      v.Shifted d w → spans' = spans.map (Span.shift d) →
      (({ v with spans := spans }.note entry).file y).Shifted d
        (({ w with spans := spans' }.note entry').file (y.shift d)) :=
    fun entry entry' y shifted same => ((shifted.respan same).note entry entry').file y
  unfold View.coalesce
  rw [freeLast_shift, freeHead_shift, coalesced_shift]
  cases freeLast left with
  | none =>
    cases freeHead right with
    | none => exact listing _ _ _ shifted shifted.spans
    | some n => exact listing _ _ _ (shifted.unfile n) (by simp)
  | some p =>
    cases freeHead right with
    | none => exact listing _ _ _ (shifted.unfile p) (by simp)
    | some n => exact listing _ _ _ ((shifted.unfile n).unfile p) (by simp)

theorem carve (left : List Span) (x : Span) (right : List Span) (wanted : Nat) :
    (v.carve left x right wanted).Shifted d
      (w.carve (left.map (Span.shift d)) (x.shift d) (right.map (Span.shift d)) wanted) := by
  have unfiled := shifted.unfile x
  unfold View.carve
  rw [Span.tag_shift]
  split
  · have parted : (v.split left x right wanted).Shifted d
        (w.split (left.map (Span.shift d)) (x.shift d) (right.map (Span.shift d)) wanted) :=
      (unfiled.respan (by simp)).note _ _
    simpa using parted.coalesce (left ++ [taken x wanted]) (leftover x wanted) right
  · exact (unfiled.respan (by simp)).note _ _

theorem find?_spans (b : Nat) : w.spans.find? (·.block == b + d) =
    (v.spans.find? (·.block == b)).map (Span.shift d) := by
  rw [shifted.spans, List.find?_map]
  congr 2
  funext x
  simp

theorem around (b : Nat) {next next' : List Span → Span → List Span → View}
    (later : ∀ left x right, (next left x right).Shifted d
      (next' (left.map (Span.shift d)) (x.shift d) (right.map (Span.shift d)))) :
    (v.around b next).Shifted d (w.around (b + d) next') := by
  have differs : (fun x : Span => x.block != b + d) ∘ Span.shift d = fun x => x.block != b := by
    funext x
    simp [bne]
  unfold View.around
  rw [shifted.find?_spans b]
  cases v.spans.find? (·.block == b) with
  | none => exact shifted
  | some x =>
    simp only [Option.map_some, shifted.spans, List.takeWhile_map, List.dropWhile_map, differs,
      ← List.map_tail]
    exact later _ _ _

theorem sizeOf (b : Nat) : w.sizeOf (b + d) = v.sizeOf b := by
  unfold View.sizeOf
  rw [shifted.find?_spans b]
  cases v.spans.find? (·.block == b) <;> rfl

theorem fit (wanted : Nat) : w.fit wanted = (v.fit wanted).map (· + d) := by
  have large : (fun b => decide (wanted ≤ w.sizeOf b)) ∘ (· + d) =
      fun b => decide (wanted ≤ v.sizeOf b) := by
    funext b
    simp [shifted.sizeOf]
  unfold View.fit
  rw [funext shifted.files, ← List.map_flatMap, List.find?_map, large]

theorem take (b wanted : Nat) : (v.take b wanted).Shifted d (w.take (b + d) wanted) :=
  shifted.around b fun left x right => shifted.carve left x right wanted

theorem release (b : Nat) : (v.release b).Shifted d (w.release (b + d)) := by
  refine shifted.around b fun left x right => ?_
  have untaken : (v.untake left x right).Shifted d
      (w.untake (left.map (Span.shift d)) (x.shift d) (right.map (Span.shift d))) :=
    (shifted.respan (by simp)).note _ _
  exact untaken.coalesce left (.of x.block x.tag.size false) right

theorem grow (b size : Nat) : (v.grow b size).Shifted d (w.grow (b + d) size) := by
  have added : (v.add b size).Shifted d (w.add (b + d) size) :=
    (shifted.respan (by simp [shifted.spans])).note _ _
  unfold View.grow
  rw [shifted.spans]
  exact added.coalesce v.spans (.of b size false) []

theorem added (b size : Nat) : w.added (b + d) size = (v.added b size).shift d := by
  unfold View.added
  rw [shifted.spans]
  exact coalesced_shift d v.spans (.of b size false) []

variable (t : Terms)

theorem grown (bytes : Nat) :
    Turn.Shifted d (· + d) (v.grown t bytes) (w.grown (t.shift d) bytes) := by
  unfold View.grown
  by_cases granted : t.grants bytes = true
  · rw [if_pos granted, if_pos (show (t.shift d).grants bytes = true from granted)]
    rw [show (w.added (t.shift d).size bytes).block = (v.added t.size bytes).block + d from
      congrArg Span.block (shifted.added t.size bytes)]
    exact .granted _ (shifted.grow t.size bytes)
  · rw [if_neg granted, if_neg (show ¬(t.shift d).grants bytes = true from granted)]
    exact .refused _ (shifted.note _ _)

theorem found (wanted : Nat) :
    Turn.Shifted d (· + d) (v.found t wanted) (w.found (t.shift d) wanted) := by
  unfold View.found
  rw [shifted.fit wanted]
  cases v.fit wanted with
  | none => exact shifted.grown t _
  | some b => exact .granted b shifted

end Shifted

end View

namespace Turn.Shifted

variable {d : Nat} {turn turn' : Turn Nat} (shifted : Turn.Shifted d (· + d) turn turn')

include shifted

theorem handOut (size wanted : Nat) :
    Turn.Shifted d (· + d) (View.handOut size wanted turn) (View.handOut size wanted turn') := by
  cases shifted with
  | granted b found => exact .granted b ((found.take b wanted).note _ _)
  | refused error found => exact .refused error found

theorem move (old size : Nat) :
    Turn.Shifted d (Option.map (· + d)) (View.move old size turn)
      (View.move (old + d) size turn') := by
  cases shifted with
  | granted new moved => exact .granted (some new) ((moved.release old).note _ _)
  | refused error moved => exact .refused error moved

theorem answered :
    Turn.Shifted d (Option.map (· + d)) (View.answered turn) (View.answered turn') := by
  cases shifted with
  | granted b after => exact .granted (some b) after
  | refused error after => exact .refused error after

end Turn.Shifted

namespace View.Shifted

variable {d : Nat} {v w : View} (shifted : v.Shifted d w) (t : Terms)

include shifted

theorem allocate (size : Nat) :
    Turn.Shifted d (· + d) (v.allocate t size) (w.allocate (t.shift d) size) := by
  unfold View.allocate
  split
  · exact (shifted.found t _).handOut size _
  · exact .refused (.sizeOverflow size) shifted

theorem allocateZeroed (count size : Nat) :
    Turn.Shifted d (· + d) (v.allocateZeroed t count size)
      (w.allocateZeroed (t.shift d) count size) := by
  unfold View.allocateZeroed
  split
  · exact shifted.allocate t (count * size)
  · exact .refused (.sizeOverflow _) shifted

theorem reallocate (old size : Nat) :
    Turn.Shifted d (Option.map (· + d)) (v.reallocate t old size)
      (w.reallocate (t.shift d) (old + d) size) := by
  unfold View.reallocate
  split
  · exact .granted none (shifted.release old)
  · exact (shifted.allocate t size).move old size

theorem perform (r : Request) :
    Turn.Shifted d (Option.map (· + d)) (v.perform t r) (w.perform (t.shift d) (r.shift d)) := by
  cases r with
  | allocate size => exact (shifted.allocate t size).answered
  | allocateZeroed count size => exact (shifted.allocateZeroed t count size).answered
  | release block =>
    cases block with
    | none => exact .granted none shifted
    | some b => exact .granted none (shifted.release b)
  | reallocate block size =>
    cases block with
    | none =>
      simp only [View.perform, Request.shift, Option.map_none]
      split
      · exact .granted none shifted
      · exact (shifted.allocate t size).answered
    | some b => exact shifted.reallocate t b size
  | write b start bytes => exact .granted none shifted

end View.Shifted

theorem View.shifted_opened (d size chunk : Nat) (journal journal' : Array Entry) :
    (View.opened size chunk journal).Shifted d (.opened (size + d) chunk journal') := by
  have blank : View.Shifted d ⟨[], fun _ => [], fun stop => stop = size + 8, journal⟩
      ⟨[], fun _ => [], fun stop => stop = size + d + 8, journal'⟩ := ⟨rfl, fun _ => rfl⟩
  have grown := blank.grow (size + 16) chunk
  rw [Nat.add_right_comm size 16 d] at grown
  exact grown.note _ _

end SegregatedFit
