import SegregatedFit.Proofs.Reachability
import SegregatedFit.Proofs.Refinement

namespace SegregatedFit

namespace Heap

variable {A : Type} [Arena A] {h : Heap A} {v v' : View} {x : Span} {size : Nat}

theorem Shows.used_apart_free (shown : h.Shows v) {z : Span} (used : x ∈ v.used)
    (member : z ∈ v.spans) (free : z.tag.allocated = false) {i : Nat} (covers : x.Covers i) :
    ¬z.Covers i := by
  intro shared
  obtain ⟨inside, allocated⟩ := View.mem_used.mp used
  rw [shown.eq_of_covers inside member covers shared, free] at allocated
  exact Bool.noConfusion allocated

theorem Shows.used_elsewhere (shown : h.Shows v) {y z : Span} (used : y ∈ v.used)
    (member : z ∈ v.spans) (free : z.tag.allocated = false)
    (covers : ∀ i, x.Covers i → z.Covers i) (room : 16 ≤ x.tag.size) :
    y.block ≠ x.block ∧ ∀ i, y.Covers i → ¬x.Covers i := by
  have apart : ∀ i, y.Covers i → ¬x.Covers i :=
    fun i inside shared => shown.used_apart_free used member free inside (covers i shared)
  refine ⟨fun same => ?_, apart⟩
  have y_room := shown.room y (View.mem_of_used used)
  apply apart x.block <;> unfold Span.Covers <;> omega

/-- The bytes of a block that is given back belong to a free block of the chain. -/
theorem Sound.release_frees (sound : h.Sound v) (live : x ∈ v.used) :
    ∃ z ∈ (v.release x.block).spans, z.tag.allocated = false ∧ z.block ≤ x.block ∧
      x.block + x.tag.size ≤ z.block + z.tag.size := by
  have shown := sound.shown
  obtain ⟨left, right, spans⟩ := List.append_of_mem (View.mem_of_used live)
  have loose := sound.loose_untake live spans
  have same_size : (Span.of x.block x.tag.size false).tag.size = x.tag.size :=
    Tag.size_of false x.tag.size_le x.tag.size_mod
  have viewed : v.release x.block =
      (v.untake left x right).coalesce left (.of x.block x.tag.size false) right :=
    View.around_eq shown.blocks_nodup spans _
  have tiles : Tiles (h.prologue + 8) (left ++ .of x.block x.tag.size false :: right)
      (Memory.size h.memory) := by
    obtain ⟨before, behind⟩ := (spans ▸ shown.chained.tiles).around
    refine before.append ⟨rfl, ?_⟩
    rw [same_size]
    exact behind
  rw [split_merged] at tiles
  obtain ⟨low, high, _, covered, behind⟩ := tiles.stretch
  obtain ⟨first, last⟩ := tiles_merged covered
  have fits : mergedSize left (.of x.block x.tag.size false) right ≤ Tag.maxSize := by
    have small := sound.small
    have := behind.le
    omega
  obtain ⟨from_here, to_here⟩ := covered.within (mem_merged.mpr (.inl rfl))
  refine ⟨coalesced left (.of x.block x.tag.size false) right, ?_,
    coalesced_free loose.unused fits, ?_, ?_⟩
  · rw [viewed, loose.coalesce_spans]
    simp
  · exact first ▸ from_here
  · rw [coalesced_size fits, ← last, ← same_size]
    exact to_here

theorem Sound.reallocate_frees {b : Nat} (sound : h.Sound v) (live : x ∈ v.used)
    (turn : v.reallocate h.terms x.block size = (.ok (some b), v')) :
    ∃ z ∈ v'.spans, z.tag.allocated = false ∧ z.block ≤ x.block ∧
      x.block + x.tag.size ≤ z.block + z.tag.size := by
  unfold View.reallocate at turn
  by_cases nothing : size = 0
  · rw [if_pos nothing] at turn
    cases turn
  · rw [if_neg nothing] at turn
    rcases granted : v.allocate h.terms size with ⟨found, v₁⟩
    rw [granted] at turn
    obtain ⟨h₁, _, sound₁, _, grants⟩ := allocate_shows sound size granted
    cases found with
    | error error => cases turn
    | ok new =>
      cases turn
      obtain ⟨y, _, perm, _, _⟩ := grants
      exact sound₁.release_frees (perm.mem_iff.mpr (List.mem_cons_of_mem _ live))

theorem ne_none_of_move {t : Terms} {b : Nat} {answer : Except HeapError (Option Block)}
    (positive : 0 < size) (turn : v.reallocate t b size = (answer, v')) : answer ≠ .ok none := by
  unfold View.reallocate at turn
  rw [if_neg (Nat.ne_of_gt positive)] at turn
  rcases granted : v.allocate t size with ⟨error | new, v₁⟩ <;> rw [granted] at turn <;>
    cases turn <;> simp

end Heap

namespace Session

variable {A : Type} [Arena A] {s s' : Session A} {v v' : View} {x : Span}
  {old size : Nat}

/-- The block of `x` was live, and now that of `y` is, with the same contents as far as both blocks
and `size` bytes go. -/
structure Moves (s s' : Session A) (x y : Span) (size : Nat) : Prop where
  held : ∃ spans, s.heap.chain = .ok spans ∧ x ∈ spans
  granted : ∃ spans, s'.heap.chain = .ok spans ∧ y ∈ spans
  used : y.tag.allocated = true
  live : y.block ∈ s'.leases.map Lease.block
  different : y.block ≠ x.block
  apart : ∀ i, y.Covers i → ¬x.Covers i
  room : ∃ n, Block.payloadSize s'.heap.memory y.block = .ok n ∧ size ≤ n
  contents : ∃ n, Block.payloadSize s.heap.memory x.block = .ok n ∧ ∀ i < min n size,
    Memory.byte s'.heap.memory (y.block + i) = Memory.byte s.heap.memory (x.block + i)
  gone : x.block ∉ s'.leases.map Lease.block
  freed : ∃ spans, s'.heap.chain = .ok spans ∧ ∃ z ∈ spans, z.tag.allocated = false ∧
    ∀ i, x.Covers i → z.Covers i
  others : s.Untouched s' (some x.block)

theorem allowed_reallocate_iff :
    (Request.reallocate (some old) size).allowed s = true ↔ old ∈ s.leases.map Lease.block := by
  simp [Request.allowed, Request.target, Request.fits]

theorem Kept.reallocated {answer : Answer} (kept : s.Kept v) (used : x ∈ v.used)
    (turn : v.reallocate s.heap.terms x.block size = (answer, v')) :
    ∃ s', perform (.reallocate (some x.block) size) s = .ok answer s' ∧ s'.Kept v' ∧
      Heap.Resizes s.heap s'.heap v v' x size answer ∧ s.Untouched s' (some x.block) := by
  have allowed : (Request.reallocate (some x.block) size).allowed s = true :=
    allowed_reallocate_iff.mpr <|
      kept.leased.live.mem_iff.mpr (List.mem_map.mpr ⟨x, used, rfl⟩)
  obtain ⟨s', performed, kept', _⟩ := kept.performs_view allowed turn
  obtain ⟨h', ran, _, resizes⟩ :=
    Heap.reallocate_shows kept.sound used (kept.avoids used) size turn
  obtain ⟨_, _, _, again, _, untouched⟩ := kept.performs allowed
  rw [performed] at again
  cases again
  have resized := perform_of_ok (r := .reallocate (some x.block) size) ran
  rw [performed] at resized
  cases resized
  exact ⟨_, performed, kept', resizes, untouched⟩

/-- A block asked to have some other size answers an error, or its contents move. -/
theorem reallocate_moves (reached : Reached s) (live : old ∈ s.leases.map Lease.block)
    (positive : 0 < size) :
    ∃ answer s', perform (.reallocate (some old) size) s = .ok answer s' ∧ answer ≠ .ok none ∧
      ∀ new, answer = .ok (some new) → ∃ x y, x.block = old ∧ y.block = new ∧
        s.Moves s' x y size := by
  obtain ⟨v, kept⟩ := reached.kept
  obtain ⟨x, used, here⟩ := kept.used_of_live live
  subst here
  rcases turn : v.reallocate s.heap.terms x.block size with ⟨answer, v'⟩
  obtain ⟨s', performed, kept', resizes, untouched⟩ := kept.reallocated used turn
  refine ⟨answer, s', performed, Heap.ne_none_of_move positive turn, ?_⟩
  intro new answered
  subst answered
  obtain ⟨y, rest, here, _, perm, enough, _, copied⟩ := resizes
  subst here
  obtain ⟨z, member, free, from_here, to_here⟩ := kept.sound.reallocate_frees used turn
  have shown := kept'.sound.shown
  have y_used : y ∈ v'.used := perm.mem_iff.mpr (List.mem_cons_self ..)
  obtain ⟨y_member, y_allocated⟩ := View.mem_used.mp y_used
  have old_room := kept.sound.shown.room x (View.mem_of_used used)
  have covers : ∀ i, x.Covers i → z.Covers i := by
    intro i inside
    unfold Span.Covers at inside ⊢
    omega
  -- the old block lies in a free one, and no block in use does
  have elsewhere : ∀ w ∈ v'.used, w.block ≠ x.block ∧ ∀ i, w.Covers i → ¬x.Covers i :=
    fun w w_used => shown.used_elsewhere w_used member free covers old_room
  refine ⟨x, y, rfl, rfl, ?_⟩
  constructor
  · exact ⟨v.spans, kept.chain_eq, View.mem_of_used used⟩
  · exact ⟨v'.spans, kept'.chain_eq, y_member⟩
  · exact y_allocated
  · exact kept'.leased.live.mem_iff.mpr (List.mem_map.mpr ⟨y, y_used, rfl⟩)
  · exact (elsewhere y y_used).1
  · exact (elsewhere y y_used).2
  · exact ⟨y.tag.size - 8, kept'.sound.read_payloadSize y_used, by omega⟩
  · refine ⟨x.tag.size - 8, kept.sound.read_payloadSize used, fun i below => ?_⟩
    exact copied i (by omega) (by omega)
  · intro again
    obtain ⟨w, w_used, same⟩ := kept'.used_of_live again
    exact (elsewhere w w_used).1 same
  · exact ⟨v'.spans, kept'.chain_eq, z, member, free, covers⟩
  · exact untouched

def outgrown : List Request :=
  [.allocate 20, .write 16 3 ⟨#[7, 9]⟩] ++ [.reallocate (some 16) 40]

theorem outgrown_outcome :
    (outcome (Buffer.new 300) ⟨256, 32⟩ outgrown).map (fun ended =>
      (ended.1, Memory.size ended.2.heap.memory)) =
      some ([.ok (some 16), .ok none, .ok (some 48)], 96) := by
  decide +kernel

theorem outgrown_moved : ∃ s s' : Session Buffer, Reached s ∧ 16 ∈ s.leases.map Lease.block ∧
    0 < 40 ∧ perform (.reallocate (some 16) 40) s = .ok (.ok (some 48)) s' ∧
    ∃ x y, x.block = 16 ∧ y.block = 48 ∧ s.Moves s' x y 40 := by
  obtain ⟨⟨answers, s'⟩, ended, facts⟩ := Option.map_eq_some_iff.mp outgrown_outcome
  obtain ⟨before, answer, s, came, allowed, performed, concat⟩ := of_outcome_concat ended
  have reached : Reached s := .of_outcome (by decide) came
  have last : answer = .ok (some 48) := by
    have same := congrArg (List.getLast? ∘ Prod.fst) facts
    subst concat
    simpa using same
  subst last
  have live : 16 ∈ s.leases.map Lease.block := allowed_reallocate_iff.mp allowed
  obtain ⟨answer, s'', again, _, moves⟩ := reallocate_moves reached live (by decide : 0 < 40)
  rw [performed] at again
  cases again
  exact ⟨s, s', reached, live, by decide, performed, moves 48 rfl⟩

end Session

end SegregatedFit
