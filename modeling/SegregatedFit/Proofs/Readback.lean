import SegregatedFit.Proofs.Codec

namespace SegregatedFit

namespace Block

variable {M : Type} [Memory M] {m m' : M} {b n : Nat} {allocated : Bool}

/-- A block of `n` bytes has header and footer in the memory, and a tag can hold its size. -/
structure Placed (m : M) (b n : Nat) : Prop where
  header : 4 ≤ b
  footer : b + n ≤ Memory.size m + 4
  room : overhead ≤ n
  fits : n ≤ Tag.maxSize
  divides : n % 8 = 0

/-- The header and the footer of a block tell the same of it. Its footer is the word in front of the
header of the next block, and so it leads back from there. -/
structure Tagged (m : M) (b n : Nat) (allocated : Bool) : Prop where
  size : Block.size m b = .ok n
  allocated : Block.allocated m b = .ok allocated
  footer : Block.footer m b = .ok (b + n - 8)
  same : ∃ t, tag m b = .ok t ∧ tagAt m (b + n - 8) = .ok t
  next : Block.next m b = .ok (b + n)
  prev : Block.prev m (b + n) = .ok b

theorem Tagged.of_written {x : Span} (written : x.Written m) (room : 8 ≤ x.tag.size)
    (small : x.block + x.tag.size < offsetLimit) : Tagged m x.block x.tag.size x.tag.allocated where
  size := size_of_tag written.header
  allocated := allocated_of_tag written.header
  footer := footer_of_tag written.header room small
  same := ⟨x.tag, written.header, written.footer⟩
  next := written.next_eq small
  prev := written.prev_eq room

namespace Tagged

variable (tagged : Tagged m b n allocated)

include tagged

theorem written : ∃ t : Tag, t.size = n ∧ t.allocated = allocated ∧ Span.Written m ⟨b, t⟩ := by
  obtain ⟨t, header, footer⟩ := tagged.same
  have size : t.size = n := Except.ok.inj ((size_of_tag header).symm.trans tagged.size)
  have used : t.allocated = allocated :=
    Except.ok.inj ((allocated_of_tag header).symm.trans tagged.allocated)
  refine ⟨t, size, used, header, ?_⟩
  rw [size]
  exact footer

theorem small : b + n < offsetLimit := by
  have behind := tagged.next
  simp only [Block.next, tagged.size, bind, Except.bind] at behind
  exact (plus_eq_ok.mp behind).1

theorem of_same (room : 8 ≤ n) (same_size : Memory.size m ≤ Memory.size m')
    (same : ∀ i, b ≤ i + 4 ∧ i < b ∨ b + n ≤ i + 8 ∧ i + 4 < b + n →
      Memory.byte m' i = Memory.byte m i) : Tagged m' b n allocated := by
  obtain ⟨t, size, used, written⟩ := tagged.written
  subst size used
  have kept : Span.Written m' ⟨b, t⟩ := written.of_same room same_size same
  exact .of_written kept room tagged.small

end Tagged

end Block

namespace Heap

variable {M : Type} [Memory M] {h : Heap M} {b n next : Nat}

theorem setTags_tagged (allocated : Bool) (bounded : Memory.size h.memory < 1 <<< 63)
    (placed : Block.Placed h.memory b n) : ∃ m,
      setTags b n allocated h = .ok () { h with memory := m } ∧
      Block.Tagged m b n allocated ∧ Memory.size m = Memory.size h.memory ∧
      ∀ i, ¬(b ≤ i + 4 ∧ i < b) → ¬(b + n ≤ i + 8 ∧ i + 4 < b + n) →
        Memory.byte m i = Memory.byte h.memory i := by
  obtain ⟨header, footer, room, fits, divides⟩ := placed
  have limit : (1 <<< 63) + 4 < offsetLimit := by decide
  have small : b + n < offsetLimit := by omega
  have written := Span.written_retag allocated header footer room fits divides
  have tagged := Block.Tagged.of_written written
  rw [Span.block_of, Span.tag_of, Tag.size_of allocated fits divides,
    Tag.allocated_of allocated fits divides] at tagged
  refine ⟨_, setTags_of_inside header room footer fits small, tagged room small,
    Block.size_retag n, ?_⟩
  intro i front back
  exact Block.byte_retag header footer room ⟨front, back⟩

theorem setLink_linked (inside : b + 8 ≤ Memory.size h.memory) (small : next < offsetLimit) : ∃ m,
    setLink b next h = .ok () { h with memory := m } ∧
    Block.link m b = .ok next ∧ Memory.size m = Memory.size h.memory ∧
    ∀ i, ¬(b ≤ i ∧ i < b + 8) → Memory.byte m i = Memory.byte h.memory i := by
  refine ⟨_, setLink_of_inside inside, Block.link_written inside small,
    Memory.size_writeNat .., ?_⟩
  intro i outside
  exact Memory.byte_writeNat_outside _ _ _ _ _ inside (by omega)

/-- In any memory tags and links are read back as they were set, and nothing else is changed by
setting them. A block of sixteen bytes or more has room for both: its link stays when its tags are
set, and its tags tell the same when its link is set. -/
theorem tags_and_links_read_back (h : Heap M) (bounded : Memory.size h.memory < 1 <<< 63) :
    (∀ b n allocated, Block.Placed h.memory b n → ∃ m,
      setTags b n allocated h = .ok () { h with memory := m } ∧
      Block.Tagged m b n allocated ∧ Memory.size m = Memory.size h.memory ∧
      (∀ i, ¬(b ≤ i + 4 ∧ i < b) → ¬(b + n ≤ i + 8 ∧ i + 4 < b + n) →
        Memory.byte m i = Memory.byte h.memory i) ∧
      (Block.minSize ≤ n → Block.link m b = Block.link h.memory b)) ∧
    ∀ b next, b + 8 ≤ Memory.size h.memory → next < offsetLimit → ∃ m,
      setLink b next h = .ok () { h with memory := m } ∧
      Block.link m b = .ok next ∧ Memory.size m = Memory.size h.memory ∧
      (∀ i, ¬(b ≤ i ∧ i < b + 8) → Memory.byte m i = Memory.byte h.memory i) ∧
      ∀ n allocated, Block.minSize ≤ n → Block.Tagged h.memory b n allocated →
        Block.Tagged m b n allocated := by
  have minimum : Block.minSize = 16 := rfl
  constructor
  · intro b n allocated placed
    obtain ⟨m, ran, tagged, size, same⟩ := setTags_tagged allocated bounded placed
    refine ⟨m, ran, tagged, size, same, fun room => ?_⟩
    exact Block.link_congr size fun i low high => same i (by omega) (by omega)
  · intro b next inside small
    obtain ⟨m, ran, linked, size, same⟩ := setLink_linked inside small
    refine ⟨m, ran, linked, size, same, fun n allocated room tagged => ?_⟩
    exact tagged.of_same (by omega) (Nat.le_of_eq size.symm) fun i tags => same i (by omega)

def snug : Heap ByteArray where
  memory := ⟨Array.replicate 24 0⟩
  lists := .empty 8
  prologue := 8
  config := default
  journal := #[]

theorem snug_read_back : Memory.size snug.memory < 1 <<< 63 ∧ Block.Placed snug.memory 12 16 ∧
    12 + 8 ≤ Memory.size snug.memory ∧ offsetLimit - 1 < offsetLimit ∧
    ∃ m, (do setTags 12 16 true; setLink 12 (offsetLimit - 1) : HeapM ByteArray Unit) snug =
        .ok () { snug with memory := m } ∧
      Block.Tagged m 12 16 true ∧ Block.link m 12 = .ok (offsetLimit - 1) := by
  have bounded : Memory.size snug.memory < 1 <<< 63 := by decide
  have placed : Block.Placed snug.memory 12 16 :=
    ⟨by decide, by decide, by decide, by decide, by decide⟩
  have inside : 12 + 8 ≤ Memory.size snug.memory := by decide
  have small : offsetLimit - 1 < offsetLimit := by decide
  obtain ⟨m₁, tags_set, tagged, size, _⟩ :=
    (tags_and_links_read_back snug bounded).1 12 16 true placed
  obtain ⟨m₂, link_set, linked, _, _, stays⟩ :=
    (tags_and_links_read_back { snug with memory := m₁ } (size ▸ bounded)).2 12 (offsetLimit - 1)
      (size ▸ inside) small
  refine ⟨bounded, placed, inside, small, m₂, ?_, stays 16 true (by decide) tagged, linked⟩
  exact (bind_of_ok tags_set).trans link_set

end Heap

end SegregatedFit
