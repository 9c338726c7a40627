import SegregatedFit.Proofs.Checking

/-!
A damaged tag is found. A walk over the headers of a chain can only find that chain, and so can a
walk backwards over its footers. Damage to one of the two leaves the other walk as it was, so an
intact heap would have the chain it had before, with the tag that was overwritten.
-/

namespace SegregatedFit

namespace Tiles

variable {M : Type} [Memory M] {m : M} {start stop : Nat} {left right other : List Span}

/-- The walk back over the footers: what ends at the same place has the same last blocks. -/
theorem eq_append_of_footers (tiles : Tiles start (left ++ right) stop)
    (other_tiles : Tiles start other stop) (room : ∀ y ∈ right, 8 ≤ y.tag.size)
    (other_room : ∀ y ∈ other, 8 ≤ y.tag.size)
    (footers : ∀ y ∈ right, Block.tagAt m (y.block + y.tag.size - 8) = .ok y.tag)
    (other_footers : ∀ y ∈ other, Block.tagAt m (y.block + y.tag.size - 8) = .ok y.tag) :
    ∃ front, other = front ++ right := by
  induction right generalizing left with
  | nil => exact ⟨other, (List.append_nil _).symm⟩
  | cons y rest ih =>
    rw [List.append_cons] at tiles
    obtain ⟨front, rfl⟩ := ih tiles (fun w member => room w (List.mem_cons_of_mem _ member))
      fun w member => footers w (List.mem_cons_of_mem _ member)
    obtain ⟨middle, before, behind⟩ := append_iff.mp tiles
    obtain ⟨middle', before', behind'⟩ := append_iff.mp other_tiles
    have total := behind.sum_sizes
    have total' := behind'.sum_sizes
    have size := room y (by simp)
    obtain ⟨first, ends⟩ := before.around
    have ends : y.block + y.tag.size = middle := ends
    have from_start := first.le
    rcases front.eq_nil_or_concat with rfl | ⟨front, z, rfl⟩
    · have here : start = middle' := before'
      omega
    · -- the block that ends where `y` ends has the footer of `y`, so it starts there as well
      rw [List.concat_eq_append] at before' other_footers other_room ⊢
      obtain ⟨_, ends'⟩ := before'.around
      have ends' : z.block + z.tag.size = middle' := ends'
      have size' := other_room z (by simp)
      have read := footers y (by simp)
      have read' := other_footers z (by simp)
      rw [show z.block + z.tag.size - 8 = y.block + y.tag.size - 8 by omega, read] at read'
      have same : y.tag = z.tag := Except.ok.inj read'
      have here : y.block = z.block := by
        rw [same] at ends
        omega
      refine ⟨front, ?_⟩
      have equal : y = z := by
        cases y
        cases z
        simp_all
      rw [equal, List.append_assoc]
      rfl

end Tiles

namespace Heap

variable {M : Type} [Memory M] {h : Heap M} {spans : List Span} {files : SizeClass → List Nat}
  {stops : SizeClass → Nat} {x : Span} {o : Nat} {w : UInt32}

def damaged (h : Heap M) (o : Nat) (w : UInt32) : Heap M :=
  { h with memory := Memory.writeNat h.memory o 4 w.toNat }

section Damaged

theorem size_damaged (h : Heap M) (o : Nat) (w : UInt32) :
    Memory.size (h.damaged o w).memory = Memory.size h.memory :=
  Memory.size_writeNat _ _ _ _

theorem setTag_damaged (inside : o + 4 ≤ Memory.size h.memory) :
    setTag o ⟨w⟩ h = .ok () (h.damaged o w) :=
  setNat_of_inside inside

theorem tagAt_damaged {p : Nat} {t : Tag} (inside : o + 4 ≤ Memory.size h.memory)
    (beside : p + 4 ≤ o ∨ o + 4 ≤ p) (read : Block.tagAt h.memory p = .ok t) :
    Block.tagAt (h.damaged o w).memory p = .ok t := by
  refine Block.tagAt_of_same (Nat.le_of_eq (size_damaged h o w).symm) (fun i low high => ?_) read
  exact Memory.byte_writeNat_outside _ _ _ _ _ inside (by omega)

theorem tagAt_lost {t : Tag} (different : Block.tagAt h.memory o ≠ .ok ⟨w⟩)
    (old : Block.tagAt h.memory o = .ok t) : Block.tagAt (h.damaged o w).memory o ≠ .ok t := by
  intro read
  have inside := (Block.tagAt_eq_ok.mp old).1
  have written : Block.tagAt (h.damaged o w).memory o = .ok ⟨w⟩ :=
    Block.tagAt_written (t := ⟨w⟩) inside
  rw [old, ← read, written] at different
  exact different rfl

end Damaged

namespace Consistent

variable {spans' : List Span} {files' : SizeClass → List Nat} {stops' : SizeClass → Nat}

theorem room_eight (consistent : h.Consistent spans files stops) : ∀ y ∈ spans, 8 ≤ y.tag.size :=
  fun y member => Nat.le_trans (by decide) (consistent.room y member)

theorem header_damaged (consistent : h.Consistent spans files stops) (member : x ∈ spans)
    (here : o + 4 = x.block) (different : Block.tagAt h.memory o ≠ .ok ⟨w⟩) :
    ¬(h.damaged o w).Consistent spans' files' stops' := by
  intro intact
  have bounds := consistent.chained.tiles.within member
  have size := consistent.room_eight x member
  obtain ⟨left, right, rfl⟩ := List.append_of_mem member
  have footers : ∀ y ∈ x :: right,
      Block.tagAt (h.damaged o w).memory (y.block + y.tag.size - 8) = .ok y.tag := by
    intro y other
    have whole := consistent.room_eight y (List.mem_append_right _ other)
    have written := consistent.chained.written y (List.mem_append_right _ other)
    refine tagAt_damaged (by omega) ?_ written.footer
    obtain ⟨_, behind⟩ := consistent.chained.tiles.around
    rcases List.mem_cons.mp other with rfl | later
    · omega
    · have := (behind.within later).1
      omega
  obtain ⟨front, rfl⟩ := consistent.chained.tiles.eq_append_of_footers
    (size_damaged h o w ▸ intact.chained.tiles)
    (fun y other => consistent.room_eight y (List.mem_append_right _ other)) intact.room_eight
    footers fun y other => (intact.chained.written y other).footer
  have old := (Block.tag_eq_ok.mp (consistent.chained.written x (by simp)).header).2
  have read := (Block.tag_eq_ok.mp (intact.chained.written x (by simp)).header).2
  rw [← here, Nat.add_sub_cancel] at old read
  exact tagAt_lost different old read

theorem footer_damaged (consistent : h.Consistent spans files stops) (member : x ∈ spans)
    (here : o + 8 = x.block + x.tag.size) (different : Block.tagAt h.memory o ≠ .ok ⟨w⟩) :
    ¬(h.damaged o w).Consistent spans' files' stops' := by
  intro intact
  have bounds := consistent.chained.tiles.within member
  have size := consistent.room_eight x member
  have headers : ∀ y ∈ spans, Block.tag (h.damaged o w).memory y.block = .ok y.tag := by
    intro y other
    have whole := consistent.room_eight y other
    obtain ⟨front, read⟩ := Block.tag_eq_ok.mp (consistent.chained.written y other).header
    refine Block.tag_eq_ok.mpr ⟨front, tagAt_damaged (by omega) ?_ read⟩
    by_cases same : x.block = y.block
    · omega
    · have := consistent.chained.tiles.apart member other same
      omega
  have same : spans' = spans := consistent.chained.tiles.eq_of_headers
    (size_damaged h o w ▸ intact.chained.tiles)
    consistent.room_pos intact.room_pos headers
    fun y other => (intact.chained.written y other).header
  subst same
  have old := (consistent.chained.written x member).footer
  have read := (intact.chained.written x member).footer
  rw [← here, Nat.add_sub_cancel] at old read
  exact tagAt_lost different old read

theorem sentinel_damaged (consistent : h.Consistent spans files stops)
    (here : o + 4 = h.prologue ∨ o = h.prologue)
    (different : Block.tagAt h.memory o ≠ .ok ⟨w⟩) :
    ¬(h.damaged o w).Consistent spans' files' stops' := by
  intro intact
  rcases here with here | rfl
  · have old := (Block.tag_eq_ok.mp consistent.chained.sentinel.header).2
    have read := (Block.tag_eq_ok.mp intact.chained.sentinel.header).2
    rw [Span.block_of] at old read
    rw [show (h.damaged o w).prologue = h.prologue from rfl] at read
    rw [← here, Nat.add_sub_cancel] at old read
    exact tagAt_lost different old read
  · exact tagAt_lost different consistent.chained.sentinel_footer intact.chained.sentinel_footer

end Consistent

/-- A header or a footer of the chain or of the prologue. -/
def TagWord (prologue : Nat) (spans : List Span) (o : Nat) : Prop :=
  ∃ x ∈ Span.of prologue 8 true :: spans, o + 4 = x.block ∨ o + 8 = x.block + x.tag.size

/-- Where the checker finds nothing, it finds something once a single header or footer is
overwritten with another word, whatever lies in the payloads. -/
theorem damaged_tag_found (h : Heap M) (bounded : Memory.size h.memory < 1 <<< 63)
    (clean : h.violations = .ok []) :
    ∃ spans, h.chain = .ok spans ∧ ∀ o, TagWord h.prologue spans o → ∀ w : UInt32,
      Block.tagAt h.memory o ≠ .ok ⟨w⟩ → ∃ h' found, setTag o ⟨w⟩ h = .ok () h' ∧
        h'.violations = .ok found ∧ found ≠ [] := by
  obtain ⟨front, inside⟩ := readable_of_violations clean
  obtain ⟨spans, files, stops, consistent⟩ := consistent_of_clean bounded clean
  have limit : (1 <<< 63 : Nat) ≤ offsetLimit := by decide
  refine ⟨spans, consistent.chain_eq (Nat.lt_of_lt_of_le bounded limit), ?_⟩
  rintro o ⟨x, member, word⟩ w different
  have within : o + 4 ≤ Memory.size h.memory := by
    rcases List.mem_cons.mp member with rfl | later
    · rw [Span.block_of, Span.tag_of, Tag.size_sentinel] at word
      omega
    · have := consistent.chained.tiles.within later
      omega
  have bounded' : Memory.size (h.damaged o w).memory < 1 <<< 63 :=
    size_damaged h o w ▸ bounded
  obtain ⟨found, ran⟩ : ∃ found, (h.damaged o w).violations = .ok found :=
    violations_defined bounded' front (size_damaged h o w ▸ inside)
  refine ⟨h.damaged o w, found, setTag_damaged within, ran, ?_⟩
  rintro rfl
  obtain ⟨spans', files', stops', intact⟩ := consistent_of_clean bounded' ran
  rcases List.mem_cons.mp member with rfl | later
  · rw [Span.block_of, Span.tag_of, Tag.size_sentinel] at word
    exact consistent.sentinel_damaged (by omega) different intact
  · rcases word with here | here
    · exact consistent.header_damaged later here different intact
    · exact consistent.footer_damaged later here different intact

/-- One block in use that takes up the whole heap. In its payload lie a footer and a header as of
two blocks of half its size. -/
def forged : Heap ByteArray where
  memory := ⟨#[0, 0, 0, 0, 9, 0, 0, 0, 9, 0, 0, 0, 33, 0, 0, 0, 0, 0, 0, 0, 0, 0, 0, 0, 17, 0, 0, 0,
    17, 0, 0, 0, 0, 0, 0, 0, 0, 0, 0, 0, 33, 0, 0, 0, 1, 0, 0, 0]⟩
  lists := .empty 8
  prologue := 8
  config := default
  journal := #[]

theorem forged_tag_found :
    Memory.size forged.memory < 1 <<< 63 ∧ forged.violations = .ok [] ∧
      TagWord forged.prologue [⟨16, ⟨33⟩⟩] 12 ∧ Block.tagAt forged.memory 12 ≠ .ok ⟨17⟩ ∧
      ∃ h' found, setTag 12 ⟨17⟩ forged = .ok () h' ∧ h'.violations = .ok found ∧ found ≠ [] := by
  have bounded : Memory.size forged.memory < 1 <<< 63 := by decide
  have clean : forged.violations = .ok [] := by decide +kernel
  have chain : forged.chain = .ok [⟨16, ⟨33⟩⟩] := by decide +kernel
  have different : Block.tagAt forged.memory 12 ≠ .ok ⟨17⟩ := by decide +kernel
  have word : TagWord forged.prologue [⟨16, ⟨33⟩⟩] 12 := ⟨⟨16, ⟨33⟩⟩, by simp, .inl rfl⟩
  obtain ⟨spans, walked, found⟩ := damaged_tag_found forged bounded clean
  rw [chain] at walked
  cases walked
  exact ⟨bounded, clean, word, different, found 12 word 17 different⟩

end Heap

end SegregatedFit
