import SegregatedFit.Proofs.Steps

namespace SegregatedFit

namespace Tag

def of (size : Nat) (allocated : Bool) : Tag :=
  ⟨UInt32.ofNat (if allocated then size / 2 * 2 + 1 else size)⟩

variable {size : Nat}

theorem pack_eq_of (allocated : Bool) (small : size ≤ maxSize) :
    pack size allocated = .ok (of size allocated) :=
  if_pos small

theorem size_of (allocated : Bool) (small : size ≤ maxSize) (aligned : size % 8 = 0) :
    (of size allocated).size = size := by
  obtain ⟨t, packed, same, _⟩ := pack_of_le allocated small aligned
  rw [pack_eq_of allocated small] at packed
  cases packed
  exact same

theorem allocated_of (allocated : Bool) (small : size ≤ maxSize) (aligned : size % 8 = 0) :
    (of size allocated).allocated = allocated := by
  obtain ⟨t, packed, _, same⟩ := pack_of_le allocated small aligned
  rw [pack_eq_of allocated small] at packed
  cases packed
  exact same

theorem size_sentinel : (of 8 true).size = 8 := by decide

theorem allocated_sentinel : (of 8 true).allocated = true := by decide

end Tag

def Span.of (b n : Nat) (allocated : Bool) : Span := ⟨b, Tag.of n allocated⟩

@[simp] theorem Span.block_of (b n : Nat) (allocated : Bool) : (Span.of b n allocated).block = b :=
  rfl

@[simp] theorem Span.tag_of (b n : Nat) (allocated : Bool) :
    (Span.of b n allocated).tag = Tag.of n allocated :=
  rfl

def Span.Covers (x : Span) (i : Nat) : Prop := x.block ≤ i + 4 ∧ i + 4 < x.block + x.tag.size

def Span.Payload (x : Span) (i : Nat) : Prop := x.block ≤ i ∧ i + 8 < x.block + x.tag.size

def Span.InTags (x : Span) (i : Nat) : Prop :=
  x.block ≤ i + 4 ∧ i < x.block ∨ x.block + x.tag.size ≤ i + 8 ∧ i + 4 < x.block + x.tag.size

def Span.InLink (x : Span) (i : Nat) : Prop := x.block ≤ i ∧ i < x.block + 8

namespace Span

variable {x : Span} {i : Nat}

theorem covers_of_payload (payload : x.Payload i) : x.Covers i := by
  unfold Payload at payload
  unfold Covers
  omega

theorem covers_of_inTags (room : 8 ≤ x.tag.size) (tagged : x.InTags i) : x.Covers i := by
  unfold InTags at tagged
  unfold Covers
  omega

theorem covers_of_inLink (room : 16 ≤ x.tag.size) (link : x.InLink i) : x.Covers i := by
  unfold InLink at link
  unfold Covers
  omega

end Span

namespace Block

variable {M : Type} [Memory M] {m m' : M} {b c o : Nat} {t : Tag}

theorem tagAt_eq_ok : tagAt m o = .ok t ↔
    o + 4 ≤ Memory.size m ∧ (⟨UInt32.ofNat (Memory.readNat m o 4)⟩ : Tag) = t := by
  unfold tagAt Memory.word Memory.ensure
  by_cases inside : o + 4 ≤ Memory.size m
  · simp [inside, bind, Except.bind, pure, Except.pure]
  · simp [inside, bind, Except.bind]

theorem tag_eq_ok : tag m b = .ok t ↔ 4 ≤ b ∧ tagAt m (b - 4) = .ok t := by
  unfold tag headerOffset minus Tag.bytes
  by_cases front : 4 ≤ b
  · simp [front, bind, Except.bind]
  · simp [front, bind, Except.bind]

theorem link_eq_ok : link m b = .ok c ↔
    b + 8 ≤ Memory.size m ∧ Memory.readNat m b 8 = c := by
  unfold link Memory.ensure linkBytes
  by_cases inside : b + 8 ≤ Memory.size m
  · simp [inside, bind, Except.bind, pure, Except.pure]
  · simp [inside, bind, Except.bind]

theorem tag_inside (read : tag m b = .ok t) : 4 ≤ b ∧ b ≤ Memory.size m := by
  obtain ⟨front, word⟩ := tag_eq_ok.mp read
  have := (tagAt_eq_ok.mp word).1
  omega

theorem tagAt_defined (inside : o + 4 ≤ Memory.size m) : ∃ t, tagAt m o = .ok t :=
  ⟨_, tagAt_eq_ok.mpr ⟨inside, rfl⟩⟩

theorem tag_defined (front : 4 ≤ b) (inside : b ≤ Memory.size m) : ∃ t, tag m b = .ok t := by
  obtain ⟨t, read⟩ := tagAt_defined (m := m) (show b - 4 + 4 ≤ Memory.size m by omega)
  exact ⟨t, tag_eq_ok.mpr ⟨front, read⟩⟩

theorem link_defined (inside : b + 8 ≤ Memory.size m) : ∃ next, link m b = .ok next :=
  ⟨_, link_eq_ok.mpr ⟨inside, rfl⟩⟩

theorem size_of_tag (read : tag m b = .ok t) : size m b = .ok t.size := by
  simp only [size, read]
  rfl

theorem allocated_of_tag (read : tag m b = .ok t) : allocated m b = .ok t.allocated := by
  simp only [allocated, read]
  rfl

theorem next_of_tag (read : tag m b = .ok t) (small : b + t.size < offsetLimit) :
    next m b = .ok (b + t.size) := by
  simp only [next, size_of_tag read]
  exact plus_of_lt small

theorem footerOffset_of_lt {n : Nat} (room : 8 ≤ b + n) (small : b + n < offsetLimit) :
    footerOffset b n = .ok (b + n - 8) := by
  simp only [footerOffset, plus_of_lt small, bind, Except.bind]
  exact minus_of_le room

theorem footer_of_tag (read : tag m b = .ok t) (room : 8 ≤ t.size)
    (small : b + t.size < offsetLimit) : footer m b = .ok (b + t.size - 8) := by
  simp only [footer, size_of_tag read]
  exact footerOffset_of_lt (by omega) small

/-- The size of a block, zero if it cannot be read. -/
def sizeAt (m : M) (b : Nat) : Nat :=
  match tag m b with
  | .ok t => t.size
  | .error _ => 0

theorem sizeAt_eq (read : tag m b = .ok t) : sizeAt m b = t.size := by
  simp only [sizeAt, read]

theorem payloadSize_of_tag (read : tag m b = .ok t) (room : 8 ≤ t.size) :
    payloadSize m b = .ok (t.size - 8) := by
  simp only [payloadSize, size_of_tag read]
  exact minus_of_le room

theorem prev_of_tagAt (front : 8 ≤ b) (read : tagAt m (b - 8) = .ok t) (room : t.size ≤ b) :
    prev m b = .ok (b - t.size) := by
  simp only [prev, overhead, minus_of_le front, bind, Except.bind, read]
  exact minus_of_le room

theorem tagAt_of_same (same_size : Memory.size m ≤ Memory.size m')
    (same : ∀ i, o ≤ i → i < o + 4 → Memory.byte m' i = Memory.byte m i)
    (read : tagAt m o = .ok t) : tagAt m' o = .ok t := by
  rw [tagAt_eq_ok] at read ⊢
  rw [Memory.readNat_congr o 4 same]
  exact ⟨by omega, read.2⟩

theorem tagAt_congr (same_size : Memory.size m' = Memory.size m)
    (same : ∀ i, o ≤ i → i < o + 4 → Memory.byte m' i = Memory.byte m i) :
    tagAt m' o = tagAt m o := by
  simp only [tagAt, Memory.word, Memory.ensure, same_size, Memory.readNat_congr o 4 same]

theorem tag_congr (same_size : Memory.size m' = Memory.size m)
    (same : ∀ i, b ≤ i + 4 → i < b → Memory.byte m' i = Memory.byte m i) :
    tag m' b = tag m b := by
  by_cases front : 4 ≤ b
  · have header : headerOffset b = .ok (b - 4) := minus_of_le front
    simp only [tag, header, bind, Except.bind]
    exact tagAt_congr same_size fun i low high => same i (by omega) (by omega)
  · simp [tag, headerOffset, minus, Tag.bytes, front, bind, Except.bind]

theorem tag_of_same (same_size : Memory.size m ≤ Memory.size m')
    (same : ∀ i, b ≤ i + 4 → i < b → Memory.byte m' i = Memory.byte m i)
    (read : tag m b = .ok t) : tag m' b = .ok t := by
  obtain ⟨front, word⟩ := tag_eq_ok.mp read
  refine tag_eq_ok.mpr ⟨front, tagAt_of_same same_size ?_ word⟩
  intro i low high
  exact same i (by omega) (by omega)

theorem link_of_same (same_size : Memory.size m ≤ Memory.size m')
    (same : ∀ i, b ≤ i → i < b + 8 → Memory.byte m' i = Memory.byte m i)
    (read : link m b = .ok c) : link m' b = .ok c := by
  rw [link_eq_ok] at read ⊢
  rw [Memory.readNat_congr b 8 same]
  exact ⟨by omega, read.2⟩

theorem link_congr (same_size : Memory.size m' = Memory.size m)
    (same : ∀ i, b ≤ i → i < b + 8 → Memory.byte m' i = Memory.byte m i) :
    link m' b = link m b := by
  simp only [link, Memory.ensure, linkBytes, same_size, Memory.readNat_congr b 8 same]
  rfl

theorem tagAt_written (inside : o + 4 ≤ Memory.size m) :
    tagAt (Memory.writeNat m o 4 t.word.toNat) o = .ok t := by
  have fits : t.word.toNat < 1 <<< 32 := t.word.toNat_lt
  rw [tagAt_eq_ok, Memory.readNat_writeNat m o 4 _ inside fits]
  exact ⟨by simpa using inside, by simp⟩

theorem link_written (inside : b + 8 ≤ Memory.size m) (small : c < offsetLimit) :
    link (Memory.writeNat m b 8 c) b = .ok c := by
  rw [link_eq_ok, Memory.readNat_writeNat m b 8 c inside small]
  exact ⟨by simpa using inside, rfl⟩

def retag (m : M) (b n : Nat) (t : Tag) : M :=
  Memory.writeNat (Memory.writeNat m (b - 4) 4 t.word.toNat) (b + n - 8) 4 t.word.toNat

@[simp] theorem size_retag (n : Nat) : Memory.size (retag m b n t) = Memory.size m := by
  simp [retag]

variable {n : Nat}

theorem byte_retag (front : 4 ≤ b) (inside : b + n ≤ Memory.size m + 4) (room : 8 ≤ n) {i : Nat}
    (outside : ¬(b ≤ i + 4 ∧ i < b) ∧ ¬(b + n ≤ i + 8 ∧ i + 4 < b + n)) :
    Memory.byte (retag m b n t) i = Memory.byte m i := by
  rw [retag, Memory.byte_writeNat_outside _ _ _ _ _ (by simp; omega) (by omega),
    Memory.byte_writeNat_outside _ _ _ _ _ (by omega) (by omega)]

theorem tag_retag (front : 4 ≤ b) (inside : b + n ≤ Memory.size m + 4) (room : 8 ≤ n) :
    tag (retag m b n t) b = .ok t := by
  refine tag_eq_ok.mpr ⟨front, tagAt_of_same (by simp [retag]) ?_ (tagAt_written (m := m) ?_)⟩
  · intro i low high
    exact Memory.byte_writeNat_outside _ _ _ _ _ (by simp; omega) (by omega)
  · omega

theorem footer_retag (front : 4 ≤ b) (inside : b + n ≤ Memory.size m + 4) (room : 8 ≤ n) :
    tagAt (retag m b n t) (b + n - 8) = .ok t :=
  tagAt_written (by simp; omega)

end Block

/-- Header and footer of the block of a span both hold the tag of the span. -/
structure Span.Written {M : Type} [Memory M] (m : M) (x : Span) : Prop where
  header : Block.tag m x.block = .ok x.tag
  footer : Block.tagAt m (x.block + x.tag.size - 8) = .ok x.tag

theorem Span.Written.of_same {M : Type} [Memory M] {m m' : M} {x : Span} (room : 8 ≤ x.tag.size)
    (same_size : Memory.size m ≤ Memory.size m')
    (same : ∀ i, x.InTags i → Memory.byte m' i = Memory.byte m i) (written : x.Written m) :
    x.Written m' where
  header := Block.tag_of_same same_size (fun i low high => same i (.inl ⟨low, high⟩)) written.header
  footer := by
    refine Block.tagAt_of_same same_size (fun i low high => same i (.inr ?_)) written.footer
    have := (Block.tag_inside written.header).1
    omega

theorem Span.Written.next_eq {M : Type} [Memory M] {m : M} {x : Span} (written : x.Written m)
    (small : x.block + x.tag.size < offsetLimit) :
    Block.next m x.block = .ok (x.block + x.tag.size) :=
  Block.next_of_tag written.header small

theorem Span.Written.prev_eq {M : Type} [Memory M] {m : M} {x : Span} (written : x.Written m)
    (room : 8 ≤ x.tag.size) : Block.prev m (x.block + x.tag.size) = .ok x.block := by
  rw [Block.prev_of_tagAt (by omega) written.footer (by omega), Nat.add_sub_cancel]

section Determined

variable {M : Type} [Memory M] {m m' : M} {start n o b c : Nat} {t : Tag} {x : Span}

theorem Memory.byte_eq_of_readNat (same : readNat m start n = readNat m' start n) :
    ∀ i, start ≤ i → i < start + n → byte m i = byte m' i := by
  induction n generalizing start with
  | zero => intro i first last; omega
  | succ n ih =>
    have low := (byte m start).toNat_lt
    have low' := (byte m' start).toNat_lt
    rw [readNat, readNat] at same
    have rest : readNat m (start + 1) n = readNat m' (start + 1) n := by omega
    intro i first last
    by_cases here : i = start
    · rw [here]
      exact UInt8.toNat_inj.mp (by omega)
    · exact ih rest i (by omega) (by omega)

theorem Block.byte_eq_of_tagAt (read : tagAt m o = .ok t) (read' : tagAt m' o = .ok t) :
    ∀ i, o ≤ i → i < o + 4 → Memory.byte m i = Memory.byte m' i := by
  obtain ⟨_, word⟩ := tagAt_eq_ok.mp read
  obtain ⟨_, word'⟩ := tagAt_eq_ok.mp read'
  have same := congrArg (fun u : Tag => u.word.toNat) (word.trans word'.symm)
  have small : Memory.readNat m o 4 < 1 <<< 32 := Memory.readNat_lt m o 4
  have small' : Memory.readNat m' o 4 < 1 <<< 32 := Memory.readNat_lt m' o 4
  apply Memory.byte_eq_of_readNat
  simpa only [UInt32.toNat_ofNat_of_lt' small, UInt32.toNat_ofNat_of_lt' small'] using same

theorem Block.byte_eq_of_link (read : link m b = .ok c) (read' : link m' b = .ok c) :
    ∀ i, b ≤ i → i < b + 8 → Memory.byte m i = Memory.byte m' i := by
  obtain ⟨_, number⟩ := link_eq_ok.mp read
  obtain ⟨_, number'⟩ := link_eq_ok.mp read'
  exact Memory.byte_eq_of_readNat (number.trans number'.symm)

theorem Span.Written.byte_eq (room : 8 ≤ x.tag.size) (written : x.Written m)
    (written' : x.Written m') {i : Nat} (tagged : x.InTags i) :
    Memory.byte m i = Memory.byte m' i := by
  obtain ⟨front, header⟩ := Block.tag_eq_ok.mp written.header
  obtain ⟨_, header'⟩ := Block.tag_eq_ok.mp written'.header
  rcases tagged with ⟨first, last⟩ | ⟨first, last⟩
  · exact Block.byte_eq_of_tagAt header header' i (by omega) (by omega)
  · exact Block.byte_eq_of_tagAt written.footer written'.footer i (by omega) (by omega)

end Determined

section Retagged

variable {M : Type} [Memory M] {m : M} {b n : Nat}

theorem Span.written_retag (allocated : Bool) (front : 4 ≤ b) (inside : b + n ≤ Memory.size m + 4)
    (room : 8 ≤ n) (fits : n ≤ Tag.maxSize) (divides : n % 8 = 0) :
    (Span.of b n allocated).Written (Block.retag m b n (Tag.of n allocated)) where
  header := Block.tag_retag front inside room
  footer := by
    rw [Span.block_of, Span.tag_of, Tag.size_of allocated fits divides]
    exact Block.footer_retag front inside room

theorem Block.next_retag (allocated : Bool) (front : 4 ≤ b) (inside : b + n ≤ Memory.size m + 4)
    (room : 8 ≤ n) (fits : n ≤ Tag.maxSize) (divides : n % 8 = 0) (small : b + n < offsetLimit) :
    next (retag m b n (Tag.of n allocated)) b = .ok (b + n) := by
  have forwards := (Span.written_retag allocated front inside room fits divides).next_eq
  rw [Span.block_of, Span.tag_of, Tag.size_of allocated fits divides] at forwards
  exact forwards small

theorem Span.byte_retag {allocated : Bool} {i : Nat} (front : 4 ≤ b)
    (inside : b + n ≤ Memory.size m + 4) (room : 8 ≤ n) (fits : n ≤ Tag.maxSize)
    (divides : n % 8 = 0) (outside : ¬(Span.of b n allocated).InTags i) :
    Memory.byte (Block.retag m b n (Tag.of n allocated)) i = Memory.byte m i := by
  unfold Span.InTags at outside
  rw [Span.block_of, Span.tag_of, Tag.size_of allocated fits divides] at outside
  exact Block.byte_retag front inside room (by omega)

end Retagged

theorem Heap.setTags_of_inside {M : Type} [Memory M] {h : Heap M} {b n : Nat}
    {allocated : Bool} (front : 4 ≤ b) (room : 8 ≤ n) (inside : b + n ≤ Memory.size h.memory + 4)
    (small : n ≤ Tag.maxSize) (bounded : b + n < offsetLimit) :
    Heap.setTags b n allocated h =
      .ok () { h with memory := Block.retag h.memory b n (Tag.of n allocated) } := by
  have footer := Block.footerOffset_of_lt (show 8 ≤ b + n by omega) bounded
  simp only [Heap.setTags, lift_bind, Tag.pack_eq_of allocated small, Block.headerOffset,
    minus_of_le front, Tag.bytes, Heap.setTag, footer]
  rw [bind_of_ok (setNat_of_inside (by omega)), lift_bind]
  exact setNat_of_inside (by simp; omega)

theorem Heap.setLink_of_inside {M : Type} [Memory M] {h : Heap M} {b next : Nat}
    (inside : b + 8 ≤ Memory.size h.memory) :
    Heap.setLink b next h = .ok () { h with memory := Memory.writeNat h.memory b 8 next } :=
  Heap.setNat_of_inside inside

end SegregatedFit
