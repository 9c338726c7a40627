import SegregatedFit.Proofs.Coalescing

namespace SegregatedFit

/-- What becomes of the block of `x` when `wanted` bytes of it are taken. -/
def taken (x : Span) (wanted : Nat) : Span :=
  .of x.block (if Block.minSize ≤ x.tag.size - wanted then wanted else x.tag.size) true

def leftover (x : Span) (wanted : Nat) : Span :=
  .of (x.block + wanted) (x.tag.size - wanted) false

theorem taken_of_left_over {x : Span} {wanted : Nat}
    (left_over : Block.minSize ≤ x.tag.size - wanted) : taken x wanted = .of x.block wanted true :=
  congrArg (Span.of x.block · true) (if_pos left_over)

theorem taken_of_whole {x : Span} {wanted : Nat}
    (whole : ¬Block.minSize ≤ x.tag.size - wanted) :
    taken x wanted = .of x.block x.tag.size true :=
  congrArg (Span.of x.block · true) (if_neg whole)

section Parts

variable {x : Span} {wanted : Nat}

theorem allocated_taken (divides : wanted % 8 = 0) (fits : wanted ≤ x.tag.size) :
    (taken x wanted).tag.allocated = true := by
  have limit := x.tag.size_le
  have whole := x.tag.size_mod
  unfold taken
  split
  · exact Tag.allocated_of true (by omega) divides
  · exact Tag.allocated_of true limit whole

theorem size_taken (divides : wanted % 8 = 0) (fits : wanted ≤ x.tag.size) :
    (taken x wanted).tag.size =
      if Block.minSize ≤ x.tag.size - wanted then wanted else x.tag.size := by
  have limit := x.tag.size_le
  have whole := x.tag.size_mod
  unfold taken
  split
  · exact Tag.size_of true (by omega) divides
  · exact Tag.size_of true limit whole

theorem size_taken_bounds (divides : wanted % 8 = 0) (fits : wanted ≤ x.tag.size) :
    wanted ≤ (taken x wanted).tag.size ∧ (taken x wanted).tag.size ≤ x.tag.size := by
  rw [size_taken divides fits]
  split <;> omega

theorem allocated_leftover (divides : wanted % 8 = 0) :
    (leftover x wanted).tag.allocated = false := by
  have limit := x.tag.size_le
  have whole := x.tag.size_mod
  exact Tag.allocated_of false (by omega) (by omega)

theorem size_leftover (divides : wanted % 8 = 0) :
    (leftover x wanted).tag.size = x.tag.size - wanted := by
  have limit := x.tag.size_le
  have whole := x.tag.size_mod
  exact Tag.size_of false (by omega) (by omega)

end Parts

namespace View

def split (v : View) (left : List Span) (x : Span) (right : List Span) (wanted : Nat) : View :=
  { v.unfile x with spans := left ++ taken x wanted :: leftover x wanted :: right }.note
    (.carved x.block wanted (leftover x wanted).block (x.tag.size - wanted))

def carve (v : View) (left : List Span) (x : Span) (right : List Span) (wanted : Nat) : View :=
  if Block.minSize ≤ x.tag.size - wanted then
    (v.split left x right wanted).coalesce (left ++ [taken x wanted]) (leftover x wanted) right
  else
    { v.unfile x with spans := left ++ taken x wanted :: right }.note
      (.taken x.block wanted x.tag.size)

@[simp] theorem ends_carve (v : View) (left : List Span) (x : Span) (right : List Span)
    (wanted : Nat) : (v.carve left x right wanted).ends = v.ends := by
  unfold carve
  split
  · exact ends_coalesce ..
  · rfl

end View

theorem apart_around {left right : List Span} {x y : Span}
    (apart : (left ++ x :: right).IsChain NoFreePair) (used : y.tag.allocated = true) :
    (left ++ y :: right).IsChain NoFreePair := by
  rw [List.isChain_append, List.isChain_cons] at apart ⊢
  obtain ⟨left_apart, ⟨_, right_apart⟩, _⟩ := apart
  refine ⟨left_apart, ⟨fun _ _ => .inl used, right_apart⟩, ?_⟩
  intro _ _ z first
  rw [List.head?_cons, Option.mem_some] at first
  exact .inr (first ▸ used)

namespace View.Settled

variable {v : View} {x : Span} {left right : List Span}

theorem alone (settled : v.Settled) (spans : v.spans = left ++ x :: right)
    (unused : x.tag.allocated = false) : freeLast left = none ∧ freeHead right = none := by
  have apart := settled.apart
  rw [spans, List.isChain_append, List.isChain_cons] at apart
  obtain ⟨_, ⟨behind, _⟩, before⟩ := apart
  constructor
  · apply freeLast_eq_none
    intro q last
    have pair := before q last x rfl
    unfold NoFreePair at pair
    simpa [unused] using pair
  · apply freeHead_eq_none
    intro q first
    have pair := behind q first
    unfold NoFreePair at pair
    simpa [unused] using pair

theorem rest_alone (settled : v.Settled) (spans : v.spans = left ++ x :: right)
    (unused : x.tag.allocated = false) (used : (taken x wanted).tag.allocated = true) :
    absorbed (left ++ [taken x wanted]) right = [] := by
  have last : freeLast (left ++ [taken x wanted]) = none := by
    rw [freeLast_append, used, if_pos rfl]
  rw [absorbed, last, (settled.alone spans unused).2]
  rfl

theorem unfile (settled : v.Settled) (spans : v.spans = left ++ x :: right)
    (nodup : (v.spans.map Span.block).Nodup) :
    ∀ y ∈ left ++ right, y.tag.allocated = false → y.block ∈ (v.unfile x).files y.cls := by
  intro y member unused
  have inside : y ∈ v.spans := spans ▸ mem_cons_of_around member
  exact View.mem_unfile_of_ne (Span.block_ne_of_nodup nodup spans member)
    (settled.filed y inside unused)

theorem take_whole (settled : v.Settled) (spans : v.spans = left ++ x :: right)
    (nodup : (v.spans.map Span.block).Nodup) (used : (taken x wanted).tag.allocated = true) :
    ({ v.unfile x with spans := left ++ taken x wanted :: right } : View).Settled := by
  refine ⟨apart_around (spans ▸ settled.apart) used, fun y inside free => ?_⟩
  have other : y ∉ [taken x wanted] := by
    intro here
    rw [List.mem_singleton.mp here, used] at free
    exact Bool.noConfusion free
  rw [List.append_cons] at inside
  exact settled.unfile spans nodup y (mem_around inside other) free

end View.Settled

namespace Heap

variable {M : Type} [Memory M] {h h' : Heap M} {v : View} {x : Span} {left right : List Span}
  {wanted : Nat}

section Parted

variable {m : M}

def parted (m : M) (x : Span) (wanted : Nat) : M :=
  Block.retag (Block.retag m x.block wanted (Tag.of wanted true)) (x.block + wanted)
    (x.tag.size - wanted) (Tag.of (x.tag.size - wanted) false)

@[simp] theorem size_parted : Memory.size (parted m x wanted) = Memory.size m := by
  simp [parted]

theorem byte_parted {i : Nat} (front : 4 ≤ x.block)
    (inside : x.block + x.tag.size ≤ Memory.size m) (room : 16 ≤ wanted)
    (divides : wanted % 8 = 0) (left_over : 16 ≤ x.tag.size - wanted)
    (first : ¬(Span.of x.block wanted true).InTags i) (second : ¬(leftover x wanted).InTags i) :
    Memory.byte (parted m x wanted) i = Memory.byte m i := by
  have fits := x.tag.size_le
  have x_divides := x.tag.size_mod
  calc
    Memory.byte (parted m x wanted) i =
        Memory.byte (Block.retag m x.block wanted (Tag.of wanted true)) i :=
      Span.byte_retag (by omega) (by simp; omega) (by omega) (by omega) (by omega) second
    _ = Memory.byte m i :=
      Span.byte_retag front (by omega) (by omega) (by omega) divides first

theorem written_parted (front : 4 ≤ x.block) (inside : x.block + x.tag.size ≤ Memory.size m)
    (room : 16 ≤ wanted) (divides : wanted % 8 = 0) (left_over : 16 ≤ x.tag.size - wanted) :
    (Span.of x.block wanted true).Written (parted m x wanted) ∧
      (leftover x wanted).Written (parted m x wanted) := by
  have fits := x.tag.size_le
  have x_divides := x.tag.size_mod
  have taken_size : (Tag.of wanted true).size = wanted := Tag.size_of true (by omega) divides
  have left_size : (leftover x wanted).tag.size = x.tag.size - wanted := size_leftover divides
  have first : (Span.of x.block wanted true).Written
      (Block.retag m x.block wanted (Tag.of wanted true)) :=
    Span.written_retag true front (by omega) (by omega) (by omega) divides
  constructor
  · apply first.of_same (by rw [Span.tag_of, taken_size]; omega) (by simp)
    intro i tagged
    -- the tags of the second part lie behind those of the first
    have apart : ¬(leftover x wanted).InTags i := by
      simp only [Span.InTags, Span.block_of, Span.tag_of, taken_size] at tagged
      simp only [Span.InTags, left_size]
      simp only [leftover, Span.block_of]
      omega
    exact Span.byte_retag (by omega) (by simp; omega) (by omega) (by omega) (by omega) apart
  · exact Span.written_retag false (by omega) (by simp; omega) (by omega) (by omega) (by omega)

theorem split_run (front : 4 ≤ x.block) (inside : x.block + x.tag.size ≤ Memory.size h.memory)
    (bounded : Memory.size h.memory < offsetLimit) (room : 16 ≤ wanted) (divides : wanted % 8 = 0)
    (left_over : 16 ≤ x.tag.size - wanted) (step : Block → HeapM M Unit) :
    (do
      setTags x.block wanted true
      let rest ← query (Block.next · x.block)
      setTags rest (x.tag.size - wanted) false
      step rest) h =
        step (leftover x wanted).block { h with memory := parted h.memory x wanted } := by
  have fits := x.tag.size_le
  have next : Block.next (Block.retag h.memory x.block wanted (Tag.of wanted true)) x.block =
      .ok (x.block + wanted) :=
    Block.next_retag true front (by omega) (by omega) (by omega) divides (by omega)
  rw [bind_of_ok (setTags_of_inside front (by omega) (by omega) (by omega) (by omega))]
  simp only [query_bind, next]
  rw [bind_of_ok (setTags_of_inside (by omega) (by omega) (by simp; omega) (by omega) (by omega))]
  rfl

end Parted

theorem split_tiles (divides : wanted % 8 = 0) (left_over : 16 ≤ x.tag.size - wanted)
    {low high : Nat} (tiles : Tiles low [x] high) :
    Tiles low [Span.of x.block wanted true, leftover x wanted] high := by
  have fits := x.tag.size_le
  have taken_size : (Tag.of wanted true).size = wanted := Tag.size_of true (by omega) divides
  have left_size : (leftover x wanted).tag.size = x.tag.size - wanted := size_leftover divides
  obtain ⟨here, stop⟩ := tiles
  have stop : low + x.tag.size = high := stop
  refine ⟨here, ?_, ?_⟩
  · rw [Span.tag_of, taken_size]
    simp only [leftover, Span.block_of]
    omega
  · rw [Span.tag_of, taken_size]
    simp only [left_size, Tiles]
    omega

theorem split_shows (shown : h.Shows v) (bounded : Memory.size h.memory < offsetLimit)
    (spans : v.spans = left ++ x :: right) (unused : x.tag.allocated = false)
    (unlisted : ∀ cls, x.block ∉ v.files cls)
    (room : 16 ≤ wanted) (divides : wanted % 8 = 0) (left_over : 16 ≤ x.tag.size - wanted) :
    ∃ h', (∀ step : Block → HeapM M Unit, (do
        setTags x.block wanted true
        let rest ← query (Block.next · x.block)
        setTags rest (x.tag.size - wanted) false
        step rest) h = step (leftover x wanted).block h') ∧
      h'.Shows { v with spans := left ++ taken x wanted :: leftover x wanted :: right } ∧
      h.Keeps h' (fun i => (taken x wanted).InTags i ∨ (leftover x wanted).InTags i) := by
  have bounds := shown.within (show x ∈ v.spans by simp [spans])
  have front : 4 ≤ x.block := by omega
  have fits := x.tag.size_le
  have taken_size : (Tag.of wanted true).size = wanted := Tag.size_of true (by omega) divides
  have left_size : (leftover x wanted).tag.size = x.tag.size - wanted := size_leftover divides
  have same := fun i => byte_parted (i := i) front bounds.2 room divides left_over
  have written := written_parted front bounds.2 room divides left_over
  rw [taken_of_left_over left_over]
  refine ⟨{ h with memory := parted h.memory x wanted }, ?_, ?_, ?_⟩
  · exact split_run front bounds.2 bounded room divides left_over
  · have regrouped : left ++ Span.of x.block wanted true :: leftover x wanted :: right =
        left ++ [Span.of x.block wanted true, leftover x wanted] ++ right := by simp
    rw [regrouped]
    have around : v.spans = left ++ [x] ++ right := by simp [spans]
    have avoided := shown.clear x (by simp [spans]) unused
    apply shown.retile around (by simpa using unlisted) (by simpa using avoided)
      (fun low high => split_tiles divides left_over) size_parted
    · intro i beyond
      have outside : ¬x.Covers i := beyond x (by simp)
      unfold Span.Covers at outside
      apply same i
      · simp only [Span.InTags, Span.block_of, Span.tag_of, taken_size]
        omega
      · simp only [Span.InTags, left_size]
        simp only [leftover, Span.block_of]
        omega
    · simpa using written
    · simpa [taken_size, left_size] using ⟨room, left_over⟩
  · refine ⟨size_parted, fun i outside => ?_, rfl, rfl, rfl⟩
    rw [not_or] at outside
    exact same i outside.1 outside.2

theorem Shows.loose_split (shown : h.Shows v) (settled : v.Settled)
    (spans : v.spans = left ++ x :: right) (room : 16 ≤ wanted)
    (left_over : 16 ≤ x.tag.size - wanted) (used : (taken x wanted).tag.allocated = true)
    (unused : (leftover x wanted).tag.allocated = false) :
    (v.split left x right wanted).Loose (left ++ [taken x wanted]) (leftover x wanted) right := by
  have member : x ∈ v.spans := by simp [spans]
  have apart := apart_around (spans ▸ settled.apart) used
  rw [List.append_cons] at apart
  constructor
  · simp [View.split, View.note]
  · exact unused
  · intro cls listed
    obtain ⟨y, other, same, _⟩ := shown.listed cls _ (View.mem_of_mem_unfile (x := x) listed)
    have same : y.block = x.block + wanted := same
    have := shown.chained.tiles.apart member other (by omega)
    have := shown.room y other
    omega
  · intro y inside free
    simp only [List.mem_append, List.mem_singleton] at inside
    refine settled.unfile spans shown.blocks_nodup y ?_ free
    rcases inside with (before | rfl) | behind
    · exact List.mem_append_left _ before
    · rw [used] at free
      exact absurd free (by decide)
    · exact List.mem_append_right _ behind
  · exact apart.left_of_append
  · exact apart.right_of_append

theorem Shows.linked_unfile (shown : h.Shows v) (spans : v.spans = left ++ x :: right)
    (listed : x.block ∈ v.files x.cls) {i : Nat} (linked : (v.unfile x).Linked i) :
    ∃ y ∈ left ++ right, y.tag.allocated = false ∧ y.InLink i := by
  obtain ⟨y, inside, free, stays, link⟩ := linked
  refine ⟨y, ?_, free, link⟩
  have different : y ≠ x := by
    rintro rfl
    exact shown.not_mem_unfile listed _ stays
  rw [show (v.unfile x).spans = left ++ x :: right from spans] at inside
  simp only [List.mem_append, List.mem_cons] at inside ⊢
  tauto

/-- What taking a block into use may change: the tags of that block, and what belongs to free ones.
-/
def Carved (spans : List Span) (y : Span) (i : Nat) : Prop := y.InTags i ∨ Marked spans i

theorem carve_split (shown : h.Shows v) (bounded : Memory.size h.memory < offsetLimit)
    (settled : v.Settled) (spans : v.spans = left ++ x :: right)
    (unused : x.tag.allocated = false) (room : 16 ≤ wanted) (divides : wanted % 8 = 0)
    (left_over : 16 ≤ x.tag.size - wanted) :
    ∃ h', carve x.block wanted h = .ok () h' ∧ h'.Shows (v.carve left x right wanted) ∧
      (v.carve left x right wanted).Settled ∧
      h.Keeps h' (Carved (v.carve left x right wanted).spans (taken x wanted)) ∧
      (v.carve left x right wanted).spans =
        left ++ taken x wanted :: leftover x wanted :: right ∧
      (leftover x wanted).tag.allocated = false := by
  have member : x ∈ v.spans := by simp [spans]
  have listed := settled.filed x member unused
  have size := Block.size_of_tag (shown.read member)
  have fits : wanted ≤ x.tag.size := by omega
  have used : (taken x wanted).tag.allocated = true := allocated_taken divides fits
  have free : (leftover x wanted).tag.allocated = false := allocated_leftover divides
  have loose := shown.loose_split settled spans room left_over used free
  obtain ⟨h₁, ran₁, shown₁, keeps₁⟩ := remove_shows shown bounded member listed
  have bounded₁ : Memory.size h₁.memory < offsetLimit := keeps₁.size ▸ bounded
  obtain ⟨h₂, ran₂, shown₂, keeps₂⟩ := split_shows shown₁ bounded₁ spans unused
    (shown.not_mem_unfile listed) room divides left_over
  obtain ⟨h₃, ran₃, shown₃, keeps₃⟩ := record_shows shown₂
    (.carved x.block wanted (leftover x wanted).block (x.tag.size - wanted))
  have shown₃ : h₃.Shows (v.split left x right wanted) := shown₃
  have bounded₃ : Memory.size h₃.memory < offsetLimit := by
    rw [keeps₃.size, keeps₂.size]
    exact bounded₁
  -- the rest has no free neighbour, so it is merged with nothing
  have alone := settled.rest_alone spans unused used
  have total : mergedSize (left ++ [taken x wanted]) (leftover x wanted) right ≤ Tag.maxSize :=
    mergedSize_alone alone ▸ Tag.size_le _
  obtain ⟨h₄, ran₄, shown₄, keeps₄⟩ := coalesce_shows shown₃ bounded₃ total loose
  have viewed : v.carve left x right wanted =
      (v.split left x right wanted).coalesce (left ++ [taken x wanted]) (leftover x wanted)
        right :=
    if_pos left_over
  have marks : (v.carve left x right wanted).spans =
      left ++ taken x wanted :: leftover x wanted :: right := by
    rw [viewed, loose.coalesce_spans_alone alone, ← List.append_cons]
  rw [viewed] at marks ⊢
  refine ⟨h₄, ?_, shown₄, shown₃.settled_coalesce loose, ?_, marks, free⟩
  · simp only [carve, query_bind, size, if_pos fits]
    rw [bind_of_ok ran₁, if_pos (show Block.minSize ≤ x.tag.size - wanted from left_over)]
    refine (ran₂ _).trans ?_
    rw [bind_of_ok ran₃]
    exact discard_of_ok ran₄
  · rw [marks] at keeps₄ ⊢
    refine (keeps₁.mono fun i linked => ?_).trans ((keeps₂.mono fun i tagged => ?_).trans
      ((keeps₃.mono fun _ => False.elim).trans (keeps₄.mono fun i marked => .inr marked)))
    · obtain ⟨y, other, free, link⟩ := shown.linked_unfile spans listed linked
      refine .inr ⟨y, ?_, free, .inr link⟩
      simp only [List.mem_append, List.mem_cons] at other ⊢
      tauto
    · rcases tagged with tagged | tagged
      · exact .inl tagged
      · exact .inr ⟨leftover x wanted, by simp, free, .inl tagged⟩

theorem carve_whole (shown : h.Shows v) (bounded : Memory.size h.memory < offsetLimit)
    (settled : v.Settled) (spans : v.spans = left ++ x :: right)
    (unused : x.tag.allocated = false) (divides : wanted % 8 = 0) (fits : wanted ≤ x.tag.size)
    (whole : ¬16 ≤ x.tag.size - wanted) :
    ∃ h', carve x.block wanted h = .ok () h' ∧ h'.Shows (v.carve left x right wanted) ∧
      (v.carve left x right wanted).Settled ∧
      h.Keeps h' (Carved (v.carve left x right wanted).spans (taken x wanted)) ∧
      (v.carve left x right wanted).spans = left ++ taken x wanted :: right := by
  have member : x ∈ v.spans := by simp [spans]
  have listed := settled.filed x member unused
  have size := Block.size_of_tag (shown.read member)
  have all_taken := taken_of_whole whole
  have used : (taken x wanted).tag.allocated = true := allocated_taken divides fits
  obtain ⟨h₁, ran₁, shown₁, keeps₁⟩ := remove_shows shown bounded member listed
  have around : (v.unfile x).spans = left ++ [x] ++ right := by simp [View.unfile, spans]
  have unlisted : ∀ z ∈ [x], ∀ cls, z.block ∉ (v.unfile x).files cls := by
    simpa using shown.not_mem_unfile listed
  have avoided : ∀ z ∈ [x], (v.unfile x).Avoids z := by
    simpa using shown₁.clear x member unused
  obtain ⟨h₂, ran₂, shown₂, keeps₂⟩ := setTags_shows true shown₁ (keeps₁.size ▸ bounded) around
    unlisted avoided (b := x.block) (n := x.tag.size) (by simp [Tiles]) (shown.room x member)
    x.tag.size_le x.tag.size_mod
  obtain ⟨h₃, ran₃, shown₃, keeps₃⟩ := record_shows shown₂ (.taken x.block wanted x.tag.size)
  have viewed : v.carve left x right wanted =
      { v.unfile x with spans := left ++ taken x wanted :: right }.note
        (.taken x.block wanted x.tag.size) :=
    if_neg whole
  rw [← all_taken] at shown₃ keeps₂
  have marks : (v.carve left x right wanted).spans = left ++ taken x wanted :: right := by
    rw [viewed]
    rfl
  have rest := settled.take_whole spans shown.blocks_nodup used
  refine ⟨h₃, ?_, viewed ▸ shown₃, viewed ▸ ⟨rest.apart, rest.filed⟩, ?_, marks⟩
  · simp only [carve, query_bind, size, if_pos fits]
    rw [bind_of_ok ran₁, if_neg (show ¬Block.minSize ≤ x.tag.size - wanted from whole),
      bind_of_ok ran₂, ran₃]
  · rw [marks]
    refine (keeps₁.mono fun i linked => ?_).trans ((keeps₂.mono fun i tagged => .inl tagged).trans
      (keeps₃.mono fun _ => False.elim))
    obtain ⟨y, other, free, link⟩ := shown.linked_unfile spans listed linked
    exact .inr ⟨y, mem_cons_of_around other, free, .inr link⟩

/-- A free block with enough room is taken into use. The blocks in use before keep their payloads.
-/
theorem carve_shows (shown : h.Shows v) (bounded : Memory.size h.memory < offsetLimit)
    (settled : v.Settled) (spans : v.spans = left ++ x :: right)
    (unused : x.tag.allocated = false) (room : 16 ≤ wanted) (divides : wanted % 8 = 0)
    (fits : wanted ≤ x.tag.size) :
    ∃ h', carve x.block wanted h = .ok () h' ∧ h'.Shows (v.carve left x right wanted) ∧
      (v.carve left x right wanted).Settled ∧
      (v.carve left x right wanted).used.Perm (taken x wanted :: v.used) ∧
      Memory.size h'.memory = Memory.size h.memory ∧ h.Spares h' v.used := by
  have used : (taken x wanted).tag.allocated = true := allocated_taken divides fits
  have spares : ∀ h', h'.Shows (v.carve left x right wanted) →
      h.Keeps h' (Carved (v.carve left x right wanted).spans (taken x wanted)) →
      (v.carve left x right wanted).used.Perm (taken x wanted :: v.used) →
      h.Spares h' v.used := by
    intro h' after keeps perm
    have here := View.mem_of_used (perm.mem_iff.mpr (List.mem_cons_self ..))
    apply keeps.spares
    · intro y kept i payload
      have there := perm.mem_iff.mpr (List.mem_cons_of_mem _ kept)
      rintro (tagged | marked)
      · exact after.chained.tiles.not_inTags after.room_eight (View.mem_of_used there) here
          payload tagged
      · exact after.not_marked there (Span.covers_of_payload payload) marked
    · rw [← keeps.prologue]
      rintro i (tagged | marked)
      · exact after.tags_behind here tagged
      · exact after.marked_behind marked
  by_cases left_over : 16 ≤ x.tag.size - wanted
  · obtain ⟨h', ran, shown', settled', keeps, spans', free⟩ :=
      carve_split shown bounded settled spans unused room divides left_over
    have perm : (v.carve left x right wanted).used.Perm (taken x wanted :: v.used) := by
      simp [View.used, spans, spans', used, unused, free, List.perm_middle]
    exact ⟨h', ran, shown', settled', perm, keeps.size, spares h' shown' keeps perm⟩
  · obtain ⟨h', ran, shown', settled', keeps, spans'⟩ :=
      carve_whole shown bounded settled spans unused divides fits left_over
    have perm : (v.carve left x right wanted).used.Perm (taken x wanted :: v.used) := by
      simp [View.used, spans, spans', used, unused, List.perm_middle]
    exact ⟨h', ran, shown', settled', perm, keeps.size, spares h' shown' keeps perm⟩

end Heap

end SegregatedFit
