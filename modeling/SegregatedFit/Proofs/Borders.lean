import SegregatedFit.Proofs.Regularity

namespace SegregatedFit

/-- The lists without the blocks of `gone`. -/
def without (files : SizeClass → List Nat) (gone : List Span) (cls : SizeClass) : List Nat :=
  (files cls).filter fun b => b ∉ gone.map Span.block

/-- The lists with the block of `x` in front of the list of its size. -/
def enlist (files : SizeClass → List Nat) (x : Span) : SizeClass → List Nat :=
  Function.update files x.cls (x.block :: files x.cls)

def totalSize (spans : List Span) : Nat := (spans.map fun x => x.tag.size).sum

section Lists

variable {files : SizeClass → List Nat} {x : Span}

theorem without_nil (files : SizeClass → List Nat) : without files [] = files := by
  funext cls
  simp [without]

theorem without_append (files : SizeClass → List Nat) (first second : List Span) :
    without (without files first) second = without files (first ++ second) := by
  funext cls
  simp only [without, List.filter_filter, List.map_append, List.mem_append]
  apply List.filter_congr
  intro b _
  simp [Bool.and_comm]

theorem update_erase (nodup : (files x.cls).Nodup)
    (only : ∀ cls, x.block ∈ files cls → cls = x.cls) :
    Function.update files x.cls ((files x.cls).erase x.block) = without files [x] := by
  funext cls
  by_cases same : cls = x.cls
  · subst same
    rw [Function.update_self, nodup.erase_eq_filter, without]
    apply List.filter_congr
    intro b _
    simp [bne, beq_eq_decide]
  · have absent : x.block ∉ files cls := fun listed => same (only cls listed)
    rw [Function.update_of_ne same, without, List.filter_eq_self.mpr]
    intro b listed
    have different : b ≠ x.block := fun here => absent (here ▸ listed)
    simpa using different

end Lists

namespace View

variable {v : View} {left right : List Span} {x : Span} {wanted : Nat}

theorem files_unfileAll {gone : List Span} (nodup : ∀ cls, (v.files cls).Nodup)
    (only : ∀ y ∈ gone, ∀ cls, y.block ∈ v.files cls → cls = y.cls) :
    (v.unfileAll gone).files = without v.files gone := by
  induction gone generalizing v with
  | nil => exact (without_nil v.files).symm
  | cons y gone ih =>
    have first : (v.unfile y).files = without v.files [y] :=
      update_erase (nodup y.cls) (only y (List.mem_cons_self ..))
    have rest : ((v.unfile y).unfileAll gone).files = without (v.unfile y).files gone := by
      apply ih
      · intro cls
        rw [first]
        exact (nodup cls).filter _
      · intro z member cls stays
        exact only z (List.mem_cons_of_mem _ member) cls (mem_of_mem_unfile stays)
    rw [first, without_append] at rest
    exact rest

theorem files_carve_split (last : freeLast (left ++ [taken x wanted]) = none)
    (head : freeHead right = none) (left_over : Block.minSize ≤ x.tag.size - wanted) :
    (v.carve left x right wanted).files = enlist (v.unfile x).files (leftover x wanted) := by
  simp only [View.carve, if_pos left_over, View.coalesce, coalesced, last, head]
  rfl

theorem files_carve_whole (whole : ¬Block.minSize ≤ x.tag.size - wanted) :
    (v.carve left x right wanted).files = (v.unfile x).files := by
  simp only [View.carve, if_neg whole]
  rfl

end View

namespace Heap

variable {M : Type} [Memory M] {h h' : Heap M} {v : View} {spans left right : List Span} {x : Span}
  {files : SizeClass → List Nat} {wanted : Nat}

/-- No byte of the blocks in use among `spans` has changed, be it in a tag or in a payload. -/
def Intact (h h' : Heap M) (spans : List Span) : Prop :=
  ∀ z ∈ spans, z.tag.allocated = true → ∀ i, z.Covers i →
    Memory.byte h'.memory i = Memory.byte h.memory i

namespace Shows

theorem cls_of_listed (shown : h.Shows v) (member : x ∈ v.spans) {cls : SizeClass}
    (listed : x.block ∈ v.files cls) : cls = x.cls := by
  obtain ⟨y, other, same, _, rfl⟩ := shown.listed cls x.block listed
  rw [shown.eq_of_block other member same]

theorem files_unfile (shown : h.Shows v) (member : x ∈ v.spans) :
    (v.unfile x).files = without v.files [x] :=
  update_erase (shown.filed.nodup _) fun _ => shown.cls_of_listed member

theorem files_coalesce (shown : h.Shows v) (loose : v.Loose left x right) :
    (v.coalesce left x right).files =
      enlist (without v.files (absorbed left right)) (coalesced left x right) := by
  have unlisted : (v.unfileAll (absorbed left right)).files =
      without v.files (absorbed left right) := by
    apply View.files_unfileAll shown.filed.nodup
    intro y gone cls
    exact shown.cls_of_listed (loose.absorbed_listed y gone).1
  rw [← unlisted, View.coalesce_eq loose.split]
  rfl

theorem not_carved (shown : h.Shows v) {y z : Span} (here : y ∈ v.spans) (member : z ∈ v.used)
    (different : z ≠ y) {i : Nat} (covers : z.Covers i) : ¬Carved v.spans y i := by
  rintro (tagged | marked)
  · have there := Span.covers_of_inTags (shown.room_eight y here) tagged
    exact different (shown.eq_of_covers (View.mem_of_used member) here covers there)
  · exact shown.not_marked member covers marked

end Shows

theorem Keeps.plain {changed : Nat → Prop} (keeps : h.Keeps h' changed)
    (same : v.ends = (h.plainView spans files).ends) :
    ∀ stop, v.ends stop → stop = h'.prologue := by
  intro stop ending
  rw [same] at ending
  rw [keeps.prologue]
  exact ending

namespace Arranged

theorem total {kept : List Span} (arranged : h.Arranged spans kept files) :
    h.prologue + 8 + totalSize spans = Memory.size h.memory :=
  arranged.chained.tiles.sum_sizes

theorem total_eq {kept kept' spans' : List Span} {files' : SizeClass → List Nat}
    {changed : Nat → Prop} (arranged : h.Arranged spans kept files)
    (keeps : h.Keeps h' changed) (arranged' : h'.Arranged spans' kept' files') :
    totalSize spans' = totalSize spans := by
  have before := arranged.total
  have after := arranged'.total
  rw [keeps.size, keeps.prologue] at after
  omega

theorem head_enlist {kept : List Span} (arranged : h.Arranged spans kept (enlist files x)) :
    h.lists.head x.cls = x.block := by
  have threaded := arranged.threaded x.cls
  rw [enlist, Function.update_self] at threaded
  exact threaded.1

end Arranged

namespace Unfiled

variable (unfiled : h.Unfiled left x right files)

include unfiled

theorem shows_plain : h.Shows (h.plainView (left ++ x :: right) files) :=
  unfiled.shows (fun _ => mem_cons_of_around) (by simp)

theorem coalesces (bounded : Memory.size h.memory < offsetLimit)
    (fits : mergedSize left x right ≤ Tag.maxSize) :
    ∃ h', coalesce x.block h = .ok (coalesced left x right).block h' ∧
      h'.Regular (restLeft left ++ coalesced left x right :: restRight right)
        (enlist (without files (absorbed left right)) (coalesced left x right)) ∧
      h.Intact h' (left ++ right) ∧
      h.Keeps h' (Marked (restLeft left ++ coalesced left x right :: restRight right)) := by
  have loose := unfiled.loose
  have shown := unfiled.shows_plain
  obtain ⟨h', ran, shown', keeps⟩ := coalesce_shows shown bounded fits loose
  have regular := shown'.regular (shown.settled_coalesce loose)
    (keeps.plain (View.ends_coalesce ..))
  have intact : h.Intact h' (left ++ right) := by
    intro z outer used i covers
    have kept : z ∈ (h.plainView (left ++ x :: right) files).used :=
      View.mem_used.mpr ⟨mem_cons_of_around outer, used⟩
    rw [← loose.used_coalesce fits] at kept
    exact keeps.byte i (shown'.not_marked kept covers)
  rw [loose.coalesce_spans, shown.files_coalesce loose] at regular
  rw [loose.coalesce_spans] at keeps
  exact ⟨h', ran, regular, intact, keeps⟩

theorem merged_fits (small : Memory.size h.memory ≤ Tag.maxSize) :
    mergedSize left x right ≤ Tag.maxSize :=
  unfiled.shows_plain.merged_fits small unfiled.loose

/-- In a heap that is no larger than a block may be every merge fits. -/
theorem merges (small : Memory.size h.memory ≤ Tag.maxSize) :
    ∃ h', coalesce x.block h = .ok (coalesced left x right).block h' ∧
      (coalesced left x right).tag.size = mergedSize left x right ∧
      h'.Regular (restLeft left ++ coalesced left x right :: restRight right)
        (enlist (without files (absorbed left right)) (coalesced left x right)) ∧
      h.Intact h' (left ++ right) ∧
      h.Keeps h' (Marked (restLeft left ++ coalesced left x right :: restRight right)) := by
  have fits := unfiled.merged_fits small
  have bounded := Nat.lt_of_le_of_lt small (by decide : Tag.maxSize < offsetLimit)
  obtain ⟨h', ran, regular, intact, keeps⟩ := unfiled.coalesces bounded fits
  exact ⟨h', ran, coalesced_size fits, regular, intact, keeps⟩

end Unfiled

/-- A free block that is on no list becomes one block with its free neighbours. It starts where the
first of them did, is as large as they are together, and heads the list of that size, while the
neighbours have left theirs. The heap is regular again, so there is no free block beside it. No
block, merged or not, may outgrow what a tag can say. -/
theorem coalesce_merges_run (unfiled : h.Unfiled left x right files)
    (bounded : Memory.size h.memory < offsetLimit)
    (fits : mergedSize left x right ≤ Tag.maxSize) :
    ∃ y h', coalesce x.block h = .ok y.block h' ∧
      left ++ x :: right = restLeft left ++ merged left x right ++ restRight right ∧
      (∀ z ∈ merged left x right, z.tag.allocated = false) ∧
      (merged left x right).head?.map Span.block = some y.block ∧
      y.tag.size = mergedSize left x right ∧ y.tag.allocated = false ∧
      h'.Regular (restLeft left ++ y :: restRight right)
        (enlist (without files (absorbed left right)) y) ∧
      h'.lists.head (SizeClass.ofSize (mergedSize left x right)) = y.block ∧
      h.Intact h' (left ++ right) ∧
      h.Keeps h' (Marked (restLeft left ++ y :: restRight right)) := by
  obtain ⟨h', ran, regular, intact, keeps⟩ := unfiled.coalesces bounded fits
  have size := coalesced_size fits
  have first := regular.head_enlist
  rw [Span.cls, size] at first
  exact ⟨coalesced left x right, h', ran, split_merged left x right, merged_free unfiled.unused,
    coalesced_first left x right, size, coalesced_free unfiled.unused fits, regular, first, intact,
    keeps⟩

theorem gaps_merged : ∃ (h : Heap Buffer) (files : SizeClass → List Nat),
    h.Unfiled [⟨16, ⟨40⟩⟩] (.of 56 16 false) [⟨72, ⟨64⟩⟩, ⟨136, ⟨17⟩⟩, ⟨152, ⟨200⟩⟩] files ∧
      Memory.size h.memory < offsetLimit ∧
      mergedSize [⟨16, ⟨40⟩⟩] (.of 56 16 false) [⟨72, ⟨64⟩⟩, ⟨136, ⟨17⟩⟩, ⟨152, ⟨200⟩⟩] ≤
        Tag.maxSize ∧
      ∃ y h', coalesce 56 h = .ok 16 h' ∧ y.block = 16 ∧ y.tag.size = 120 ∧
        h'.Regular [y, ⟨136, ⟨17⟩⟩, ⟨152, ⟨200⟩⟩]
          (enlist (without files [⟨72, ⟨64⟩⟩, ⟨16, ⟨40⟩⟩]) y) := by
  obtain ⟨s, files, regular, size⟩ := Session.gaps_regular
  have bounded : Memory.size s.heap.memory < offsetLimit := size ▸ by decide
  have around : s.heap.Regular ([⟨16, ⟨40⟩⟩] ++ ⟨56, ⟨17⟩⟩ ::
    [⟨72, ⟨64⟩⟩, ⟨136, ⟨17⟩⟩, ⟨152, ⟨200⟩⟩]) files := regular
  obtain ⟨h, _, unfiled, keeps⟩ := around.setTags_free bounded (by decide)
  have fits : mergedSize [⟨16, ⟨40⟩⟩] (.of 56 16 false)
      [⟨72, ⟨64⟩⟩, ⟨136, ⟨17⟩⟩, ⟨152, ⟨200⟩⟩] ≤ Tag.maxSize := by decide
  rw [← keeps.size] at bounded
  obtain ⟨y, h', ran, _, _, first, total, _, again, _⟩ :=
    coalesce_merges_run unfiled bounded fits
  have here : y.block = 16 := (Option.some.inj first).symm
  exact ⟨h, files, unfiled, bounded, fits, y, h', here ▸ ran, here, total, again⟩

section Carving

variable (regular : h.Regular (left ++ x :: right) files)
  (bounded : Memory.size h.memory < offsetLimit) (unused : x.tag.allocated = false)
  (divides : wanted % 8 = 0) (fits : wanted ≤ x.tag.size)

namespace Regular

include regular

theorem of_carved {v' : View} (parts : List Span) (shown' : h'.Shows v') (settled' : v'.Settled)
    (keeps : h.Keeps h' (Carved v'.spans (taken x wanted)))
    (ends : v'.ends = (h.plainView (left ++ x :: right) files).ends)
    (spans' : v'.spans = left ++ parts ++ right) (here : taken x wanted ∈ parts) :
    h'.Regular (left ++ parts ++ right) v'.files ∧ h.Intact h' (left ++ right) ∧
      h.Keeps h' (Carved (left ++ parts ++ right) (taken x wanted)) := by
  have again := shown'.regular settled' (keeps.plain ends)
  rw [spans'] at again
  constructor
  · exact again
  constructor
  · intro z outer used i covers
    have elsewhere : z.block ≠ x.block :=
      regular.chained.tiles.block_ne regular.room_pos outer
    have different : z ≠ taken x wanted := by
      rintro rfl
      exact elsewhere rfl
    have member : z ∈ v'.used := by
      apply View.mem_used.mpr
      rw [spans']
      exact ⟨mem_of_around parts outer, used⟩
    apply keeps.byte i
    apply shown'.not_carved _ member different covers
    rw [spans']
    simp [here]
  · rw [spans'] at keeps
    exact keeps

include bounded unused divides

theorem carve_splits (room : 16 ≤ wanted) (left_over : 16 ≤ x.tag.size - wanted) :
    ∃ h', carve x.block wanted h = .ok () h' ∧
      h'.Regular (left ++ taken x wanted :: leftover x wanted :: right)
        (enlist (without files [x]) (leftover x wanted)) ∧
      h.Intact h' (left ++ right) ∧
      h.Keeps h' (Carved (left ++ taken x wanted :: leftover x wanted :: right)
        (taken x wanted)) := by
  have member : x ∈ left ++ x :: right := by simp
  have shown := regular.shows (fun _ inside => inside) (List.ne_nil_of_mem member)
  have used : (taken x wanted).tag.allocated = true := allocated_taken divides (by omega)
  have last : freeLast (left ++ [taken x wanted]) = none := by
    rw [freeLast_append, used, if_pos rfl]
  have head := (regular.settled.alone rfl unused).2
  obtain ⟨h', ran, shown', settled', keeps, spans', _⟩ :=
    carve_split shown bounded regular.settled rfl unused room divides left_over
  have outcome := regular.of_carved [taken x wanted, leftover x wanted] shown' settled' keeps
    (View.ends_carve ..) (by simpa using spans') (by simp)
  rw [View.files_carve_split last head left_over, shown.files_unfile member] at outcome
  simp only [List.append_assoc, List.cons_append, List.nil_append] at outcome
  exact ⟨h', ran, outcome⟩

include fits

theorem carve_takes_all (whole : ¬16 ≤ x.tag.size - wanted) :
    ∃ h', carve x.block wanted h = .ok () h' ∧
      h'.Regular (left ++ taken x wanted :: right) (without files [x]) ∧
      h.Intact h' (left ++ right) ∧
      h.Keeps h' (Carved (left ++ taken x wanted :: right) (taken x wanted)) := by
  have member : x ∈ left ++ x :: right := by simp
  have shown := regular.shows (fun _ inside => inside) (List.ne_nil_of_mem member)
  obtain ⟨h', ran, shown', settled', keeps, spans'⟩ :=
    carve_whole shown bounded regular.settled rfl unused divides fits whole
  have outcome := regular.of_carved [taken x wanted] shown' settled' keeps
    (View.ends_carve ..) (by simpa using spans') (by simp)
  rw [View.files_carve_whole whole, shown.files_unfile member] at outcome
  simp only [List.append_assoc, List.singleton_append] at outcome
  exact ⟨h', ran, outcome⟩

end Regular

include regular bounded unused divides fits in
/-- The first bytes of a free block, as many as are wanted, become a block in use. What is left is
a free block of its own, at the head of the list of its size, if that makes sixteen bytes or more.
Otherwise the block is taken as it is, with eight bytes to spare at most. The blocks take up as
many bytes as before, and the others in use are intact. -/
theorem carve_exact (room : 16 ≤ wanted) :
    ∃ h', carve x.block wanted h = .ok () h' ∧
      (16 ≤ x.tag.size - wanted → ∃ y z : Span,
        y.block = x.block ∧ y.tag.size = wanted ∧ y.tag.allocated = true ∧
        z.block = x.block + wanted ∧ z.tag.size = x.tag.size - wanted ∧
        z.tag.allocated = false ∧
        h'.Regular (left ++ y :: z :: right) (enlist (without files [x]) z) ∧
        h'.lists.head (SizeClass.ofSize (x.tag.size - wanted)) = z.block ∧
        h.Keeps h' (Carved (left ++ y :: z :: right) y)) ∧
      (x.tag.size - wanted < 16 → ∃ y : Span,
        y.block = x.block ∧ y.tag.size = x.tag.size ∧ y.tag.allocated = true ∧
        (x.tag.size = wanted ∨ x.tag.size = wanted + 8) ∧
        h'.Regular (left ++ y :: right) (without files [x]) ∧
        h.Keeps h' (Carved (left ++ y :: right) y)) ∧
      (∀ spans' files', h'.Regular spans' files' →
        totalSize spans' = totalSize (left ++ x :: right)) ∧
      h.Intact h' (left ++ right) := by
  have used : (taken x wanted).tag.allocated = true := allocated_taken divides fits
  by_cases left_over : 16 ≤ x.tag.size - wanted
  · obtain ⟨h', ran, again, intact, keeps⟩ :=
      regular.carve_splits bounded unused divides room left_over
    have size : (taken x wanted).tag.size = wanted := by
      rw [size_taken divides fits]
      exact if_pos left_over
    have rest : (leftover x wanted).tag.size = x.tag.size - wanted := size_leftover divides
    have first := again.head_enlist
    rw [Span.cls, rest] at first
    refine ⟨h', ran, fun _ => ?_, fun small => absurd left_over (Nat.not_le.mpr small), ?_, intact⟩
    · exact ⟨taken x wanted, leftover x wanted, rfl, size, used, rfl, rest,
        allocated_leftover divides, again, first, keeps⟩
    · intro spans' files' other
      exact regular.total_eq keeps other.toArranged
  · obtain ⟨h', ran, again, intact, keeps⟩ :=
      regular.carve_takes_all bounded unused divides fits left_over
    have size : (taken x wanted).tag.size = x.tag.size := by
      rw [size_taken divides fits]
      exact if_neg left_over
    have sizes := x.tag.size_mod
    refine ⟨h', ran, fun large => absurd large left_over, fun _ => ?_, ?_, intact⟩
    · exact ⟨taken x wanted, rfl, size, used, by omega, again, keeps⟩
    · intro spans' files' other
      exact regular.total_eq keeps other.toArranged

end Carving

theorem gaps_carved : ∃ (s : Session Buffer) (files : SizeClass → List Nat),
    s.heap.Regular [⟨16, ⟨40⟩⟩, ⟨56, ⟨17⟩⟩, ⟨72, ⟨64⟩⟩, ⟨136, ⟨17⟩⟩, ⟨152, ⟨200⟩⟩] files ∧
      Memory.size s.heap.memory < offsetLimit ∧ (⟨64⟩ : Tag).allocated = false ∧
      (∃ (h' : Heap Buffer) (z : Span), carve 72 32 s.heap = .ok () h' ∧ z.block = 104 ∧
        z.tag.size = 32 ∧ z.tag.allocated = false ∧
        h'.lists.head (SizeClass.ofSize 32) = 104) ∧
      ∃ (h' : Heap Buffer) (y : Span), carve 72 56 s.heap = .ok () h' ∧ y.block = 72 ∧
        y.tag.size = 64 ∧ y.tag.allocated = true ∧ h'.Regular [⟨16, ⟨40⟩⟩, ⟨56, ⟨17⟩⟩, y, ⟨136, ⟨17⟩⟩,
          ⟨152, ⟨200⟩⟩] (without files [⟨72, ⟨64⟩⟩]) := by
  obtain ⟨s, files, regular, size⟩ := Session.gaps_regular
  have bounded : Memory.size s.heap.memory < offsetLimit := size ▸ by decide
  have around : s.heap.Regular ([⟨16, ⟨40⟩⟩, ⟨56, ⟨17⟩⟩] ++ ⟨72, ⟨64⟩⟩ ::
    [⟨136, ⟨17⟩⟩, ⟨152, ⟨200⟩⟩]) files := regular
  obtain ⟨h₁, ran₁, split, _⟩ :=
    carve_exact around bounded (by decide) (show 32 % 8 = 0 by decide) (by decide) (by decide)
  obtain ⟨_, z, _, _, _, here, rest, free, _, first, _⟩ := split (by decide)
  obtain ⟨h₂, ran₂, _, whole, _⟩ :=
    carve_exact around bounded (by decide) (show 56 % 8 = 0 by decide) (by decide) (by decide)
  obtain ⟨y, there, kept, used, _, again, _⟩ := whole (by decide)
  refine ⟨s, files, regular, bounded, by decide, ⟨h₁, z, ran₁, here, rest, free, ?_⟩, ?_⟩
  · exact first.trans here
  · exact ⟨h₂, y, ran₂, there, kept, used, again⟩

end Heap

namespace Session

/-- No session makes a heap too large for its blocks to merge. -/
theorem Reached.merges {A : Type} [Arena A] {s : Session A} {left right : List Span} {x : Span}
    (reached : Reached s) (walked : s.heap.chain = .ok (left ++ x :: right))
    (used : x.tag.allocated = true) :
    ∃ files h₁ h', Heap.setTags x.block x.tag.size false s.heap = .ok () h₁ ∧
      Heap.coalesce x.block h₁ =
        .ok (coalesced left (.of x.block x.tag.size false) right).block h' ∧
      h'.Regular
        (restLeft left ++ coalesced left (.of x.block x.tag.size false) right :: restRight right)
        (enlist (without files (absorbed left right))
          (coalesced left (.of x.block x.tag.size false) right)) := by
  obtain ⟨files, regular⟩ := reached.regular walked
  obtain ⟨v, kept⟩ := reached.kept
  obtain ⟨h₁, freed, unfiled, keeps⟩ := regular.setTags_free kept.sound.bounded used
  obtain ⟨h', ran, _, again, _⟩ := unfiled.merges (keeps.size ▸ kept.sound.small)
  exact ⟨files, h₁, h', freed, ran, again⟩

end Session

end SegregatedFit
