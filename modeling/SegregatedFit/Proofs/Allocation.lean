import Mathlib.Order.Bounds.Basic
import SegregatedFit.Proofs.Failures

namespace SegregatedFit

theorem SizeClass.mem_drop {cls : SizeClass} {k : Nat} (from_here : k ≤ cls) :
    cls ∈ all.drop k := by
  refine List.mem_drop_iff_getElem.mpr ⟨cls - k, ?_, ?_⟩
  · simp only [all, List.length_finRange]
    omega
  · simp only [all, List.getElem_finRange]
    exact Fin.ext (by simp; omega)

theorem isLeast_blockSize (size : Nat) :
    IsLeast {n | n % 8 = 0 ∧ 16 ≤ n ∧ size + 8 ≤ n} (blockSize size) := by
  obtain ⟨room, divides, enough⟩ := blockSize_spec size
  refine ⟨⟨divides, room, enough⟩, ?_⟩
  rintro n ⟨divides, room, enough⟩
  unfold blockSize
  omega

theorem blockSize_le_iff {size : Nat} :
    blockSize size ≤ Tag.maxSize ↔ (size + 15) / 8 * 8 ≤ Tag.maxSize := by
  have : 16 ≤ Tag.maxSize := by decide
  unfold blockSize
  omega

namespace Arena

variable {A : Type} [Arena A]

structure Counter (A : Type) [Arena A] where
  count : A → Nat
  count_update : ∀ a start n value, count (Memory.update a start n value) = count a
  count_extend : ∀ a n, admits a n = .ok true → count (extend a n) = count a + 1

theorem Grown.count_eq {a b : A} {sizes : List Nat} (counter : Counter A)
    (grown : Grown a sizes b) : counter.count b = counter.count a + sizes.length := by
  induction grown with
  | refl => rfl
  | write start count value _ ih => rw [counter.count_update, ih]
  | extend _ admitted ih =>
    rw [counter.count_extend _ _ admitted, ih, List.length_append, List.length_singleton,
      Nat.add_assoc]

end Arena

def Reservation.counter : Arena.Counter Reservation where
  count := extensions
  count_update r start n value := by
    change (r.update start n value).extensions = r.extensions
    unfold update
    split <;> rfl
  count_extend r n admitted := by
    have room : r.brk + n ≤ r.capacity := by
      simp [Arena.admits, admits] at admitted
      exact admitted.2
    change (r.extend n).extensions = r.extensions + 1
    unfold extend
    rw [dif_pos room]

namespace Heap

section Growing

variable {A : Type} [Arena A] {h h' : Heap A} {v : View} {size wanted : Nat}

/-- The arena of the heap grew by `sizes`: so many bytes, so many times. -/
structure Grows (h h' : Heap A) (sizes : List Nat) : Prop where
  traced : h.Traced h' sizes
  size : Memory.size h'.memory = Memory.size h.memory + sizes.sum
  times : ∀ counter : Arena.Counter A,
    counter.count h'.memory = counter.count h.memory + sizes.length

theorem Traced.grows {sizes : List Nat} (traced : h.Traced h' sizes) : h.Grows h' sizes where
  traced := traced
  size := traced.size_eq
  times counter := traced.grown.count_eq counter

theorem Sound.fit_eq_none (sound : h.Sound v) :
    v.fit wanted = none ↔ ∀ x ∈ v.spans, x.tag.allocated = false → x.tag.size < wanted := by
  have shown := sound.shown
  constructor
  · intro nothing x member unused
    by_contra large
    have later : SizeClass.ofSize wanted ≤ x.cls := SizeClass.ofSize_mono (by omega)
    have searched := List.find?_eq_none.mp nothing x.block
      (List.mem_flatMap.mpr ⟨x.cls, SizeClass.mem_drop later, sound.settled.filed x member unused⟩)
    rw [View.sizeOf_eq shown.blocks_nodup member] at searched
    exact searched (by simpa using large)
  · intro small
    cases fit : v.fit wanted with
    | none => rfl
    | some b =>
      obtain ⟨x, member, _, unused, large⟩ := shown.fit_spec fit
      exact absurd (small x member unused) (by omega)

theorem allocate_of_searched {found : Option Block} (fits : blockSize size ≤ Tag.maxSize)
    (searched : firstFit (blockSize size) h = .ok found h) :
    allocate size h = ((match found with
      | some b => pure (.ok b)
      | none => grow (max (blockSize size) h.config.chunkSize)) >>=
        handOut size (blockSize size) : HeapM A (Except HeapError Block)) h := by
  have needed := blockSizeFor_eq size
  rw [if_pos (blockSize_le_iff.mp fits)] at needed
  simp only [allocate, lift_bind, needed, get_bind]
  rw [bind_of_ok searched]
  cases found <;> rfl

theorem Sound.allocate_eq (sound : h.Sound v) (fits : blockSize size ≤ Tag.maxSize) :
    allocate size h = ((match v.fit (blockSize size) with
      | some b => pure (.ok b)
      | none => grow (max (blockSize size) h.config.chunkSize)) >>=
        handOut size (blockSize size) : HeapM A (Except HeapError Block)) h :=
  allocate_of_searched fits (firstFit_shows sound.shown fits)

end Growing

section Deciding

variable {A : Type} [BoundedArena A] {h h' : Heap A} {v : View} {size : Nat}

/-- What an allocation of `size` bytes comes to if that takes a block of `needed` bytes, the chain
has the blocks of `spans`, and the arena has room for `limit` bytes. -/
def Decides (h h' : Heap A) (spans : List Span) (limit size needed : Nat)
    (answer : Except HeapError Block) : Prop :=
  let growth := max needed h.config.chunkSize
  if Tag.maxSize < needed then
    answer = .error (.sizeOverflow size) ∧ h.Grows h' []
  else if ∃ x ∈ spans, x.tag.allocated = false ∧ needed ≤ x.tag.size then
    (∃ b, answer = .ok b) ∧ h.Grows h' []
  else if Memory.size h.memory + growth ≤ min limit Tag.maxSize then
    (∃ b, answer = .ok b) ∧ h.Grows h' [growth]
  else
    answer = .error (.arenaExhausted growth (Memory.size h.memory)) ∧ h.Grows h' []

theorem refused_iff (m : A) (n : Nat) :
    Refused m n ↔ ¬Memory.size m + n ≤ min (BoundedArena.capacity m) Tag.maxSize := by
  have limit : Tag.maxSize < offsetLimit := by decide
  rw [Refused, BoundedArena.admits_eq_false]
  omega

/-- Without a free block to serve it an allocation grows the arena once, or it fails. -/
theorem Sound.grows_or_fails {wanted : Nat} {answer : Except HeapError Block} (sound : h.Sound v)
    (divides : wanted % 8 = 0) (small : wanted ≤ Tag.maxSize)
    (ran : (grow (max wanted h.config.chunkSize) >>= handOut size wanted) h = .ok answer h') :
    if Memory.size h.memory + max wanted h.config.chunkSize ≤
        min (BoundedArena.capacity h.memory) Tag.maxSize then
      (∃ b, answer = .ok b) ∧ h.Grows h' [max wanted h.config.chunkSize]
    else
      answer = .error (.arenaExhausted (max wanted h.config.chunkSize) (Memory.size h.memory)) ∧
        h.Grows h' [] := by
  obtain ⟨_, chunk_divides, chunk_fits, _⟩ := validate_eq_ok.mp sound.valid
  have limit : Tag.maxSize + 8 < offsetLimit := by decide
  generalize growth_eq : max wanted h.config.chunkSize = growth at ran ⊢
  have rounded : roundUp growth Block.alignment = .ok growth :=
    roundUp_of_divides (by grind) (by grind)
  obtain ⟨found, h₁, grown, handed⟩ := of_bind_ok ran
  by_cases refused : Refused h.memory growth
  · rw [if_neg ((refused_iff h.memory growth).mp refused)]
    rw [grow_of_refused rounded refused] at grown
    cases grown
    cases handed
    exact ⟨rfl, (Traced.recorded h rfl).grows⟩
  · rw [if_pos (not_not.mp (mt (refused_iff h.memory growth).mpr refused))]
    obtain ⟨size, same, ⟨again, _⟩ | ⟨⟨b, rfl⟩, traced⟩⟩ := of_grow_ok grown
    · rw [rounded] at same
      cases same
      exact absurd again refused
    · rw [rounded] at same
      cases same
      exact ⟨⟨b, of_handOut_ok handed⟩, (traced.trans (handOut_quiet _ _ _ _ _ _ handed)).grows⟩

theorem Sound.decides (sound : h.Sound v) (size : Nat) :
    ∃ answer h', allocate size h = .ok answer h' ∧
      h.Decides h' v.spans (BoundedArena.capacity h.memory) size (blockSize size) answer := by
  obtain ⟨answer, h', _, _, ran, _⟩ := allocate_sound sound size
  refine ⟨answer, h', ran, ?_⟩
  unfold Decides
  by_cases fits : blockSize size ≤ Tag.maxSize
  · rw [sound.allocate_eq fits] at ran
    rw [if_neg (Nat.not_lt.mpr fits)]
    cases fit : v.fit (blockSize size) with
    | some b =>
      obtain ⟨x, member, _, unused, large⟩ := sound.shown.fit_spec fit
      rw [fit, pure_bind] at ran
      rw [if_pos ⟨x, member, unused, large⟩]
      exact ⟨⟨b, of_handOut_ok ran⟩, (handOut_quiet _ _ _ _ _ _ ran).grows⟩
    | none =>
      have none_large : ¬∃ x ∈ v.spans, x.tag.allocated = false ∧ blockSize size ≤ x.tag.size := by
        rintro ⟨x, member, unused, large⟩
        exact absurd (sound.fit_eq_none.mp fit x member unused) (by omega)
      rw [fit] at ran
      rw [if_neg none_large]
      exact sound.grows_or_fails (blockSize_spec size).2.1 fits ran
  · have needed := blockSizeFor_eq size
    rw [if_neg (mt blockSize_le_iff.mpr fits)] at needed
    simp only [allocate, lift_bind, needed] at ran
    cases ran
    rw [if_pos (Nat.not_le.mp fits)]
    exact ⟨rfl, (Traced.refl h).grows⟩

end Deciding

end Heap

namespace Session

variable {A : Type} [BoundedArena A] {arena : A} {config : Config} {journal entries : Array Entry}
  {h : Heap A} {requests : List Request}

/-- After requests that keep to the rules, what an allocation comes to is decided by the least size
of a block with room for the bytes, the free blocks of the chain, and the room in the arena. -/
theorem allocation_decided (created : Heap.create arena config journal = .ok (.ok h) entries)
    (chunk : 16 ≤ config.chunkSize) (honoured : honours requests ⟨h, []⟩ = true) :
    ∃ answers s spans, play requests ⟨h, []⟩ = .ok answers s ∧ s.heap.chain = .ok spans ∧
      s.heap.config = config ∧
      ∀ size needed, IsLeast {n | n % 8 = 0 ∧ 16 ≤ n ∧ size + 8 ≤ n} needed →
        ∃ answer h', Heap.allocate size s.heap = .ok answer h' ∧
          s.heap.Decides h' spans (BoundedArena.capacity arena) size needed answer := by
  obtain ⟨v, start⟩ := kept_start created chunk
  obtain ⟨answers, s, v', played, _, kept⟩ := play_kept start honoured
  obtain ⟨_, _, first⟩ := Heap.of_create_ok created
  obtain ⟨sizes, later⟩ := traced_of_play played
  have traced := first.trans later
  have capacity : BoundedArena.capacity s.heap.memory = BoundedArena.capacity arena :=
    later.grown.capacity_eq.trans (Heap.grown_of_create created).capacity_eq
  refine ⟨answers, s, v'.spans, played, kept.chain_eq, traced.config, fun size needed least => ?_⟩
  rw [least.unique (isLeast_blockSize size), ← capacity]
  exact kept.sound.decides size

theorem errands_allocation :
    ∃ h entries, Heap.create (Buffer.new 96) ⟨128, 32⟩ #[] = .ok (.ok h) entries ∧
      16 ≤ (⟨128, 32⟩ : Config).chunkSize ∧ honours errands ⟨h, []⟩ = true ∧
      ∃ answers s spans, play errands ⟨h, []⟩ = .ok answers s ∧ s.heap.chain = .ok spans ∧
        s.heap.config = ⟨128, 32⟩ ∧
        IsLeast {n | n % 8 = 0 ∧ 16 ≤ n ∧ 20 + 8 ≤ n} 32 ∧
        ∃ answer h', Heap.allocate 20 s.heap = .ok answer h' ∧
          s.heap.Decides h' spans 96 20 32 answer := by
  obtain ⟨h, entries, created, honoured⟩ := errands_honoured
  obtain ⟨answers, s, spans, played, chain, config, decided⟩ :=
    allocation_decided created (by decide) honoured
  have least : IsLeast {n | n % 8 = 0 ∧ 16 ≤ n ∧ 20 + 8 ≤ n} 32 := isLeast_blockSize 20
  exact ⟨h, entries, created, by decide, honoured, answers, s, spans, played, chain, config, least,
    decided 20 32 least⟩

end Session

end SegregatedFit
