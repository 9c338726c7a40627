import SegregatedFit.Proofs.Reachability

/-!
The free space of a heap is canonical: between the blocks in use there is one free block wherever
there is room. So the chain, what is on each list and the usage depend on where the heap begins and
ends and on its live blocks only, and not on how the heap came to have them.
-/

namespace SegregatedFit

def Span.shape (x : Span) : Nat × Nat × Bool := (x.block, x.tag.size, x.tag.allocated)

namespace Tiles

variable {start stop b n : Nat} {spans other rest : List Span} {x y : Span}

theorem mem_shapes {used : Bool} : (b, n, used) ∈ spans.map Span.shape ↔
    ∃ z ∈ spans, z.block = b ∧ z.tag.size = n ∧ z.tag.allocated = used := by
  simp [Span.shape]

theorem first_shape (tiles : Tiles start (x :: rest) stop) (room : ∀ z ∈ x :: rest, 0 < z.tag.size)
    {used : Bool} (member : (start, n, used) ∈ (x :: rest).map Span.shape) :
    x.tag.size = n ∧ x.tag.allocated = used := by
  obtain ⟨z, inside, here, rfl, rfl⟩ := mem_shapes.mp member
  have same := tiles.eq_of_block room inside (by simp) (here.trans tiles.1.symm)
  rw [same]
  exact ⟨rfl, rfl⟩

theorem mem_rest_shapes (tiles : Tiles start (x :: rest) stop) (size : 0 < x.tag.size)
    {used : Bool} : (b, n, used) ∈ rest.map Span.shape ↔
      (b, n, used) ∈ (x :: rest).map Span.shape ∧ b ≠ start := by
  simp only [mem_shapes]
  constructor
  · rintro ⟨z, later, rfl, shape⟩
    have := (tiles.2.within later).1
    exact ⟨⟨z, List.mem_cons_of_mem _ later, rfl, shape⟩, by omega⟩
  · rintro ⟨⟨z, inside, rfl, shape⟩, behind⟩
    rcases List.mem_cons.mp inside with rfl | later
    · exact absurd tiles.1 behind
    · exact ⟨z, later, rfl, shape⟩

/-- A free block reaches at least as far as a free block in the same place of another tiling, as
behind it comes a block in use. -/
theorem free_size_le (tiles : Tiles start (x :: rest) stop) (room : ∀ z ∈ x :: rest, 0 < z.tag.size)
    (apart : (x :: rest).IsChain NoFreePair) (unused : x.tag.allocated = false)
    (other_tiles : Tiles start (y :: other) stop) (other_unused : y.tag.allocated = false)
    (used : ∀ b n, (b, n, true) ∈ (x :: rest).map Span.shape →
      (b, n, true) ∈ (y :: other).map Span.shape) : y.tag.size ≤ x.tag.size := by
  obtain ⟨here, behind⟩ := tiles
  cases rest with
  | nil =>
    have ends : start + x.tag.size = stop := behind
    have := (other_tiles.within (List.mem_cons_self ..)).2
    have := other_tiles.1
    omega
  | cons z rest =>
    have z_used : z.tag.allocated = true := by
      rcases (List.isChain_cons.mp apart).1 z rfl with used | used
      · rw [unused] at used
        exact absurd used (by decide)
      · exact used
    obtain ⟨w, member, place, _, w_used⟩ := mem_shapes.mp
      (used z.block z.tag.size (mem_shapes.mpr ⟨z, by simp, rfl, rfl, z_used⟩))
    have z_here := behind.1
    have size := room x (by simp)
    rcases List.mem_cons.mp member with rfl | later
    · rw [other_unused] at w_used
      exact absurd w_used (by decide)
    · have := (other_tiles.2.within later).1
      omega

theorem first_eq (tiles : Tiles start (x :: rest) stop) (other_tiles : Tiles start (y :: rest') stop)
    (room : ∀ z ∈ x :: rest, 0 < z.tag.size) (other_room : ∀ z ∈ y :: rest', 0 < z.tag.size)
    (apart : (x :: rest).IsChain NoFreePair) (other_apart : (y :: rest').IsChain NoFreePair)
    (used : ∀ b n, (b, n, true) ∈ (x :: rest).map Span.shape ↔
      (b, n, true) ∈ (y :: rest').map Span.shape) :
    x.tag.size = y.tag.size ∧ x.tag.allocated = y.tag.allocated := by
  have x_here := tiles.1
  have y_here := other_tiles.1
  cases x_used : x.tag.allocated with
  | true =>
    have member :=
      (used x.block x.tag.size).mp (mem_shapes.mpr ⟨x, by simp, rfl, rfl, x_used⟩)
    rw [x_here] at member
    obtain ⟨size, y_used⟩ := other_tiles.first_shape other_room member
    exact ⟨size.symm, y_used.symm⟩
  | false =>
    cases y_used : y.tag.allocated with
    | true =>
      have member :=
        (used y.block y.tag.size).mpr (mem_shapes.mpr ⟨y, by simp, rfl, rfl, y_used⟩)
      rw [y_here] at member
      obtain ⟨_, x_used'⟩ := tiles.first_shape room member
      rw [x_used] at x_used'
      exact absurd x_used' (by decide)
    | false =>
      refine ⟨Nat.le_antisymm ?_ ?_, rfl⟩
      · exact other_tiles.free_size_le other_room other_apart y_used tiles x_used
          fun b n => (used b n).mpr
      · exact tiles.free_size_le room apart x_used other_tiles y_used fun b n => (used b n).mp

/-- Tilings of the same range in which no two neighbours are free are the same if the same blocks
are in use in them. -/
theorem shapes_eq (tiles : Tiles start spans stop) (other_tiles : Tiles start other stop)
    (room : ∀ z ∈ spans, 0 < z.tag.size) (other_room : ∀ z ∈ other, 0 < z.tag.size)
    (apart : spans.IsChain NoFreePair) (other_apart : other.IsChain NoFreePair)
    (used : ∀ b n, (b, n, true) ∈ spans.map Span.shape ↔ (b, n, true) ∈ other.map Span.shape) :
    spans.map Span.shape = other.map Span.shape := by
  induction spans generalizing start other with
  | nil =>
    have here : start = stop := tiles
    subst here
    rw [other_tiles.eq_nil other_room]
  | cons x rest ih =>
    cases other with
    | nil =>
      have here : start = stop := other_tiles
      subst here
      rw [tiles.eq_nil room]
    | cons y rest' =>
      obtain ⟨size, use⟩ :=
        tiles.first_eq other_tiles room other_room apart other_apart used
      have shape : x.shape = y.shape := by
        simp only [Span.shape, tiles.1, other_tiles.1, size, use]
      rw [List.map_cons, List.map_cons, shape]
      congr 1
      refine ih tiles.2 (size ▸ other_tiles.2)
        (fun z member => room z (List.mem_cons_of_mem _ member))
        (fun z member => other_room z (List.mem_cons_of_mem _ member)) apart.tail
        other_apart.tail ?_
      intro b n
      rw [tiles.mem_rest_shapes (room x (by simp)),
        other_tiles.mem_rest_shapes (other_room y (by simp)), used b n]

end Tiles

theorem Usage.foldl_count {spans other : List Span} (usage : Usage)
    (same : spans.map Span.shape = other.map Span.shape) :
    spans.foldl count usage = other.foldl count usage := by
  induction spans generalizing other usage with
  | nil =>
    cases other with
    | nil => rfl
    | cons y rest => cases same
  | cons x rest ih =>
    cases other with
    | nil => cases same
    | cons y rest' =>
      obtain ⟨shape, later⟩ := List.cons_eq_cons.mp same
      simp only [Span.shape, Prod.mk.injEq] at shape
      have counted : count usage x = count usage y := by
        simp only [count, shape.2.1, shape.2.2]
      rw [List.foldl_cons, List.foldl_cons, counted]
      exact ih _ later

namespace Heap

/-- Two heaps with the same chain, the same blocks on every list, and the same usage. A list is
whole if it is taken up to at least as many blocks as there are bytes. -/
structure Alike {M N : Type} [Memory M] [Memory N] (h : Heap M) (k : Heap N) : Prop where
  chain : ∃ xs ys, h.chain = .ok xs ∧ k.chain = .ok ys ∧ xs.map Span.shape = ys.map Span.shape
  lists : ∀ cls, ∃ xs ys, List.Perm xs ys ∧ ∀ limit, Memory.size h.memory ≤ limit →
    h.list limit cls = .ok xs ∧ k.list limit cls = .ok ys
  usage : ∃ usage, h.usage = .ok usage ∧ k.usage = .ok usage

namespace Consistent

variable {M N : Type} [Memory M] [Memory N] {h : Heap M} {k : Heap N} {spans spans' : List Span}
  {files files' : SizeClass → List Nat} {stops stops' : SizeClass → Nat}

theorem mem_files (consistent : h.Consistent spans files stops) {cls : SizeClass} {b : Nat} :
    b ∈ files cls ↔ ∃ n, (b, n, false) ∈ spans.map Span.shape ∧ SizeClass.ofSize n = cls := by
  rw [consistent.listed]
  constructor
  · rintro ⟨x, member, rfl, unused, rfl⟩
    exact ⟨x.tag.size, Tiles.mem_shapes.mpr ⟨x, member, rfl, rfl, unused⟩, rfl⟩
  · rintro ⟨n, shape, rfl⟩
    obtain ⟨x, member, rfl, rfl, unused⟩ := Tiles.mem_shapes.mp shape
    exact ⟨x, member, rfl, unused, rfl⟩

theorem alike (consistent : h.Consistent spans files stops)
    (consistent' : k.Consistent spans' files' stops')
    (bounded : Memory.size h.memory < offsetLimit) (prologue : k.prologue = h.prologue)
    (size : Memory.size k.memory = Memory.size h.memory)
    (used : ∀ b n, (b, n, true) ∈ spans.map Span.shape ↔ (b, n, true) ∈ spans'.map Span.shape) :
    h.Alike k := by
  have tiles' : Tiles (h.prologue + 8) spans' (Memory.size h.memory) := by
    rw [← prologue, ← size]
    exact consistent'.chained.tiles
  have shapes := consistent.chained.tiles.shapes_eq tiles'
    consistent.room_pos consistent'.room_pos consistent.apart consistent'.apart used
  have bounded' : Memory.size k.memory < offsetLimit := size ▸ bounded
  refine ⟨⟨spans, spans', consistent.chain_eq bounded, consistent'.chain_eq bounded', shapes⟩,
    fun cls => ⟨files cls, files' cls, ?_, fun limit enough => ?_⟩, ?_⟩
  · rw [List.perm_ext_iff_of_nodup (consistent.nodup cls) (consistent'.nodup cls)]
    intro b
    rw [consistent.mem_files, consistent'.mem_files, shapes]
  · exact ⟨consistent.whole_list_eq enough cls, consistent'.whole_list_eq (size ▸ enough) cls⟩
  · refine ⟨_, consistent.usage_eq bounded, ?_⟩
    rw [consistent'.usage_eq bounded', size, Usage.foldl_count _ shapes]

end Consistent

end Heap

namespace Session

variable {A B : Type} [Arena A] [Arena B] {s s' : Session A} {v : View} {b n : Nat}

def live (s : Session A) : List (Nat × Nat) :=
  s.leases.map fun l => (l.block, Block.sizeAt s.heap.memory l.block)

theorem mem_live : (b, n) ∈ s.live ↔
    b ∈ s.leases.map Lease.block ∧ Block.sizeAt s.heap.memory b = n := by
  simp only [live, List.mem_map, Prod.mk.injEq]
  constructor
  · rintro ⟨l, member, rfl, rfl⟩
    exact ⟨⟨l, member, rfl⟩, rfl⟩
  · rintro ⟨⟨l, member, rfl⟩, rfl⟩
    exact ⟨l, member, rfl, rfl⟩

theorem Kept.mem_live_iff (kept : s.Kept v) :
    (b, n) ∈ s.live ↔ (b, n, true) ∈ v.spans.map Span.shape := by
  rw [mem_live, Tiles.mem_shapes]
  constructor
  · rintro ⟨leased, rfl⟩
    obtain ⟨x, used, rfl⟩ := kept.used_of_live leased
    obtain ⟨member, allocated⟩ := View.mem_used.mp used
    exact ⟨x, member, rfl, (sizeAt_used kept.sound used).symm, allocated⟩
  · rintro ⟨x, member, rfl, rfl, allocated⟩
    have used : x ∈ v.used := View.mem_used.mpr ⟨member, allocated⟩
    exact ⟨kept.leased.live.mem_iff.mpr (List.mem_map_of_mem used), sizeAt_used kept.sound used⟩

theorem Reached.alike {s : Session A} {k : Session B} (reached : Reached s) (reached' : Reached k)
    (prologue : k.heap.prologue = s.heap.prologue)
    (size : Memory.size k.heap.memory = Memory.size s.heap.memory)
    (same_live : ∀ p, p ∈ s.live ↔ p ∈ k.live) : s.heap.Alike k.heap := by
  obtain ⟨v, kept⟩ := reached.kept
  obtain ⟨v', kept'⟩ := reached'.kept
  have bounded := Nat.lt_of_lt_of_le kept.small (by decide : (1 <<< 63 : Nat) ≤ offsetLimit)
  refine kept.consistent.alike kept'.consistent bounded prologue size fun b n => ?_
  rw [← kept.mem_live_iff, ← kept'.mem_live_iff, same_live]

theorem Reached.release (reached : Reached s) (leased : b ∈ s.leases.map Lease.block) :
    ∃ answer s', perform (.release (some b)) s = .ok answer s' ∧ Reached s' ∧
      s'.heap.prologue = s.heap.prologue ∧
      Memory.size s'.heap.memory = Memory.size s.heap.memory ∧
      ∀ c n, (c, n) ∈ s'.live ↔ (c, n) ∈ s.live ∧ c ≠ b := by
  obtain ⟨v, kept⟩ := reached.kept
  have allowed : (Request.release (some b)).allowed s = true := by
    simpa [Request.allowed, Request.target, Request.fits] using leased
  obtain ⟨answer, s', v', performed, kept', untouched⟩ := kept.performs allowed
  obtain ⟨ran, leases⟩ := of_perform_ok performed
  obtain ⟨_, h₁, released, ended⟩ := Heap.of_bind_ok ran
  cases ended
  have traced := Heap.release_quiet _ _ _ _ released
  refine ⟨.ok none, s', performed, reached.step allowed performed, traced.prologue, ?_, ?_⟩
  · simpa using traced.size_eq
  · intro c n
    have leases : s'.leases = Lease.without s.leases b := leases
    simp only [live, leases, List.mem_map, Prod.mk.injEq, Lease.without, List.mem_filter]
    constructor
    · rintro ⟨l, ⟨member, other⟩, rfl, rfl⟩
      have other : l.block ≠ b := by simpa using other
      obtain ⟨_, size, _⟩ := untouched l member fun same => other (Option.some.inj same).symm
      exact ⟨⟨l, member, rfl, size.symm⟩, other⟩
    · rintro ⟨⟨l, member, rfl, rfl⟩, other⟩
      obtain ⟨_, size, _⟩ := untouched l member fun same => other (Option.some.inj same).symm
      exact ⟨l, ⟨member, by simpa using other⟩, rfl, size⟩

def releases (blocks : List Nat) : List Request := blocks.map fun b => .release (some b)

theorem Reached.play_releases {blocks : List Nat} (reached : Reached s) (nodup : blocks.Nodup)
    (leased : ∀ b ∈ blocks, b ∈ s.leases.map Lease.block) :
    ∃ answers s', play (releases blocks) s = .ok answers s' ∧ Reached s' ∧
      s'.heap.prologue = s.heap.prologue ∧
      Memory.size s'.heap.memory = Memory.size s.heap.memory ∧
      ∀ c n, (c, n) ∈ s'.live ↔ (c, n) ∈ s.live ∧ c ∉ blocks := by
  induction blocks generalizing s with
  | nil => exact ⟨[], s, rfl, reached, rfl, rfl, by simp⟩
  | cons b rest ih =>
    obtain ⟨fresh, nodup⟩ := List.nodup_cons.mp nodup
    obtain ⟨answer, s₁, performed, reached₁, prologue₁, size₁, live₁⟩ :=
      reached.release (leased b (by simp))
    have leased₁ : ∀ c ∈ rest, c ∈ s₁.leases.map Lease.block := by
      intro c member
      have other : c ≠ b := fun same => fresh (same ▸ member)
      have old := mem_live.mpr ⟨leased c (List.mem_cons_of_mem _ member), rfl⟩
      exact (mem_live.mp ((live₁ c _).mpr ⟨old, other⟩)).1
    obtain ⟨answers, s₂, played, reached₂, prologue₂, size₂, live₂⟩ := ih reached₁ nodup leased₁
    refine ⟨answer :: answers, s₂, play_cons performed played, reached₂,
      prologue₂.trans prologue₁, size₂.trans size₁, fun c n => ?_⟩
    rw [live₂, live₁, List.mem_cons, not_or, and_assoc]

theorem Reached.chain_of_no_leases (reached : Reached s) (empty : s.leases = []) :
    ∃ x, s.heap.chain = .ok [x] ∧ x.shape =
      (s.heap.prologue + 8, Memory.size s.heap.memory - s.heap.prologue - 8, false) := by
  obtain ⟨v, kept⟩ := reached.kept
  have extent := reached.extent
  have tiles := kept.sound.shown.chained.tiles
  have apart := kept.sound.settled.apart
  have unused : ∀ x ∈ v.spans, x.tag.allocated = false := by
    intro x member
    cases used : x.tag.allocated with
    | false => rfl
    | true =>
      have leased := kept.mem_live_iff.mpr (Tiles.mem_shapes.mpr ⟨x, member, rfl, rfl, used⟩)
      rw [live, empty] at leased
      cases leased
  have chain := kept.chain_eq
  cases spans : v.spans with
  | nil =>
    rw [spans] at tiles
    have here : s.heap.prologue + 8 = Memory.size s.heap.memory := tiles
    omega
  | cons x rest =>
    rw [spans] at tiles apart unused chain
    cases rest with
    | nil =>
      obtain ⟨here, ends⟩ := tiles
      have ends : s.heap.prologue + 8 + x.tag.size = Memory.size s.heap.memory := ends
      refine ⟨x, chain, ?_⟩
      simp only [Span.shape, here, unused x (by simp), Prod.mk.injEq, and_true, true_and]
      omega
    | cons y rest =>
      have pair := (List.isChain_cons.mp apart).1 y rfl
      simp [NoFreePair, unused x, unused y] at pair

/-- Where the heap begins and ends and its live blocks determine the chain, the lists and the usage,
whatever happened before. So blocks may be released in any order, and when no block is live any more
all is one free block again. -/
theorem canonical_free_space (reached : Reached s) :
    (∀ {B : Type} [Arena B] {k : Session B}, Reached k → k.heap.prologue = s.heap.prologue →
      Memory.size k.heap.memory = Memory.size s.heap.memory → (∀ p, p ∈ s.live ↔ p ∈ k.live) →
        s.heap.Alike k.heap) ∧
    (∀ first second : List Nat, first.Perm second → first.Nodup →
      (∀ b ∈ first, b ∈ s.leases.map Lease.block) →
        ∃ answers s₁ answers' s₂, play (releases first) s = .ok answers s₁ ∧
          play (releases second) s = .ok answers' s₂ ∧ s₁.heap.Alike s₂.heap) ∧
    (s.leases = [] → ∃ x, s.heap.chain = .ok [x] ∧ x.shape =
      (s.heap.prologue + 8, Memory.size s.heap.memory - s.heap.prologue - 8, false)) := by
  refine ⟨fun reached' prologue size same => reached.alike reached' prologue size same, ?_,
    reached.chain_of_no_leases⟩
  intro first second perm nodup leased
  obtain ⟨answers, s₁, played₁, reached₁, prologue₁, size₁, live₁⟩ :=
    reached.play_releases nodup leased
  obtain ⟨answers', s₂, played₂, reached₂, prologue₂, size₂, live₂⟩ :=
    reached.play_releases (perm.nodup_iff.mp nodup) fun b member =>
      leased b (perm.mem_iff.mpr member)
  refine ⟨answers, s₁, answers', s₂, played₁, played₂, reached₁.alike reached₂
    (prologue₂.trans prologue₁.symm) (size₂.trans size₁.symm) ?_⟩
  rintro ⟨b, n⟩
  rw [live₁, live₂, perm.mem_iff]

def outline (s : Session A) : Nat × Nat × List (Nat × Nat) :=
  (s.heap.prologue, Memory.size s.heap.memory, s.live)

def straight : List Request := [.allocate 5, .allocate 20, .allocate 3, .release (some 16)]

def winding : List Request :=
  [.allocate 8, .allocateZeroed 4 6, .write 32 2 ⟨#[1, 2, 3]⟩, .allocate 60, .release (some 64),
    .reallocate none 3, .release (some 16)]

theorem straight_outline : (outcome (Buffer.new 300) ⟨256, 128⟩ straight).map (·.2.outline) =
    some (8, 144, [(64, 16), (32, 32)]) := by
  decide +kernel

theorem winding_outline : (outcome (Buffer.new 300) ⟨256, 128⟩ winding).map (·.2.outline) =
    some (8, 144, [(64, 16), (32, 32)]) := by
  decide +kernel

theorem returned_outline :
    (outcome (Buffer.new 300) ⟨256, 128⟩ (straight ++ releases [32, 64])).map (·.2.outline) =
      some (8, 144, []) := by
  decide +kernel

theorem straight_winding_alike :
    (∃ s k : Session Buffer, Reached s ∧ Reached k ∧ k.heap.prologue = s.heap.prologue ∧
      Memory.size k.heap.memory = Memory.size s.heap.memory ∧ (∀ p, p ∈ s.live ↔ p ∈ k.live) ∧
      s.heap.Alike k.heap ∧
      ∃ answers s₁ answers' s₂, play (releases [32, 64]) s = .ok answers s₁ ∧
        play (releases [64, 32]) s = .ok answers' s₂ ∧ s₁.heap.Alike s₂.heap) ∧
    ∃ s : Session Buffer, Reached s ∧ s.leases = [] ∧
      ∃ x, s.heap.chain = .ok [x] ∧ x.shape = (16, 128, false) := by
  obtain ⟨⟨_, s⟩, came, s_outline⟩ := Option.map_eq_some_iff.mp straight_outline
  obtain ⟨⟨_, k⟩, came', k_outline⟩ := Option.map_eq_some_iff.mp winding_outline
  obtain ⟨⟨_, e⟩, ended, e_outline⟩ := Option.map_eq_some_iff.mp returned_outline
  simp only [outline, Prod.mk.injEq] at s_outline k_outline e_outline
  obtain ⟨s_prologue, s_size, s_live⟩ := s_outline
  obtain ⟨k_prologue, k_size, k_live⟩ := k_outline
  obtain ⟨e_prologue, e_size, e_live⟩ := e_outline
  have reached : Reached s := .of_outcome (by decide) came
  have reached' : Reached k := .of_outcome (by decide) came'
  have returned : Reached e := .of_outcome (by decide) ended
  have prologue := k_prologue.trans s_prologue.symm
  have size := k_size.trans s_size.symm
  have same : ∀ p, p ∈ s.live ↔ p ∈ k.live := by simp [s_live, k_live]
  obtain ⟨canonical, order, _⟩ := canonical_free_space reached
  obtain ⟨_, _, single⟩ := canonical_free_space returned
  have leased : ∀ b ∈ [32, 64], b ∈ s.leases.map Lease.block := by
    intro b member
    rcases List.mem_pair.mp member with rfl | rfl
    · exact (mem_live.mp (show (32, 32) ∈ s.live by simp [s_live])).1
    · exact (mem_live.mp (show (64, 16) ∈ s.live by simp [s_live])).1
  have empty : e.leases = [] := List.map_eq_nil_iff.mp e_live
  obtain ⟨x, chain, shape⟩ := single empty
  rw [e_prologue, e_size] at shape
  exact ⟨⟨s, k, reached, reached', prologue, size, same, canonical reached' prologue size same,
    order [32, 64] [64, 32] (.swap 64 32 []) (by decide) leased⟩,
    e, returned, empty, x, chain, shape⟩

end Session

end SegregatedFit
