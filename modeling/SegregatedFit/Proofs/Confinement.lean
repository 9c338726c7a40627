import SegregatedFit.Proofs.Extension
import SegregatedFit.Proofs.Interchange

namespace SegregatedFit

section Fixed

variable {A : Type} [BoundedArena A]

/-- Arenas of one capacity. What a heap does to such an arena gives such an arena again. -/
instance (n : Nat) : BoundedArena {a : A // BoundedArena.capacity a = n} where
  size a := Memory.size a.val
  byte a := Memory.byte a.val
  update a start count value :=
    ⟨Memory.update a.val start count value, by rw [BoundedArena.capacity_update, a.property]⟩
  size_update a start count value := Memory.size_update a.val start count value
  byte_update a start count value i := Memory.byte_update a.val start count value i
  byte_outside a i := Memory.byte_outside a.val i
  admits a := Arena.admits a.val
  extend a n := ⟨Arena.extend a.val n, by rw [BoundedArena.capacity_extend, a.property]⟩
  admits_defined a n := Arena.admits_defined a.val n
  size_extend a n := Arena.size_extend a.val n
  byte_extend a n i := Arena.byte_extend a.val n i
  capacity _ := n
  capacity_update _ _ _ _ := rfl
  capacity_extend _ _ := rfl
  admits_eq_false a increment := by
    have answers := BoundedArena.admits_eq_false a.val increment
    rwa [a.property] at answers
  blank_extend a n i := BoundedArena.blank_extend a.val n i

end Fixed

namespace Session

section Bounded

variable {A B : Type} [BoundedArena A] [BoundedArena B]

def after (requests : List Request) (s : Session A) : Session A :=
  match play requests s with
  | .ok _ s' | .error _ s' => s'

theorem Matches.after {s : Session A} {k : Session B} (matched : Matches s k)
    (requests : List Request) : Matches (after requests s) (after requests k) := by
  have agree := play_lockstep requests s k matched
  unfold Session.after
  generalize play requests s = ended, play requests k = ended' at agree ⊢
  cases agree with
  | ok _ related => exact related
  | error _ related => exact related

def fixed (s : Session A) :
    Session {a : A // BoundedArena.capacity a = BoundedArena.capacity s.heap.memory} :=
  ⟨{ s.heap with memory := ⟨s.heap.memory, rfl⟩ }, s.leases⟩

theorem capacity_after (requests : List Request) (s : Session A)
    (bounded : BoundedArena.capacity s.heap.memory < 1 <<< 63) :
    BoundedArena.capacity (after requests s).heap.memory =
      BoundedArena.capacity s.heap.memory := by
  have same : Matches s s.fixed :=
    ⟨⟨⟨⟨rfl, fun _ => rfl⟩, rfl, bounded⟩, rfl, rfl, rfl, rfl⟩, rfl⟩
  exact (same.after requests).heap.arena.capacity

end Bounded

theorem size_after_le (requests : List Request) (s : Session Reservation)
    (bounded : s.heap.memory.capacity < 1 <<< 63) :
    Memory.size (after requests s).heap.memory ≤ s.heap.memory.capacity := by
  calc
    Memory.size (after requests s).heap.memory
      ≤ (after requests s).heap.memory.capacity := (after requests s).heap.memory.brk_le_capacity
    _ = s.heap.memory.capacity := capacity_after requests s bounded

end Session

namespace Heap

open Session (after)

variable {system : System} {config : Config} {region : Reservation} {k : Nat}

theorem capacity_of_create {A : Type} [BoundedArena A] {arena : A} {journal entries : Array Entry}
    {h : Heap A} (created : create arena config journal = .ok (.ok h) entries) :
    BoundedArena.capacity h.memory = BoundedArena.capacity arena :=
  (grown_of_create created).capacity_eq

/-- A heap in a reservation of its own never becomes larger than the least number of whole pages in
which there is room for the configured maximum, and if the maximum is a number of whole pages then
never larger than that. -/
theorem reserved_size_le (valid : config.validate = .ok ()) (pages : system.pageSize = 1 <<< k)
    (addressable : ∀ n base, system.reserve n = some base → n < 1 <<< 63)
    (granted : Reservation.new system config.maxHeap = .ok (.ok region)) (journal : Array Entry) :
    ∃ h entries limit, reserve system config journal = .ok (.ok h) entries ∧
      IsLeast {n | n % system.pageSize = 0 ∧ config.maxHeap ≤ n} limit ∧
      (config.maxHeap % system.pageSize = 0 → limit = config.maxHeap) ∧
      ∀ requests, Memory.size (after requests ⟨h, []⟩).heap.memory ≤ limit := by
  obtain ⟨h, entries, _, reserved, _⟩ := reserve_opened valid pages granted journal
  obtain ⟨capacity, base, rounded, given, same⟩ := Reservation.of_new_ok granted
  obtain ⟨positive, _, _, _, large⟩ := validate_eq_ok.mp valid
  have some_bytes : max config.maxHeap 1 = config.maxHeap := by omega
  rw [some_bytes, pages] at rounded
  refine ⟨h, entries, capacity, reserved, ?_, fun whole => ?_, fun requests => ?_⟩
  · rw [pages]
    exact isLeast_roundUp_two_pow rounded
  · exact eq_of_roundUp (pages ▸ whole) rounded
  · rw [reserve_of_granted valid granted] at reserved
    have kept : h.memory.capacity = capacity := by
      calc
        h.memory.capacity = region.capacity := capacity_of_create reserved
        _ = capacity := by rw [same]; rfl
    rw [← kept]
    exact Session.size_after_le requests ⟨h, []⟩ (kept ▸ addressable capacity base given)

theorem usual_size_le :
    (⟨8192, 8⟩ : Config).validate = .ok () ∧ System.usual.pageSize = 1 <<< 12 ∧
      Reservation.new .usual 8192 = .ok (.ok (.fresh (127 <<< 40) 8192)) ∧
      ∃ h entries, reserve .usual ⟨8192, 8⟩ #[] = .ok (.ok h) entries ∧
        ∀ requests, Memory.size (after requests ⟨h, []⟩).heap.memory ≤ 8192 := by
  have valid : (⟨8192, 8⟩ : Config).validate = .ok () := rfl
  have pages : System.usual.pageSize = 1 <<< 12 := rfl
  have granted : Reservation.new .usual 8192 = .ok (.ok (.fresh (127 <<< 40) 8192)) := rfl
  obtain ⟨h, entries, limit, reserved, _, whole, within⟩ :=
    reserved_size_le valid pages System.usual_addressable granted #[]
  have pages_whole : limit = 8192 := whole rfl
  exact ⟨valid, pages, granted, h, entries, reserved, pages_whole ▸ within⟩

theorem page_outgrown : (match create (Buffer.new 4096) ⟨64, 32⟩
      #[.reserved 4096 (127 <<< 40)] with
    | .ok (.ok h) _ => Memory.size (after [.allocate 40] ⟨h, []⟩).heap.memory
    | .ok (.error _) _ | .error _ _ => 0) = 96 := by
  decide +kernel

/-- Where the configured maximum is no number of whole pages, a heap may outgrow it. -/
theorem sixty_four_bytes_exceeded : (⟨64, 32⟩ : Config).validate = .ok () ∧
    ∃ h entries, reserve .usual ⟨64, 32⟩ #[] = .ok (.ok h) entries ∧
      Session.honours [.allocate 40] ⟨h, []⟩ = true ∧
      (⟨64, 32⟩ : Config).maxHeap < Memory.size (after [.allocate 40] ⟨h, []⟩).heap.memory := by
  have valid : (⟨64, 32⟩ : Config).validate = .ok () := rfl
  have granted : Reservation.new .usual 64 = .ok (.ok (.fresh (127 <<< 40) 4096)) := rfl
  have reserved : reserve .usual ⟨64, 32⟩ #[] =
      create (.fresh (127 <<< 40) 4096) ⟨64, 32⟩ #[.reserved 4096 (127 <<< 40)] :=
    reserve_of_granted valid granted #[]
  have outgrown := page_outgrown
  -- a region takes long to compute with, and a heap in a buffer behaves the same
  have created := create_inStep
    (Reservation.fresh_matches (127 <<< 40) (show 4096 < 1 <<< 63 by decide)) ⟨64, 32⟩
    #[.reserved 4096 (127 <<< 40)]
  refine ⟨valid, ?_⟩
  rw [reserved]
  generalize create (Reservation.fresh (127 <<< 40) 4096) ⟨64, 32⟩ _ = ended,
    create (Buffer.new 4096) ⟨64, 32⟩ _ = ended' at created outgrown ⊢
  cases created with
  | refused error entries => cases outgrown
  | stopped fault entries => cases outgrown
  | @made h k entries made =>
    have same : Session.Matches ⟨h, []⟩ ⟨k, []⟩ := ⟨made, rfl⟩
    refine ⟨h, entries, rfl, ?_, ?_⟩
    · unfold Session.honours
      cases Session.perform (.allocate 40) ⟨h, []⟩ <;> rfl
    · have grown : Memory.size (after [.allocate 40] ⟨k, []⟩).heap.memory = 96 := outgrown
      rw [(same.after _).heap.arena.size, grown]
      decide

end Heap

end SegregatedFit
