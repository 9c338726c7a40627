import SegregatedFit.Arena.Buffer
import SegregatedFit.Proofs.Creation
import SegregatedFit.Proofs.Lockstep

/-!
One arena in place of another. A reserved region and a buffer of the same capacity cannot be told
apart, neither by those who grow them and write to their bytes nor by those who use a heap in them.
-/

namespace SegregatedFit

namespace Arena

/-- What may be asked of an arena itself: to grow at its end, and to have some of its bytes written.
-/
inductive Access
  | sbrk (increment : Nat)
  | write (start : Nat) (bytes : ByteArray)

namespace Access

variable {A : Type} [Arena A]

def run (a : A) : Access → Except Fault (Option Nat) × A
  | .sbrk increment =>
    match Arena.grow a increment with
    | .ok (some grown) => (.ok (some (Memory.size a)), grown)
    | .ok none => (.ok none, a)
    | .error fault => (.error fault, a)
  | .write start bytes =>
    match Memory.ensure a start bytes.size with
    | .ok () => (.ok none, Memory.writeRun a start bytes)
    | .error fault => (.error fault, a)

def runAll : List Access → A → List (Except Fault (Option Nat)) × A
  | [], a => ([], a)
  | access :: rest, a =>
    let (answer, a) := access.run a
    let (answers, a) := runAll rest a
    (answer :: answers, a)

end Access

end Arena

namespace BoundedArena

variable {A B : Type} [BoundedArena A] [BoundedArena B] {a : A} {b : B}

open Arena (Access)

/-- Growth up to `limit` bytes answers with the old end, keeps all bytes and exposes zeros; growth
beyond that is refused and changes nothing. -/
def Moves (limit : Nat) (a : A) (increment : Nat) : Prop :=
  if Memory.size a + increment ≤ limit then
    ∃ grown, Access.run a (.sbrk increment) = (.ok (some (Memory.size a)), grown) ∧
      Memory.size grown = Memory.size a + increment ∧
      (∀ i < Memory.size a, Memory.byte grown i = Memory.byte a i) ∧
      ∀ i, Memory.size a ≤ i → Memory.byte grown i = 0
  else Access.run a (.sbrk increment) = (.ok none, a)

theorem capacity_runAll (a : A) (accesses : List Access) :
    capacity (Access.runAll accesses a).2 = capacity a := by
  induction accesses generalizing a with
  | nil => rfl
  | cons access rest ih =>
    refine (ih (access.run a).2).trans ?_
    cases access with
    | sbrk increment =>
      simp only [Access.run, Arena.grow, bind, Except.bind]
      cases Arena.admits a increment with
      | error fault => rfl
      | ok admitted => cases admitted <;> simp [pure, Except.pure]
    | write start bytes =>
      simp only [Access.run]
      cases Memory.ensure a start bytes.size with
      | error fault => rfl
      | ok _ => exact capacity_update ..

namespace Matches

theorem grow_eq (matched : Matches a b) (n : Nat) :
    Arena.grow a n =
      .ok (if Memory.size a + n ≤ BoundedArena.capacity a then some (Arena.extend a n)
        else none) := by
  simp only [Arena.grow, matched.admits_eq, bind, Except.bind, decide_eq_true_eq]
  split <;> rfl

theorem moves (matched : Matches a b) (increment : Nat) :
    Moves (BoundedArena.capacity a) a increment := by
  have grown := matched.grow_eq increment
  have answered := matched.admits_eq increment
  unfold Moves
  split
  next fits =>
    rw [decide_eq_true fits] at answered
    rw [if_pos fits] at grown
    refine ⟨Arena.extend a increment, ?_, Arena.size_extend _ _ answered,
      Arena.byte_extend a increment, blank_extend a increment⟩
    simp only [Access.run, grown]
  next beyond =>
    rw [if_neg beyond] at grown
    simp only [Access.run, grown]

theorem run (matched : Matches a b) (access : Access) :
    (access.run a).1 = (access.run b).1 ∧ Matches (access.run a).2 (access.run b).2 := by
  cases access with
  | sbrk increment =>
    have other := matched.symm.grow_eq increment
    rw [← matched.size, ← matched.capacity] at other
    simp only [Access.run, matched.grow_eq, other, matched.size]
    by_cases fits : Memory.size b + increment ≤ BoundedArena.capacity a
    · simp only [if_pos fits]
      refine ⟨trivial, matched.extend ?_⟩
      rw [matched.admits_eq, matched.size, decide_eq_true fits]
    · simp only [if_neg fits]
      exact ⟨trivial, matched⟩
  | write start bytes =>
    simp only [Access.run, matched.ensure]
    cases inside : Memory.ensure b start bytes.size with
    | error fault => exact ⟨rfl, matched⟩
    | ok _ =>
      rw [← matched.ensure, Memory.ensure_eq_ok] at inside
      exact ⟨rfl, matched.update _ inside⟩

theorem runAll (matched : Matches a b) (accesses : List Access) :
    (Access.runAll accesses a).1 = (Access.runAll accesses b).1 ∧
      Matches (Access.runAll accesses a).2 (Access.runAll accesses b).2 := by
  induction accesses generalizing a b with
  | nil => exact ⟨rfl, matched⟩
  | cons access rest ih =>
    obtain ⟨answer, after⟩ := matched.run access
    obtain ⟨answers, last⟩ := ih after
    exact ⟨by simp only [Access.runAll, answer, answers], last⟩

end Matches

end BoundedArena

/-- Nothing tells two heaps apart: not their bytes, chain, lists or usage, not what the checker
finds, and not their journals. -/
structure Heap.LooksLike {M N : Type} [Memory M] [Memory N] (h : Heap M) (k : Heap N) : Prop where
  size : Memory.size h.memory = Memory.size k.memory
  bytes : ∀ start count, Memory.slice h.memory start count = Memory.slice k.memory start count
  chain : h.chain = k.chain
  list : ∀ limit cls, h.list limit cls = k.list limit cls
  usage : h.usage = k.usage
  snapshot : ∀ limit, h.snapshot limit = k.snapshot limit
  violations : h.violations = k.violations
  journal : h.journal = k.journal

theorem Heap.Same.looksLike {M N : Type} [Memory M] [Memory N] {h : Heap M} {k : Heap N}
    (same : h.Same k) : h.LooksLike k where
  size := same.memory.size
  bytes := same.memory.slice
  chain := same.chain
  list := same.list
  usage := same.usage
  snapshot := same.snapshot
  violations := same.violations
  journal := same.journal

structure Session.LooksLike {M N : Type} [Memory M] [Memory N] (s : Session M) (k : Session N) :
    Prop where
  heap : s.heap.LooksLike k.heap
  leases : s.leases = k.leases

open Arena (Access)

/-- One arena may take the place of the other, whatever was done to them before. Both answer all
accesses alike and have the same bytes after them, both move their ends in the same way, and heaps
in them are made alike, answer all requests alike and look alike after them. -/
structure Interchangeable {A B : Type} [BoundedArena A] [BoundedArena B] (a : A) (b : B) :
    Prop where
  answers : ∀ accesses, (Access.runAll accesses a).1 = (Access.runAll accesses b).1
  bytes : ∀ accesses, Memory.Same (Access.runAll accesses a).2 (Access.runAll accesses b).2
  last : ∀ accesses, Memory.last (Access.runAll accesses a).2 =
    Memory.last (Access.runAll accesses b).2
  moves : ∀ accesses increment,
    BoundedArena.Moves (BoundedArena.capacity a) (Access.runAll accesses a).2 increment ∧
      BoundedArena.Moves (BoundedArena.capacity a) (Access.runAll accesses b).2 increment
  heaps : ∀ accesses config journal, Heap.Created
    (fun h k => ∀ requests, Agree Session.LooksLike (Session.play requests ⟨h, []⟩)
      (Session.play requests ⟨k, []⟩))
    (Heap.create (Access.runAll accesses a).2 config journal)
    (Heap.create (Access.runAll accesses b).2 config journal)

theorem BoundedArena.Matches.interchangeable {A B : Type} [BoundedArena A] [BoundedArena B] {a : A}
    {b : B} (matched : Matches a b) : Interchangeable a b where
  answers accesses := (matched.runAll accesses).1
  bytes accesses := (matched.runAll accesses).2.toSame
  last accesses := (matched.runAll accesses).2.last
  moves accesses increment := by
    have after := (matched.runAll accesses).2
    have one := after.moves increment
    have other := after.symm.moves increment
    rw [capacity_runAll] at one other
    exact ⟨one, matched.capacity ▸ other⟩
  heaps accesses config journal := by
    have created := Heap.create_inStep (matched.runAll accesses).2 config journal
    generalize Heap.create (Access.runAll accesses a).2 config journal = ended,
      Heap.create (Access.runAll accesses b).2 config journal = ended' at created ⊢
    cases created with
    | @made h k entries made =>
      refine .made entries fun requests => ?_
      have agree := Session.play_lockstep requests ⟨h, []⟩ ⟨k, []⟩ ⟨made, rfl⟩
      exact agree.mono fun s k related => ⟨related.heap.same.looksLike, related.leases⟩
    | refused error entries => exact .refused error entries
    | stopped fault entries => exact .stopped fault entries

theorem Reservation.fresh_matches (base : Nat) {capacity : Nat} (bounded : capacity < 1 <<< 63) :
    BoundedArena.Matches (fresh base capacity) (Buffer.new capacity) :=
  ⟨⟨rfl, fun i => Sparse.get_blank i⟩, rfl, bounded⟩

/-- A region that the system grants may be replaced by a buffer of the same capacity, and the other
way round. If whole pages were asked for, that is the size of the region. No system grants a region
of `2 ^ 63` bytes, which no program could address. -/
theorem providers_interchangeable {system : System} {wanted : Nat} {region : Reservation}
    (addressable : ∀ n base, system.reserve n = some base → n < 1 <<< 63)
    (granted : Reservation.new system wanted = .ok (.ok region)) :
    Interchangeable region (Buffer.new region.capacity) ∧
      ∀ k, system.pageSize = 1 <<< k → 0 < wanted → wanted % system.pageSize = 0 →
        region.capacity = wanted := by
  obtain ⟨capacity, base, rounded, reserved, rfl⟩ := Reservation.of_new_ok granted
  constructor
  · have bounded := addressable capacity base reserved
    exact (Reservation.fresh_matches base bounded).interchangeable
  · intro k pages some_bytes whole
    rw [pages] at rounded whole
    rw [Nat.max_eq_left some_bytes] at rounded
    exact eq_of_roundUp whole rounded

theorem System.usual_addressable (n base : Nat) (granted : System.usual.reserve n = some base) :
    n < 1 <<< 63 := by
  simp only [System.usual] at granted
  split at granted
  · simp only [Nat.reduceShiftLeft] at *
    omega
  · cases granted

theorem usual_region_interchangeable :
    (∀ n base, System.usual.reserve n = some base → n < 1 <<< 63) ∧
      Reservation.new .usual 8192 = .ok (.ok (.fresh (127 <<< 40) 8192)) ∧
      Interchangeable (Reservation.fresh (127 <<< 40) 8192) (Buffer.new 8192) := by
  have granted : Reservation.new .usual 8192 = .ok (.ok (.fresh (127 <<< 40) 8192)) := rfl
  exact ⟨System.usual_addressable, granted,
    (providers_interchangeable System.usual_addressable granted).1⟩

end SegregatedFit
