import SegregatedFit.Proofs.Requests
import SegregatedFit.Proofs.Observation
import SegregatedFit.Session

/-!
The same steps on arenas of two kinds. Bounded arenas with the same bytes and the same capacity
admit the same growth and have the same bytes after it, so every step of the heap answers the same
on both, or stops with the same fault, and leaves them with the same bytes again.
-/

namespace SegregatedFit

section Lockstep

variable {σ τ α β : Type} {R R' : σ → τ → Prop}

inductive Agree (R : σ → τ → Prop) :
    EStateM.Result Fault σ α → EStateM.Result Fault τ α → Prop
  | ok {s : σ} {t : τ} (a : α) : R s t → Agree R (.ok a s) (.ok a t)
  | error {s : σ} {t : τ} (fault : Fault) : R s t → Agree R (.error fault s) (.error fault t)

theorem Agree.mono {r : EStateM.Result Fault σ α} {r' : EStateM.Result Fault τ α}
    (agree : Agree R r r') (weaker : ∀ s t, R s t → R' s t) : Agree R' r r' := by
  cases agree with
  | ok a related => exact .ok a (weaker _ _ related)
  | error fault related => exact .error fault (weaker _ _ related)

/-- From related states both steps end in the same way, in related states. -/
def Lockstep (R : σ → τ → Prop) (step : EStateM Fault σ α) (step' : EStateM Fault τ α) : Prop :=
  ∀ s t, R s t → Agree R (step s) (step' t)

namespace Lockstep

variable {first second : EStateM Fault σ α} {first' second' : EStateM Fault τ α}
  {next : α → EStateM Fault σ β} {next' : α → EStateM Fault τ β} {c : Prop} [Decidable c]

theorem pure (a : α) : Lockstep R (Pure.pure a) (Pure.pure a) := fun _ _ related => .ok a related

theorem throw (fault : Fault) :
    Lockstep (α := α) R (MonadExcept.throw fault) (MonadExcept.throw fault) :=
  fun _ _ related => .error fault related

theorem bind (one : Lockstep R first first') (later : ∀ a, Lockstep R (next a) (next' a)) :
    Lockstep R (first >>= next) (first' >>= next') := by
  intro s t related
  have agree := one s t related
  simp only [Bind.bind, EStateM.bind]
  generalize first s = ended, first' t = ended' at agree ⊢
  cases agree with
  | ok a related' => exact later a _ _ related'
  | error fault related' => exact .error fault related'

theorem get_bind {next : σ → EStateM Fault σ α} {next' : τ → EStateM Fault τ α}
    (later : ∀ s t, R s t → Lockstep R (next s) (next' t)) :
    Lockstep R (get >>= next) (get >>= next') :=
  fun s t related => later s t related s t related

theorem choice (one : Lockstep R first first') (other : Lockstep R second second') :
    Lockstep R (if c then first else second) (if c then first' else second') := by
  split
  · exact one
  · exact other

theorem either (one : Lockstep R first first') (other : Lockstep R second second')
    (later : ∀ a, Lockstep R (next a) (next' a)) :
    Lockstep R (if c then first >>= next else second >>= next)
      (if c then first' >>= next' else second' >>= next') :=
  choice (one.bind later) (other.bind later)

theorem skip {step : EStateM Fault σ Unit} {step' : EStateM Fault τ Unit}
    {next : Unit → EStateM Fault σ β} {next' : Unit → EStateM Fault τ β}
    (one : Lockstep R step step') (later : ∀ a, Lockstep R (next a) (next' a)) :
    Lockstep R (if c then next () else step >>= next) (if c then next' () else step' >>= next') :=
  choice (later ()) (one.bind later)

theorem discard (one : Lockstep R first first') :
    Lockstep R (Functor.discard first) (Functor.discard first') := by
  intro s t related
  have agree := one s t related
  simp only [Functor.discard, Functor.mapConst, Function.comp, EStateM.map]
  generalize first s = ended, first' t = ended' at agree ⊢
  cases agree with
  | ok a related' => exact .ok () related'
  | error fault related' => exact .error fault related'

end Lockstep

end Lockstep

section Arenas

variable {A B : Type} [BoundedArena A] [BoundedArena B] {a : A} {b : B} {n : Nat}

namespace BoundedArena

structure Matches (a : A) (b : B) : Prop extends Memory.Same a b where
  capacity : capacity a = capacity b
  bounded : BoundedArena.capacity a < 1 <<< 63

namespace Matches

theorem update (matched : Matches a b) {start count : Nat} (value : Nat → UInt8)
    (inside : start + count ≤ Memory.size a) :
    Matches (Memory.update a start count value) (Memory.update b start count value) where
  toSame := matched.toSame.update value inside
  capacity := by rw [capacity_update, capacity_update, matched.capacity]
  bounded := by rw [capacity_update]; exact matched.bounded

theorem admits_eq (matched : Matches a b) (n : Nat) :
    Arena.admits a n = .ok (decide (Memory.size a + n ≤ BoundedArena.capacity a)) := by
  have bounded := matched.bounded
  by_cases fits : Memory.size a + n ≤ BoundedArena.capacity a
  · rw [admits_of_fits a n fits (by omega), decide_eq_true fits]
  · rw [(admits_eq_false a n).mpr (by omega), decide_eq_false fits]

theorem symm (matched : Matches a b) : Matches b a where
  size := matched.size.symm
  byte i := (matched.byte i).symm
  capacity := matched.capacity.symm
  bounded := matched.capacity ▸ matched.bounded

theorem admits (matched : Matches a b) (n : Nat) : Arena.admits a n = Arena.admits b n := by
  rw [matched.admits_eq, matched.symm.admits_eq, matched.size, matched.capacity]

theorem extend (matched : Matches a b) (admitted : Arena.admits a n = .ok true) :
    Matches (Arena.extend a n) (Arena.extend b n) where
  size := by
    rw [Arena.size_extend a n admitted, Arena.size_extend b n (matched.admits n ▸ admitted),
      matched.size]
  byte i := by
    by_cases old : i < Memory.size a
    · rw [Arena.byte_extend a n i old, Arena.byte_extend b n i (matched.size ▸ old), matched.byte]
    · have new : Memory.size b ≤ i := by
        rw [← matched.size]
        omega
      rw [blank_extend a n i (by omega), blank_extend b n i new]
  capacity := by rw [capacity_extend, capacity_extend, matched.capacity]
  bounded := by rw [capacity_extend]; exact matched.bounded

end Matches

end BoundedArena

namespace Heap

variable {α β : Type} {h : Heap A} {k : Heap B}

structure Matches (h : Heap A) (k : Heap B) : Prop where
  arena : BoundedArena.Matches h.memory k.memory
  lists : h.lists = k.lists
  prologue : h.prologue = k.prologue
  config : h.config = k.config
  journal : h.journal = k.journal

theorem Matches.same (matched : h.Matches k) : h.Same k where
  memory := matched.arena.toSame
  lists := matched.lists
  prologue := matched.prologue
  config := matched.config
  journal := matched.journal

/-- The same step of two heaps on arenas of different kinds. -/
abbrev InStep (step : HeapM A α) (step' : HeapM B α) : Prop := Lockstep Matches step step'

end Heap

namespace Lockstep

variable {α : Type}

open Heap (write query_bind)

theorem query {read : A → Except Fault α} {read' : B → Except Fault α}
    (same : ∀ a b, BoundedArena.Matches a b → read a = read' b) :
    Heap.InStep (Heap.query read) (Heap.query read') := by
  intro h k matched
  unfold Heap.query
  rw [same _ _ matched.arena]
  cases read' k.memory with
  | ok a => exact .ok a matched
  | error fault => exact .error fault matched

theorem lift (read : Except Fault α) : Heap.InStep (A := A) (B := B) (liftM read) (liftM read) := by
  intro h k matched
  cases read with
  | ok a => exact .ok a matched
  | error fault => exact .error fault matched

theorem record (entry : Entry) :
    Heap.InStep (A := A) (B := B) (Heap.record entry) (Heap.record entry) :=
  fun _ _ matched => .ok () { matched with journal := congrArg (·.push entry) matched.journal }

theorem setHead (cls : SizeClass) (b : Block) :
    Heap.InStep (A := A) (B := B) (Heap.setHead cls b) (Heap.setHead cls b) :=
  fun _ _ matched => .ok () { matched with lists := congrArg (·.setHead cls b) matched.lists }

theorem head (cls : SizeClass) : Heap.InStep (A := A) (B := B) (Heap.head cls) (Heap.head cls) :=
  .get_bind fun _ _ matched => by
    rw [matched.lists]
    exact .pure _

theorem memorySize : Heap.InStep (A := A) (B := B) Heap.memorySize Heap.memorySize :=
  .get_bind fun _ _ matched => by
    rw [matched.arena.size]
    exact .pure _

theorem overwrite (start count : Nat) (value : Nat → UInt8) :
    Heap.InStep (A := A) (B := B)
      (do Heap.query (Memory.ensure · start count); write (Memory.update · start count value))
      (do Heap.query (Memory.ensure · start count); write (Memory.update · start count value)) := by
  intro h k matched
  simp only [query_bind, matched.arena.ensure]
  cases inside : Memory.ensure k.memory start count with
  | error fault => exact .error fault matched
  | ok _ =>
    rw [← matched.arena.ensure, Memory.ensure_eq_ok] at inside
    exact .ok () { matched with arena := matched.arena.update value inside }

end Lockstep

namespace Heap

section Operations

variable (b : Block)

theorem setNat_inStep (offset bytes value : Nat) :
    InStep (A := A) (B := B) (setNat offset bytes value) (setNat offset bytes value) :=
  .overwrite offset bytes _

theorem setBytes_inStep (offset : Nat) (bytes : ByteArray) :
    InStep (A := A) (B := B) (setBytes offset bytes) (setBytes offset bytes) :=
  .overwrite offset bytes.size _

theorem fillBytes_inStep (offset count : Nat) (value : UInt8) :
    InStep (A := A) (B := B) (fillBytes offset count value) (fillBytes offset count value) :=
  .overwrite offset count _

theorem copyBytes_inStep (source target count : Nat) :
    InStep (A := A) (B := B) (copyBytes source target count) (copyBytes source target count) :=
  .bind (.query fun _ _ matched => matched.slice source count) fun _ => setBytes_inStep _ _

theorem setTags_inStep (size : Nat) (allocated : Bool) :
    InStep (A := A) (B := B) (setTags b size allocated) (setTags b size allocated) :=
  .bind (.lift _) fun _ => .bind (.lift _) fun _ => .bind (setNat_inStep _ _ _) fun _ =>
    .bind (.lift _) fun _ => setNat_inStep _ _ _

theorem insert_inStep : InStep (A := A) (B := B) (insert b) (insert b) :=
  .bind (.query fun _ _ matched => matched.blockSize b) fun _ => .bind (.head _) fun _ =>
    .bind (setNat_inStep _ _ _) fun _ => .bind (.setHead _ _) fun _ => .record _

theorem remove_inStep : InStep (A := A) (B := B) (remove b) (remove b) := by
  refine .bind (.query fun _ _ matched => matched.blockSize b) fun size =>
    .bind (.query fun _ _ matched => matched.link b) fun next =>
    .bind (.query fun _ _ matched => matched.allocated next) fun last =>
    .bind (.head _) fun first => .get_bind fun h k matched => ?_
  rw [matched.lists]
  refine .choice ?_ ?_
  · exact .bind (.setHead _ _) fun _ => .record _
  · refine .bind (.query fun _ _ matched => matched.find? _ first) fun before => ?_
    cases before with
    | none => exact .throw _
    | some p => exact .bind (setNat_inStep _ _ _) fun _ => .record _

theorem firstFit_inStep (size : Nat) : InStep (A := A) (B := B) (firstFit size) (firstFit size) :=
  .get_bind fun h k matched => by
    rw [matched.lists]
    exact .query fun _ _ matched => matched.firstFit _ size

theorem coalesce_inStep : InStep (A := A) (B := B) (coalesce b) (coalesce b) := by
  refine .bind (.query fun _ _ matched => matched.prev b) fun prev =>
    .bind (.query fun _ _ matched => matched.next b) fun next =>
    .bind (.query fun _ _ matched => matched.allocated prev) fun prevAllocated =>
    .bind (.query fun _ _ matched => matched.allocated next) fun nextAllocated =>
    .bind (.query fun _ _ matched => matched.blockSize b) fun size => ?_
  have read : ∀ c, InStep (A := A) (B := B) (query (Block.size · c)) (query (Block.size · c)) :=
    fun c => .query fun _ _ matched => matched.blockSize c
  refine .skip (remove_inStep _) fun _ => .skip (remove_inStep _) fun _ => ?_
  refine .either (.pure _) (read prev) fun before => .either (.pure _) (read next) fun behind => ?_
  exact .skip (setTags_inStep _ _ _) fun _ => .bind (.record _) fun _ =>
    .bind (insert_inStep _) fun _ => .pure _

theorem carve_inStep (size : Nat) : InStep (A := A) (B := B) (carve b size) (carve b size) := by
  refine .bind (.query fun _ _ matched => matched.blockSize b) fun whole =>
    .skip (.throw _) fun _ => .bind (remove_inStep b) fun _ => .choice ?_ ?_
  · exact .bind (setTags_inStep _ _ _) fun _ => .bind (.query fun _ _ matched => matched.next b)
      fun rest => .bind (setTags_inStep _ _ _) fun _ => .bind (.record _) fun _ =>
        .discard (coalesce_inStep rest)
  · exact .bind (setTags_inStep _ _ _) fun _ => .record _

theorem extendArena_inStep (size : Nat) :
    InStep (A := A) (B := B) (extendArena size) (extendArena size) := by
  intro h k matched
  have same := matched.arena.admits size
  have answered := matched.arena.admits_eq size
  by_cases fits : Memory.size h.memory + size ≤ BoundedArena.capacity h.memory
  · rw [decide_eq_true fits] at answered
    rw [extendArena_of_admitted answered, extendArena_of_admitted (same ▸ answered),
      matched.arena.size]
    exact .ok _ { matched with arena := matched.arena.extend answered }
  · rw [decide_eq_false fits] at answered
    rw [extendArena_of_refused answered, extendArena_of_refused (same ▸ answered)]
    exact .ok none matched

theorem grow_inStep (bytes : Nat) : InStep (A := A) (B := B) (grow bytes) (grow bytes) := by
  refine .bind (.lift _) fun size => .bind .memorySize fun heapSize => ?_
  refine .either (extendArena_inStep size) (.pure none) fun start => ?_
  cases start with
  | none => exact .bind (.record _) fun _ => .pure _
  | some c =>
    refine .bind (setTags_inStep c size false) fun _ =>
      .bind (.query fun _ _ matched => matched.next c) fun _ => .bind (.lift _) fun _ =>
      .bind (.lift _) fun _ => .bind (setNat_inStep _ _ _) fun _ => .bind (.record _) fun _ =>
      .bind (coalesce_inStep c) fun _ => .pure _

theorem initialise_inStep : InStep (A := A) (B := B) initialise initialise := by
  refine .get_bind fun h k matched => ?_
  rw [matched.config]
  generalize k.config = config
  dsimp only
  cases config.validate with
  | error reason => exact .pure _
  | ok _ =>
    refine .bind (extendArena_inStep _) fun start => ?_
    cases start with
    | none => exact .bind .memorySize fun _ => .pure _
    | some start =>
      refine .choice (.pure _) ?_
      refine .bind (setNat_inStep _ _ _) fun _ => .bind (.lift _) fun _ =>
        .bind (setNat_inStep _ _ _) fun _ => .bind (.lift _) fun _ =>
        .bind (setNat_inStep _ _ _) fun _ => .bind (.lift _) fun _ =>
        .bind (setNat_inStep _ _ _) fun _ => .bind ?_ fun _ =>
        .bind (grow_inStep config.chunkSize) fun grown => ?_
      · exact fun _ _ matched => .ok () { matched with lists := rfl, prologue := rfl }
      · cases grown with
        | error error => exact .pure _
        | ok c => exact .bind .memorySize fun _ => .bind (.record _) fun _ => .pure _

end Operations

section Requests

theorem handOut_inStep (size wanted : Nat) (found : Except HeapError Block) :
    InStep (A := A) (B := B) (handOut size wanted found) (handOut size wanted found) := by
  cases found with
  | error error => exact .pure _
  | ok b => exact .bind (carve_inStep b wanted) fun _ => .bind (.record _) fun _ => .pure _

theorem allocate_inStep (size : Nat) :
    InStep (A := A) (B := B) (allocate size) (allocate size) := by
  refine .bind (.lift _) fun needed => ?_
  cases needed with
  | error error => exact .pure _
  | ok wanted =>
    refine .get_bind fun h k matched => ?_
    rw [matched.config]
    refine .bind (firstFit_inStep wanted) fun fit => ?_
    cases fit with
    | some b => exact .bind (.pure _) (handOut_inStep size wanted)
    | none => exact .bind (grow_inStep _) (handOut_inStep size wanted)

theorem releaseBlock_inStep (b : Block) :
    InStep (A := A) (B := B) (releaseBlock b) (releaseBlock b) :=
  .bind (.query fun _ _ matched => matched.blockSize b) fun _ =>
    .bind (setTags_inStep _ _ _) fun _ => .bind (.record _) fun _ =>
      .discard (coalesce_inStep b)

theorem release_inStep (block : Option Block) :
    InStep (A := A) (B := B) (release block) (release block) := by
  cases block with
  | none => exact .pure _
  | some b => exact releaseBlock_inStep b

theorem reallocate_inStep (block : Option Block) (size : Nat) :
    InStep (A := A) (B := B) (reallocate block size) (reallocate block size) := by
  refine .choice (.bind (release_inStep block) fun _ => .pure _) ?_
  cases block with
  | none => exact .bind (allocate_inStep size) fun _ => .pure _
  | some old =>
    refine .bind (allocate_inStep size) fun granted => ?_
    cases granted with
    | error error => exact .pure _
    | ok new =>
      exact .bind (.query fun _ _ matched => matched.payloadSize old) fun _ =>
        .bind (copyBytes_inStep _ _ _) fun _ => .bind (releaseBlock_inStep old) fun _ =>
        .bind (.record _) fun _ => .pure _

theorem clear_inStep (b : Block) : InStep (A := A) (B := B) (clear b) (clear b) :=
  .bind (.query fun _ _ matched => matched.payloadSize b) fun _ => fillBytes_inStep _ _ _

theorem allocateZeroed_inStep (count size : Nat) :
    InStep (A := A) (B := B) (allocateZeroed count size) (allocateZeroed count size) := by
  unfold allocateZeroed
  cases times? count size with
  | none => exact .pure _
  | some bytes =>
    refine .bind (allocate_inStep bytes) fun granted => ?_
    cases granted with
    | error error => exact .pure _
    | ok b => exact .bind (clear_inStep b) fun _ => .pure _

theorem writePayload_inStep (b : Block) (start : Nat) (bytes : ByteArray) :
    InStep (A := A) (B := B) (writePayload b start bytes) (writePayload b start bytes) :=
  .bind (.query fun _ _ matched => matched.payloadSize b) fun size =>
    .bind (.query fun _ _ matched => matched.ensure b size) fun _ =>
      .skip (.throw _) fun _ => setBytes_inStep _ _

end Requests

section Creation

inductive Created (R : Heap A → Heap B → Prop) :
    EStateM.Result Fault (Array Entry) (Except HeapError (Heap A)) →
    EStateM.Result Fault (Array Entry) (Except HeapError (Heap B)) → Prop
  | made {h : Heap A} {k : Heap B} (entries : Array Entry) :
    R h k → Created R (.ok (.ok h) entries) (.ok (.ok k) entries)
  | refused (error : HeapError) (entries : Array Entry) :
    Created R (.ok (.error error) entries) (.ok (.error error) entries)
  | stopped (fault : Fault) (entries : Array Entry) :
    Created R (.error fault entries) (.error fault entries)

theorem create_inStep (matched : BoundedArena.Matches a b) (config : Config)
    (journal : Array Entry) :
    Created Matches (create a config journal) (create b config journal) := by
  have agree := initialise_inStep (bare a 0 config journal) (bare b 0 config journal)
    ⟨matched, rfl, rfl, rfl, rfl⟩
  simp only [create, EStateM.run]
  generalize initialise (bare a 0 config journal) = ended,
    initialise (bare b 0 config journal) = ended' at agree ⊢
  cases agree with
  | ok answer matched =>
    cases answer with
    | ok _ =>
      dsimp only
      rw [← matched.journal]
      exact .made _ matched
    | error error =>
      dsimp only
      rw [← matched.journal]
      exact .refused error _
  | error fault matched =>
    dsimp only
    rw [← matched.journal]
    exact .stopped fault _

end Creation

end Heap

namespace Session

structure Matches (s : Session A) (k : Session B) : Prop where
  heap : s.heap.Matches k.heap
  leases : s.leases = k.leases

theorem run_inStep (r : Request) : Heap.InStep (A := A) (B := B) r.run r.run := by
  cases r with
  | allocate size => exact .bind (Heap.allocate_inStep size) fun _ => .pure _
  | allocateZeroed count size =>
    exact .bind (Heap.allocateZeroed_inStep count size) fun _ => .pure _
  | release block => exact .bind (Heap.release_inStep block) fun _ => .pure _
  | reallocate block size => exact Heap.reallocate_inStep block size
  | write block start bytes =>
    exact .bind (Heap.writePayload_inStep block start bytes) fun _ => .pure _

theorem perform_lockstep (r : Request) :
    Lockstep (Matches (A := A) (B := B)) (perform r) (perform r) := by
  intro s k matched
  have agree := run_inStep r s.heap k.heap matched.heap
  unfold perform
  generalize r.run s.heap = ended, r.run k.heap = ended' at agree ⊢
  cases agree with
  | ok answer matched' => exact .ok answer ⟨matched', congrArg (r.settle · answer) matched.leases⟩
  | error fault matched' => exact .error fault ⟨matched', matched.leases⟩

/-- Requests of any kind, also such as break the rules, are answered alike on both arenas. -/
theorem play_lockstep (requests : List Request) :
    Lockstep (Matches (A := A) (B := B)) (play requests) (play requests) := by
  induction requests with
  | nil => exact .pure _
  | cons r rest ih => exact .bind (perform_lockstep r) fun _ => .bind ih fun _ => .pure _

end Session

end Arenas

end SegregatedFit
