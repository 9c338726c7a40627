import SegregatedFit.Heap.Requests

/-!
A heap that comes into being with the first request, and answers with addresses instead of blocks.
A request that fails for whatever reason answers no address. If the heap cannot be made, the next
request tries again.
-/

namespace SegregatedFit

structure Layout where
  size : Nat
  align : Nat
  align_two_pow : 1 <<< align.log2 = align
  fits : size + align ≤ 1 <<< 63

def Layout.of? (size align : Nat) : Option Layout :=
  if valid : 1 <<< align.log2 = align ∧ size + align ≤ 1 <<< 63 then
    some ⟨size, align, valid.1, valid.2⟩
  else none

structure LazyHeap where
  system : System
  config : Config
  heap : Option (Heap Reservation)
  /-- The entries from before there was a heap. -/
  attempts : Array Entry

abbrev LazyM := EStateM Fault LazyHeap

namespace LazyHeap

def new (system : System) (config : Config) : LazyHeap := ⟨system, config, none, #[]⟩

def journal (l : LazyHeap) : Array Entry :=
  match l.heap with
  | some h => h.journal
  | none => l.attempts

def ensureHeap : LazyM Unit := fun l =>
  match l.heap with
  | some _ => .ok () l
  | none =>
    match Heap.reserve l.system l.config l.attempts with
    | .ok (.ok h) _ => .ok () { l with heap := some h }
    | .ok (.error _) entries => .ok () { l with attempts := entries }
    | .error fault entries => .error fault { l with attempts := entries }

def step {α : Type} (action : HeapM Reservation (Option α)) : LazyM (Option α)
  | ⟨system, config, some h, attempts⟩ =>
    match action h with
    | .ok a h => .ok a ⟨system, config, some h, attempts⟩
    | .error fault h => .error fault ⟨system, config, some h, attempts⟩
  | l => .ok none l

def withHeap {α : Type} (action : HeapM Reservation (Option α)) : LazyM (Option α) := do
  ensureHeap
  step action

def addressOf (b : Block) : HeapM Reservation Nat := return (← get).memory.address b

def blockAt (address : Nat) : HeapM Reservation Block := return (← get).memory.offset address

def addressOfAnswer : Except HeapError (Option Block) → HeapM Reservation (Option Nat)
  | .ok (some b) => return some (← addressOf b)
  | .ok none | .error _ => return none

/-- Blocks have eight byte alignment, so nothing stricter can be served. -/
def served (layout : Layout) : Bool := layout.align ≤ Block.alignment

def alloc (layout : Layout) : LazyM (Option Nat) := do
  if !served layout then return none
  withHeap do addressOfAnswer ((← Heap.allocate layout.size).map some)

def allocZeroed (layout : Layout) : LazyM (Option Nat) := do
  if !served layout then return none
  withHeap do addressOfAnswer ((← Heap.allocateZeroed 1 layout.size).map some)

def realloc (address : Nat) (layout : Layout) (size : Nat) : LazyM (Option Nat) := do
  if !served layout then return none
  withHeap do addressOfAnswer (← Heap.reallocate (some (← blockAt address)) size)

def dealloc (address : Nat) : LazyM Unit := do
  discard <| withHeap (α := Unit) do
    Heap.release (some (← blockAt address))
    return none

def read (address count : Nat) : LazyM ByteArray := do
  let bytes ← step do
    let b ← blockAt address
    return some (← Heap.query (Memory.slice · b count))
  match bytes with
  | some bytes => return bytes
  | none => throw .outOfBounds

def fill (address count : Nat) (value : UInt8) : LazyM Unit := do
  let done ← step do
    Heap.fillBytes (← blockAt address) count value
    return some ()
  if done.isNone then throw .outOfBounds

end LazyHeap

end SegregatedFit
