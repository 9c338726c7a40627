import SegregatedFit.Arena.Reservation
import SegregatedFit.Heap.Carving

namespace SegregatedFit

namespace Heap

variable {A : Type} [Arena A]

def extendArena (size : Nat) : HeapM A (Option Nat) := do
  let start ← memorySize
  if ← query (Arena.admits · size) then
    write (Arena.extend · size)
    return some start
  return none

/-- Adds a free block of at least `bytes` at the end, where the epilogue was, and merges it with the
block in front. -/
def grow (bytes : Nat) : HeapM A (Except HeapError Block) := do
  let size ← roundUp bytes Block.alignment
  let heapSize ← memorySize
  let start ← if heapSize + size ≤ Tag.maxSize then extendArena size else pure none
  match start with
  | none =>
    record (.exhausted heapSize size)
    return .error (.arenaExhausted size heapSize)
  | some b =>
    setTags b size false
    let epilogue ← query (Block.next · b)
    setTag (← Block.headerOffset epilogue) (← Tag.pack 0 true)
    record (.extended size b)
    return .ok (← coalesce b)

def initialise : HeapM A (Except HeapError Unit) := do
  let config := (← get).config
  if let .error reason := config.validate then return .error (.invalidConfig reason)
  match ← extendArena sentinelBytes with
  | none => return .error (.arenaExhausted sentinelBytes (← memorySize))
  | some start =>
    if start % Block.alignment ≠ 0 then return .error (.invalidConfig .breakNotAligned)
    let prologue := start + Block.overhead
    setNat start Tag.bytes 0
    setTag (start + 4) (← Tag.pack Block.overhead true)
    setTag (start + 8) (← Tag.pack Block.overhead true)
    setTag (start + 12) (← Tag.pack 0 true)
    modify fun h => { h with lists := .empty prologue, prologue := prologue }
    match ← grow config.chunkSize with
    | .error error => return .error error
    | .ok _ =>
      record (.initialised prologue (← memorySize))
      return .ok ()

/-- A heap in `arena`, or the error that kept it from coming about. All that happened is in the
journal, and in that of the heap. -/
def create (arena : A) (config : Config) : EStateM Fault (Array Entry) (Except HeapError (Heap A)) :=
  fun journal =>
    match initialise.run (bare arena 0 config journal) with
    | .ok (.ok ()) h => .ok (.ok h) h.journal
    | .ok (.error error) h => .ok (.error error) h.journal
    | .error fault h => .error fault h.journal

def reserve (system : System) (config : Config) :
    EStateM Fault (Array Entry) (Except HeapError (Heap Reservation)) := do
  if let .error reason := config.validate then return .error (.invalidConfig reason)
  match ← Reservation.acquire system config.maxHeap with
  | .error error => return .error error
  | .ok arena => create arena config

end Heap

end SegregatedFit
