import SegregatedFit.Config
import SegregatedFit.FreeLists
import SegregatedFit.Journal
import SegregatedFit.Memory.Run

namespace SegregatedFit

structure Heap (M : Type) where
  memory : M
  lists : FreeLists
  prologue : Nat
  config : Config
  journal : Array Entry

abbrev HeapM (M : Type) := EStateM Fault (Heap M)

instance {M : Type} : MonadLift (Except Fault) (HeapM M) where
  monadLift
    | .ok a => pure a
    | .error fault => throw fault

namespace Heap

variable {M : Type} [Memory M]

def bare (memory : M) (terminator : Block) (config : Config) (journal : Array Entry) : Heap M where
  memory := memory
  lists := .empty terminator
  prologue := terminator
  config := config
  journal := journal

def firstBlock (h : Heap M) : Except Fault Block := plus h.prologue Block.overhead

def chain (h : Heap M) : Except Fault (List Span) := do Block.chain h.memory (← h.firstBlock)

@[inline] def query {α : Type} (read : M → Except Fault α) : HeapM M α := fun h =>
  match read h.memory with
  | .ok a => .ok a h
  | .error fault => .error fault h

@[inline] def write (change : M → M) : HeapM M Unit :=
  modify fun h => { h with memory := change h.memory }

def record (entry : Entry) : HeapM M Unit :=
  modify fun h => { h with journal := h.journal.push entry }

def memorySize : HeapM M Nat := return Memory.size (← get).memory

def setNat (offset bytes value : Nat) : HeapM M Unit := do
  query fun m => Memory.ensure m offset bytes
  write fun m => Memory.writeNat m offset bytes value

def setTag (offset : Nat) (tag : Tag) : HeapM M Unit := setNat offset Tag.bytes tag.word.toNat

def setTags (b : Block) (size : Nat) (allocated : Bool) : HeapM M Unit := do
  let tag ← Tag.pack size allocated
  setTag (← Block.headerOffset b) tag
  setTag (← Block.footerOffset b size) tag

def setLink (b next : Block) : HeapM M Unit := setNat b Block.linkBytes next

def setBytes (offset : Nat) (bytes : ByteArray) : HeapM M Unit := do
  query fun m => Memory.ensure m offset bytes.size
  write fun m => Memory.writeRun m offset bytes

def fillBytes (offset count : Nat) (value : UInt8) : HeapM M Unit := do
  query fun m => Memory.ensure m offset count
  write fun m => Memory.fill m offset count value

/-- Moves bytes as if through a buffer: the two ranges may overlap. -/
def copyBytes (source target count : Nat) : HeapM M Unit := do
  let bytes ← query fun m => Memory.slice m source count
  setBytes target bytes

def head (cls : SizeClass) : HeapM M Block := return (← get).lists.head cls

def setHead (cls : SizeClass) (b : Block) : HeapM M Unit :=
  modify fun h => { h with lists := h.lists.setHead cls b }

end Heap

end SegregatedFit
