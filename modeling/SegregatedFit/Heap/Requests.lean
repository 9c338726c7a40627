import SegregatedFit.Heap.Growth

namespace SegregatedFit

namespace Heap

variable {A : Type} [Arena A]

def blockSizeFor (size : Nat) : Except Fault (Except HeapError Nat) := do
  if offsetLimit ≤ size + Block.overhead then return .error (.sizeOverflow size)
  match ← roundUp? (size + Block.overhead) Block.alignment with
  | none => return .error (.sizeOverflow size)
  | some rounded =>
    if Tag.maxSize < rounded then return .error (.sizeOverflow size)
    return .ok (max rounded Block.minSize)

def allocate (size : Nat) : HeapM A (Except HeapError Block) := do
  match ← blockSizeFor size with
  | .error error => return .error error
  | .ok wanted =>
    let config := (← get).config
    let found ← match ← firstFit wanted with
      | some b => pure (.ok b)
      | none => grow (max wanted config.chunkSize)
    match found with
    | .error error => return .error error
    | .ok b =>
      carve b wanted
      record (.allocated size b)
      return .ok b

def releaseBlock (b : Block) : HeapM A Unit := do
  let size ← query (Block.size · b)
  setTags b size false
  record (.released b size)
  discard <| coalesce b

/-- Frees a block that is in use, which nothing checks. -/
def release (block : Option Block) : HeapM A Unit := do
  if let some b := block then releaseBlock b

/-- Moves the contents of a block into a new one of `size` bytes. Without a block it only allocates,
for no bytes it only frees, and if it fails the block stays as it was. -/
def reallocate (block : Option Block) (size : Nat) : HeapM A (Except HeapError (Option Block)) := do
  if size = 0 then
    release block
    return .ok none
  match block with
  | none => return (← allocate size).map some
  | some old =>
    match ← allocate size with
    | .error error => return .error error
    | .ok new =>
      let count := min (← query (Block.payloadSize · old)) size
      copyBytes old new count
      releaseBlock old
      record (.reallocated old new count)
      return .ok (some new)

def clear (b : Block) : HeapM A Unit := do
  fillBytes b (← query (Block.payloadSize · b)) 0

def allocateZeroed (count size : Nat) : HeapM A (Except HeapError Block) := do
  match times? count size with
  | none => return .error (.sizeOverflow (offsetLimit - 1))
  | some bytes =>
    match ← allocate bytes with
    | .error error => return .error error
    | .ok b =>
      clear b
      return .ok b

def payload (b : Block) : HeapM A ByteArray := do
  let size ← query (Block.payloadSize · b)
  query (Memory.slice · b size)

def writePayload (b : Block) (start : Nat) (bytes : ByteArray) : HeapM A Unit := do
  let size ← query (Block.payloadSize · b)
  query fun m => Memory.ensure m b size
  unless start + bytes.size ≤ size do throw .outOfBounds
  setBytes (b + start) bytes

def fillPayload (b : Block) (count : Option Nat) (value : UInt8) : HeapM A Unit := do
  let size ← query (Block.payloadSize · b)
  query fun m => Memory.ensure m b size
  unless count.getD size ≤ size do throw .outOfBounds
  fillBytes b (count.getD size) value

end Heap

end SegregatedFit
