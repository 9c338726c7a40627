import SegregatedFit.Heap.Requests

/-!
A session is a heap together with what its clients hold of it: the live blocks, the size each was
asked for, and what its owner last wrote to its payload. A client keeps to the rules of the heap if
it frees, resizes and writes to live blocks only, and writes within their payloads.
-/

namespace SegregatedFit

/-- A live block; `contents i` is what its owner last wrote to byte `i` of the payload, if anything.
-/
structure Lease where
  block : Nat
  size : Nat
  contents : Nat → Option UInt8

structure Session (A : Type) where
  heap : Heap A
  leases : List Lease

inductive Request
  | allocate (size : Nat)
  | allocateZeroed (count size : Nat)
  | release (block : Option Nat)
  | reallocate (block : Option Nat) (size : Nat)
  | write (block start : Nat) (bytes : ByteArray)

abbrev Answer := Except HeapError (Option Block)

namespace Lease

def known (leases : List Lease) (block i : Nat) : Option UInt8 :=
  (leases.find? (·.block == block)).bind (·.contents i)

def without (leases : List Lease) (block : Nat) : List Lease :=
  leases.filter (·.block != block)

def write (start : Nat) (bytes : ByteArray) (l : Lease) : Lease :=
  { l with
    contents := fun i =>
      if start ≤ i ∧ i < start + bytes.size then some (Bytes.get bytes (i - start))
      else l.contents i }

end Lease

namespace Request

variable {A : Type} [Arena A]

def target : Request → Option Nat
  | .allocate _ | .allocateZeroed _ _ => none
  | .release block | .reallocate block _ => block
  | .write block _ _ => some block

def fits (h : Heap A) : Request → Bool
  | .write b start bytes =>
    match Block.payloadSize h.memory b with
    | .ok size => start + bytes.size ≤ size
    | .error _ => false
  | _ => true

/-- The target is live, and a write fits in it. -/
def allowed (s : Session A) (r : Request) : Bool :=
  r.target.all (fun b => (s.leases.map Lease.block).contains b) && r.fits s.heap

def run : Request → HeapM A Answer
  | .allocate size => return (← Heap.allocate size).map some
  | .allocateZeroed count size => return (← Heap.allocateZeroed count size).map some
  | .release block => do
    Heap.release block
    return .ok none
  | .reallocate block size => Heap.reallocate block size
  | .write block start bytes => do
    Heap.writePayload block start bytes
    return .ok none

/-- The leases after the answer. A resized block keeps its contents up to the new size. -/
def settle (leases : List Lease) : Request → Answer → List Lease
  | .allocate size, .ok (some b) => ⟨b, size, fun _ => none⟩ :: leases
  | .allocateZeroed count size, .ok (some b) =>
    ⟨b, count * size, fun i => if i < count * size then some 0 else none⟩ :: leases
  | .release (some b), .ok _ => Lease.without leases b
  | .reallocate none size, .ok (some b) => ⟨b, size, fun _ => none⟩ :: leases
  | .reallocate (some old) _, .ok none => Lease.without leases old
  | .reallocate (some old) size, .ok (some b) =>
    ⟨b, size, fun i => if i < size then Lease.known leases old i else none⟩ ::
      Lease.without leases old
  | .write b start bytes, .ok _ =>
    leases.map fun l => if l.block = b then l.write start bytes else l
  | _, _ => leases

end Request

namespace Session

variable {A : Type} [Arena A]

def perform (r : Request) : EStateM Fault (Session A) Answer := fun s =>
  match r.run s.heap with
  | .ok answer h => .ok answer ⟨h, r.settle s.leases answer⟩
  | .error fault h => .error fault ⟨h, s.leases⟩

def play : List Request → EStateM Fault (Session A) (List Answer)
  | [] => return []
  | r :: rest => do
    let answer ← perform r
    let answers ← play rest
    return answer :: answers

/-- Whether each request is allowed when its turn comes. -/
def honours : List Request → Session A → Bool
  | [], _ => true
  | r :: rest, s => r.allowed s &&
    match perform r s with
    | .ok _ s' => honours rest s'
    | .error _ _ => true

end Session

end SegregatedFit
