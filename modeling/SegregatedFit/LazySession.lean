import SegregatedFit.LazyHeap
import SegregatedFit.Session

namespace SegregatedFit

structure Holding where
  address : Nat
  size : Nat
  deriving DecidableEq, Repr

def Lease.holding (base : Nat) (l : Lease) : Holding := ⟨base + l.block, l.size⟩

structure LazySession where
  heap : LazyHeap
  live : List Holding

/-- The last of these is no call of the heap: the client writes to its own memory. -/
inductive Call
  | alloc (layout : Layout)
  | allocZeroed (layout : Layout)
  | realloc (address : Nat) (layout : Layout) (size : Nat)
  | dealloc (address : Nat)
  | write (address start : Nat) (bytes : ByteArray)

def LazyHeap.write (address start : Nat) (bytes : ByteArray) : LazyM Unit := do
  let done ← step do
    Heap.setBytes ((← blockAt address) + start) bytes
    return some ()
  if done.isNone then throw .outOfBounds

def Holding.without (live : List Holding) (address : Nat) : List Holding :=
  live.filter (·.address != address)

namespace Call

def layout? : Call → Option Layout
  | .alloc layout | .allocZeroed layout | .realloc _ layout _ => some layout
  | .dealloc _ | .write _ _ _ => none

def allowed (live : List Holding) : Call → Bool
  | .alloc _ | .allocZeroed _ => true
  | .realloc address _ _ | .dealloc address => (live.map Holding.address).contains address
  | .write address start bytes =>
    live.any fun held => held.address == address && start + bytes.size ≤ held.size

def run : Call → LazyM (Option Nat)
  | .alloc layout => LazyHeap.alloc layout
  | .allocZeroed layout => LazyHeap.allocZeroed layout
  | .realloc address layout size => LazyHeap.realloc address layout size
  | .dealloc address => do
    LazyHeap.dealloc address
    return none
  | .write address start bytes => do
    LazyHeap.write address start bytes
    return none

/-- What is live after the answer. Resizing to nothing gives the memory back, unless the call was
turned down for the alignment it asked for. -/
def settle (live : List Holding) : Call → Option Nat → List Holding
  | .alloc layout, some address | .allocZeroed layout, some address =>
    ⟨address, layout.size⟩ :: live
  | .realloc old _ size, some new => ⟨new, size⟩ :: Holding.without live old
  | .realloc old layout size, none =>
    if size = 0 ∧ layout.align ≤ Block.alignment then Holding.without live old else live
  | .dealloc address, _ => Holding.without live address
  | _, _ => live

/-- What the call asks of a heap in a region at `base`: nothing, if its layout wants more than the
alignment of a block. -/
def request? (base : Nat) : Call → Option Request
  | .alloc layout => if layout.align ≤ Block.alignment then some (.allocate layout.size) else none
  | .allocZeroed layout =>
    if layout.align ≤ Block.alignment then some (.allocateZeroed 1 layout.size) else none
  | .realloc address layout size =>
    if layout.align ≤ Block.alignment then some (.reallocate (some (address - base)) size) else none
  | .dealloc address => some (.release (some (address - base)))
  | .write address start bytes => some (.write (address - base) start bytes)

def pointer (base : Nat) : Answer → Option Nat
  | .ok (some b) => some (base + b)
  | .ok none | .error _ => none

def serve (base : Nat) (call : Call) : EStateM Fault (Session Reservation) (Option Nat) :=
  match call.request? base with
  | none => return none
  | some r => return pointer base (← Session.perform r)

end Call

namespace LazySession

def start (system : System) (config : Config) : LazySession := ⟨.new system config, []⟩

def perform (call : Call) : EStateM Fault LazySession (Option Nat) := fun t =>
  match call.run t.heap with
  | .ok answer l => .ok answer ⟨l, call.settle t.live answer⟩
  | .error fault l => .error fault ⟨l, t.live⟩

def honours : List Call → LazySession → Bool
  | [], _ => true
  | call :: rest, t => call.allowed t.live &&
    match perform call t with
    | .ok _ t' => honours rest t'
    | .error _ _ => true

/-- The session with the lazy heap has come as far as the other, whose heap started as `h`: both
have the same heap, with the same blocks live. -/
structure Mirrors (h : Heap Reservation) (t : LazySession) (s : Session Reservation) : Prop where
  heap : t.heap.heap.getD h = s.heap
  live : t.live = s.leases.map (Lease.holding h.memory.base)

/-- Both sessions end with the same answer or the same fault, and as far as each other. -/
inductive Agree {α : Type} (h : Heap Reservation) :
    EStateM.Result Fault LazySession α → EStateM.Result Fault (Session Reservation) α → Prop
  | answered {a : α} {t : LazySession} {s : Session Reservation} :
    Mirrors h t s → Agree h (.ok a t) (.ok a s)
  | faulted {fault : Fault} {t : LazySession} {s : Session Reservation} :
    Mirrors h t s → Agree h (.error fault t) (.error fault s)

end LazySession

end SegregatedFit
