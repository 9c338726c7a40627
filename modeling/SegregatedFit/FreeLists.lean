import SegregatedFit.Block

/-!
The segregated free lists: one list of free blocks for each size class. Only the heads are kept
here, a block of a list names the next one in its payload, and a list ends at the first block that
is allocated. The terminator is such a block, and all empty lists start with it.
-/

namespace SegregatedFit

structure FreeLists where
  heads : Vector Nat 25
  terminator : Nat
  deriving DecidableEq, Repr

namespace FreeLists

def empty (terminator : Block) : FreeLists := ⟨Vector.replicate 25 terminator, terminator⟩

def head (lists : FreeLists) (cls : SizeClass) : Nat := lists.heads[cls]

def setHead (lists : FreeLists) (cls : SizeClass) (b : Block) : FreeLists :=
  { lists with heads := lists.heads.set cls b }

variable {M : Type} [Memory M]

def seek (m : M) (test : Tag → Block → Bool) : Nat → Block → Except Fault (Option Block)
  | 0, _ => .error .endless
  | fuel + 1, b => do
    let tag ← Block.tag m b
    if tag.allocated then return none
    let next ← Block.link m b
    if test tag next then return some b
    seek m test fuel next

/-- A list that ends visits a block at most once, so its length is bounded by the memory. -/
def find? (m : M) (test : Tag → Block → Bool) (b : Block) : Except Fault (Option Block) :=
  seek m test (Memory.size m + 1) b

def take (m : M) : Nat → Block → Except Fault (List Block)
  | 0, _ => return []
  | limit + 1, b => do
    if ← Block.allocated m b then return []
    let rest ← take m limit (← Block.link m b)
    return b :: rest

def firstFitIn (lists : FreeLists) (m : M) (size : Nat) :
    List SizeClass → Except Fault (Option Block)
  | [] => return none
  | cls :: classes => do
    match ← find? m (fun tag _ => size ≤ tag.size) (lists.head cls) with
    | some b => return some b
    | none => firstFitIn lists m size classes

/-- The first block of at least `size` bytes, searched from the class of that size upwards. -/
def firstFit (lists : FreeLists) (m : M) (size : Nat) : Except Fault (Option Block) := do
  let first ← SizeClass.ofRequest size
  firstFitIn lists m size (SizeClass.all.drop first)

@[simp] theorem head_empty (terminator : Block) (cls : SizeClass) :
    (empty terminator).head cls = terminator := by
  simp [empty, head]

theorem head_setHead (lists : FreeLists) (cls other : SizeClass) (b : Block) :
    (lists.setHead cls b).head other = if other = cls then b else lists.head other := by
  simp [head, setHead, Vector.getElem_set, Fin.ext_iff, eq_comm]

end FreeLists

end SegregatedFit
