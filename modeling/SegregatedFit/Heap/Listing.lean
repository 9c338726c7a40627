import SegregatedFit.Heap.Basic

namespace SegregatedFit

namespace Heap

variable {M : Type} [Memory M]

def insert (b : Block) : HeapM M Unit := do
  let cls := SizeClass.ofSize (← query (Block.size · b))
  setLink b (← head cls)
  setHead cls b
  record (.pushed cls b)

/-- Takes `b` off the list of its size. A list that becomes empty starts with the terminator. -/
def remove (b : Block) : HeapM M Unit := do
  let cls := SizeClass.ofSize (← query (Block.size · b))
  let next ← query (Block.link · b)
  let last ← query (Block.allocated · next)
  let first ← head cls
  let terminator := (← get).lists.terminator
  if first = b then
    setHead cls (if last then terminator else next)
    record (.poppedHead cls b)
  else
    match ← query (FreeLists.find? · (fun _ link => link == b) first) with
    | some before =>
      setLink before next
      record (.unlinked cls b)
    | none => throw (.notListed b cls)

def firstFit (size : Nat) : HeapM M (Option Block) := do
  let lists := (← get).lists
  query (lists.firstFit · size)

end Heap

end SegregatedFit
