import SegregatedFit.Heap.Listing

namespace SegregatedFit

namespace Heap

variable {M : Type} [Memory M]

/-- Merges the free block `b`, which is on no list, with its free neighbours and lists the result.
-/
def coalesce (b : Block) : HeapM M Block := do
  let prev ← query (Block.prev · b)
  let next ← query (Block.next · b)
  let prevAllocated ← query (Block.allocated · prev)
  let nextAllocated ← query (Block.allocated · next)
  let size ← query (Block.size · b)
  unless nextAllocated do remove next
  unless prevAllocated do remove prev
  let before ← if prevAllocated then pure 0 else query (Block.size · prev)
  let behind ← if nextAllocated then pure 0 else query (Block.size · next)
  let merged := if prevAllocated then b else prev
  let total := before + size + behind
  unless prevAllocated && nextAllocated do setTags merged total false
  record (.coalesced b prevAllocated nextAllocated merged total)
  insert merged
  return merged

/-- Takes `size` bytes of the free block `b` into use. What is left becomes a free block, or stays a
part of `b` if it is too small for one. -/
def carve (b : Block) (size : Nat) : HeapM M Unit := do
  let whole ← query (Block.size · b)
  unless size ≤ whole do throw (.tooSmall size whole)
  remove b
  let left := whole - size
  if Block.minSize ≤ left then
    setTags b size true
    let rest ← query (Block.next · b)
    setTags rest left false
    record (.carved b size rest left)
    discard <| coalesce rest
  else
    setTags b whole true
    record (.taken b size whole)

end Heap

end SegregatedFit
