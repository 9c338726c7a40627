import SegregatedFit.Heap.Basic

namespace SegregatedFit

structure Usage where
  heapSize : Nat := 0
  allocatedBlocks : Nat := 0
  allocatedBytes : Nat := 0
  freeBlocks : Nat := 0
  freeBytes : Nat := 0
  largestFree : Nat := 0
  deriving DecidableEq, Repr, Inhabited

def Usage.count (usage : Usage) (span : Span) : Usage :=
  let size := span.tag.size
  if span.tag.allocated then
    { usage with
      allocatedBlocks := usage.allocatedBlocks + 1
      allocatedBytes := usage.allocatedBytes + size }
  else
    { usage with
      freeBlocks := usage.freeBlocks + 1
      freeBytes := usage.freeBytes + size
      largestFree := max usage.largestFree size }

structure Snapshot where
  blocks : List Span
  free : List (SizeClass × List Block)
  deriving DecidableEq, Repr

namespace Heap

variable {M : Type} [Memory M]

def usage (h : Heap M) : Except Fault Usage := do
  return (← h.chain).foldl Usage.count { heapSize := Memory.size h.memory }

def list (h : Heap M) (limit : Nat) (cls : SizeClass) : Except Fault (List Block) :=
  FreeLists.take h.memory limit (h.lists.head cls)

def snapshot (h : Heap M) (limit : Nat) : Except Fault Snapshot := do
  let blocks ← Block.walk h.memory limit (← h.firstBlock)
  let lists ← SizeClass.all.mapM fun cls => return (cls, ← h.list limit cls)
  return ⟨blocks, lists.filter fun entry => !entry.2.isEmpty⟩

end Heap

end SegregatedFit
