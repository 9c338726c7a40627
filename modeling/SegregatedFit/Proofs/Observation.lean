import SegregatedFit.Check
import SegregatedFit.Usage

namespace SegregatedFit

/-- Two memories, perhaps kept in different ways, with the same bytes. -/
structure Memory.Same {M N : Type} [Memory M] [Memory N] (m : M) (n : N) : Prop where
  size : Memory.size m = Memory.size n
  byte : ∀ i, Memory.byte m i = Memory.byte n i

namespace Memory.Same

variable {M N : Type} [Memory M] [Memory N] {m : M} {n : N}

section Bytes

theorem update (same : Same m n) {start count : Nat} (value : Nat → UInt8)
    (inside : start + count ≤ Memory.size m) :
    Same (Memory.update m start count value) (Memory.update n start count value) where
  size := by rw [size_update, size_update, same.size]
  byte i := by
    rw [byte_update _ _ _ _ _ inside, byte_update _ _ _ _ _ (same.size ▸ inside), same.byte]

theorem ensure (same : Same m n) (start count : Nat) :
    Memory.ensure m start count = Memory.ensure n start count := by
  simp only [Memory.ensure, same.size]

theorem readNat (same : Same m n) (start count : Nat) :
    Memory.readNat m start count = Memory.readNat n start count := by
  induction count generalizing start with
  | zero => rfl
  | succ count ih => rw [Memory.readNat, Memory.readNat, same.byte, ih]

theorem word (same : Same m n) (start : Nat) : Memory.word m start = Memory.word n start := by
  simp only [Memory.word, same.ensure, same.readNat]

theorem appendRun (same : Same m n) (start count : Nat) (bytes : ByteArray) :
    Memory.appendRun m start count bytes = Memory.appendRun n start count bytes := by
  induction count generalizing start bytes with
  | zero => rfl
  | succ count ih => rw [Memory.appendRun, Memory.appendRun, same.byte, ih]

theorem slice (same : Same m n) (start count : Nat) :
    Memory.slice m start count = Memory.slice n start count := by
  simp only [Memory.slice, Memory.readRun, same.ensure, same.appendRun]

theorem last (same : Same m n) : Memory.last m = Memory.last n := by
  rw [Memory.last, Memory.last, same.size]

end Bytes

section Blocks

theorem tagAt (same : Same m n) (offset : Nat) : Block.tagAt m offset = Block.tagAt n offset := by
  simp only [Block.tagAt, same.word]

theorem tag (same : Same m n) (b : Block) : Block.tag m b = Block.tag n b := by
  simp only [Block.tag, same.tagAt]

theorem blockSize (same : Same m n) (b : Block) : Block.size m b = Block.size n b := by
  simp only [Block.size, same.tag]

theorem allocated (same : Same m n) (b : Block) : Block.allocated m b = Block.allocated n b := by
  simp only [Block.allocated, same.tag]

theorem next (same : Same m n) (b : Block) : Block.next m b = Block.next n b := by
  simp only [Block.next, same.blockSize]

theorem prev (same : Same m n) (b : Block) : Block.prev m b = Block.prev n b := by
  simp only [Block.prev, same.tagAt]

theorem link (same : Same m n) (b : Block) : Block.link m b = Block.link n b := by
  simp only [Block.link, same.ensure, same.readNat]

theorem payloadSize (same : Same m n) (b : Block) :
    Block.payloadSize m b = Block.payloadSize n b := by
  simp only [Block.payloadSize, same.blockSize]

theorem walk (same : Same m n) (limit : Nat) (b : Block) :
    Block.walk m limit b = Block.walk n limit b := by
  induction limit generalizing b with
  | zero => rfl
  | succ limit ih => simp only [Block.walk, same.size, same.tag, ih]

end Blocks

section Lists

theorem seek (same : Same m n) (test : Tag → Block → Bool) (fuel : Nat) (b : Block) :
    FreeLists.seek m test fuel b = FreeLists.seek n test fuel b := by
  induction fuel generalizing b with
  | zero => rfl
  | succ fuel ih => simp only [FreeLists.seek, same.tag, same.link, ih]

theorem find? (same : Same m n) (test : Tag → Block → Bool) (b : Block) :
    FreeLists.find? m test b = FreeLists.find? n test b := by
  simp only [FreeLists.find?, same.size, same.seek]

theorem take (same : Same m n) (limit : Nat) (b : Block) :
    FreeLists.take m limit b = FreeLists.take n limit b := by
  induction limit generalizing b with
  | zero => rfl
  | succ limit ih => simp only [FreeLists.take, same.allocated, same.link, ih]

theorem firstFit (same : Same m n) (lists : FreeLists) (size : Nat) :
    lists.firstFit m size = lists.firstFit n size := by
  have searched : ∀ classes, lists.firstFitIn m size classes = lists.firstFitIn n size classes := by
    intro classes
    induction classes with
    | nil => rfl
    | cons cls classes ih => simp only [FreeLists.firstFitIn, same.find?, ih]
  simp only [FreeLists.firstFit, searched]

end Lists

section Checking

theorem prologue (same : Same m n) (b : Block) : Check.prologue m b = Check.prologue n b := by
  simp only [Check.prologue, same.tag, same.tagAt]

theorem outside (same : Same m n) (b : Block) : Check.outside m b = Check.outside n b := by
  simp only [Check.outside, same.last, same.size]

theorem follow (same : Same m n) (room : Nat) (b : Block) (seen : List Block) :
    Check.follow m room b seen = Check.follow n room b seen := by
  induction room generalizing b seen with
  | zero => simp only [Check.follow, same.outside, same.allocated]
  | succ room ih => simp only [Check.follow, same.outside, same.allocated, same.link, ih]

theorem followAll (same : Same m n) (lists : FreeLists) (classes : List SizeClass) :
    Check.followAll m lists classes = Check.followAll n lists classes := by
  induction classes with
  | nil => rfl
  | cons cls classes ih =>
    simp only [Check.followAll, Check.listRoom, same.size, same.follow, ih]

theorem survey (same : Same m n) (fuel : Nat) (b : Block) :
    Check.survey m fuel b = Check.survey n fuel b := by
  induction fuel generalizing b with
  | zero => rfl
  | succ fuel ih => simp only [Check.survey, same.size, same.tag, ih]

theorem blocks (same : Same m n) (listed : Check.Listed) (freeBefore : Option Block)
    (spans : List Span) :
    Check.blocks m listed freeBefore spans = Check.blocks n listed freeBefore spans := by
  induction spans generalizing freeBefore with
  | nil => rfl
  | cons span spans ih => simp only [Check.blocks, Check.block, same.tagAt, ih]

end Checking

end Memory.Same

namespace Heap

variable {M N : Type} [Memory M] [Memory N] {h : Heap M} {k : Heap N}

structure Same (h : Heap M) (k : Heap N) : Prop where
  memory : Memory.Same h.memory k.memory
  lists : h.lists = k.lists
  prologue : h.prologue = k.prologue
  config : h.config = k.config
  journal : h.journal = k.journal

namespace Same

theorem firstBlock (same : Same h k) : h.firstBlock = k.firstBlock := by
  simp only [Heap.firstBlock, same.prologue]

theorem chain (same : Same h k) : h.chain = k.chain := by
  simp only [Heap.chain, Block.chain, same.firstBlock, same.memory.size, same.memory.walk]

theorem usage (same : Same h k) : h.usage = k.usage := by
  simp only [Heap.usage, same.chain, same.memory.size]

theorem list (same : Same h k) (limit : Nat) (cls : SizeClass) :
    h.list limit cls = k.list limit cls := by
  simp only [Heap.list, same.lists, same.memory.take]

theorem snapshot (same : Same h k) (limit : Nat) : h.snapshot limit = k.snapshot limit := by
  simp only [Heap.snapshot, same.firstBlock, same.memory.walk, same.list]

theorem violations (same : Same h k) : h.violations = k.violations := by
  simp only [Heap.violations, same.prologue, same.lists, same.firstBlock, same.memory.size,
    same.memory.prologue, same.memory.followAll, same.memory.survey, same.memory.blocks]

end Same

end Heap

end SegregatedFit
