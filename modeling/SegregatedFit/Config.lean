import SegregatedFit.Block
import SegregatedFit.HeapError

namespace SegregatedFit

/-- The padding word, the prologue and the epilogue. -/
def sentinelBytes : Nat := 16

structure Config where
  maxHeap : Nat := 20 * (1 <<< 20)
  chunkSize : Nat := 256
  deriving DecidableEq, Repr, Inhabited

def Config.validate (config : Config) : Except ConfigError Unit :=
  if config.chunkSize = 0 ∨ config.chunkSize % Block.overhead ≠ 0 then .error .chunkNotAligned
  else if Tag.maxSize < config.chunkSize then .error .chunkTooLarge
  else if Tag.maxSize < config.maxHeap then .error .heapTooLarge
  else if config.maxHeap < sentinelBytes + config.chunkSize then .error .heapTooSmall
  else .ok ()

end SegregatedFit
