namespace SegregatedFit

inductive ConfigError
  | chunkNotAligned
  | chunkTooLarge
  | heapTooLarge
  | heapTooSmall
  | breakNotAligned
  deriving DecidableEq, Repr

def ConfigError.text : ConfigError → String
  | .chunkNotAligned => "chunk size must be a non zero multiple of 8"
  | .chunkTooLarge => "chunk size does not fit in a boundary tag"
  | .heapTooLarge => "max heap is larger than the biggest block a boundary tag can describe"
  | .heapTooSmall => "max heap can not hold the sentinels and the first chunk"
  | .breakNotAligned => "arena provider break is not 8 byte aligned"

inductive HeapError
  | arenaExhausted (requested heapSize : Nat)
  | sizeOverflow (requested : Nat)
  | invalidConfig (reason : ConfigError)
  deriving DecidableEq, Repr

def HeapError.text : HeapError → String
  | .arenaExhausted requested heapSize =>
    s!"arena exhausted: could not extend a {heapSize} byte heap by {requested} bytes"
  | .sizeOverflow requested => s!"allocation of {requested} bytes is too large"
  | .invalidConfig reason => "invalid heap configuration: " ++ reason.text

end SegregatedFit
