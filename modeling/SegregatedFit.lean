import SegregatedFit.Arena.Buffer
import SegregatedFit.Check
import SegregatedFit.LazyHeap
import SegregatedFit.Usage
import SegregatedFit.Proofs.Lists
import SegregatedFit.Proofs.Rounding
import SegregatedFit.Proofs.Codec
import SegregatedFit.Proofs.Threads
import SegregatedFit.Proofs.Filing
import SegregatedFit.Proofs.Tiling
import SegregatedFit.Proofs.View
import SegregatedFit.Proofs.Coalescing
import SegregatedFit.Proofs.Carving
import SegregatedFit.Proofs.Growth
import SegregatedFit.Proofs.Requests
import SegregatedFit.Proofs.Consistency
import SegregatedFit.Proofs.Checking
import SegregatedFit.Session
import SegregatedFit.Proofs.Sessions
import SegregatedFit.Proofs.Guarantees
import SegregatedFit.Proofs.Effects
import SegregatedFit.Proofs.Reachability
import SegregatedFit.Proofs.Failures
import SegregatedFit.Proofs.Canonical
import SegregatedFit.Proofs.Damage
import SegregatedFit.Proofs.Transitions
import SegregatedFit.Proofs.Noninterference
import SegregatedFit.Proofs.Diagnostics
import SegregatedFit.Proofs.Creation
import SegregatedFit.Proofs.Acceptance
import SegregatedFit.LazySession
import SegregatedFit.Proofs.Cramped
import SegregatedFit.Proofs.Laziness
import SegregatedFit.Proofs.LazySessions
import SegregatedFit.Proofs.Allocation
import SegregatedFit.Proofs.Sizing
import SegregatedFit.Proofs.Replay
import SegregatedFit.Proofs.Observation
import SegregatedFit.Proofs.Lockstep
import SegregatedFit.Proofs.Interchange
import SegregatedFit.Proofs.Shifting
import SegregatedFit.Proofs.Relocation
import SegregatedFit.Proofs.Regularity
import SegregatedFit.Proofs.Search
import SegregatedFit.Proofs.Borders
import SegregatedFit.Proofs.Shelves
import SegregatedFit.Proofs.Extension
import SegregatedFit.Proofs.Resizing
import SegregatedFit.Proofs.Accounting
import SegregatedFit.Proofs.Reuse
import SegregatedFit.Proofs.Absence
import SegregatedFit.Proofs.Confinement
import SegregatedFit.Proofs.Endless
import SegregatedFit.Proofs.Zeroing
import SegregatedFit.Proofs.Traversal
import SegregatedFit.Proofs.Readback
