import SplitOrder.Lib.Runs
import SplitOrder.Lib.Chain
import SplitOrder.Lib.Cuts
import SplitOrder.Lib.Sums
import SplitOrder.Lib.BitReverse
import SplitOrder.Lib.Bitmap
import SplitOrder.Lib.BinarySearch
import SplitOrder.Lib.Loops
import SplitOrder.Lib.Linearizable
import SplitOrder.Lib.Progress
import SplitOrder.MarkPtr
import SplitOrder.MarkWord
import SplitOrder.Castest
import SplitOrder.Castest.Program
import SplitOrder.Solist.Key
import SplitOrder.Solist.Ordering
import SplitOrder.Solist.Heap
import SplitOrder.Solist.Model
import SplitOrder.Solist.Chain
import SplitOrder.Solist.Ops
import SplitOrder.Solist.Calls
import SplitOrder.Solist.FiniteMap
import SplitOrder.Solist.WellFormed
import SplitOrder.Solist.Sizes
import SplitOrder.Solist.Aliases
import SplitOrder.Solist.Resize
import SplitOrder.Solist.Searches
import SplitOrder.Solist.Splitting
import SplitOrder.Solist.Throwing
import SplitOrder.Solist.Guarantee
import SplitOrder.Solist.Bindings
import SplitOrder.Solist.Atomicity
import SplitOrder.Solist.Accessors
import SplitOrder.Solist.Growth
import SplitOrder.Solist.Debug
import SplitOrder.Solist.Dumps
import SplitOrder.Concurrent.Model
import SplitOrder.Concurrent.Memory
import SplitOrder.Concurrent.Invariant
import SplitOrder.Concurrent.Steps
import SplitOrder.Concurrent.Safety
import SplitOrder.Concurrent.Search
import SplitOrder.Concurrent.Progress
import SplitOrder.Concurrent.Contents
import SplitOrder.Concurrent.Grace
import SplitOrder.Concurrent.Linearizable
import SplitOrder.Concurrent.LockFree
import SplitOrder.Growing.Model
import SplitOrder.Growing.Slots
import SplitOrder.Growing.Shadow
import SplitOrder.Growing.Safety
import SplitOrder.Growing.Linearizable
import SplitOrder.Hazard.Pool
import SplitOrder.Hazard.PoolSafety
import SplitOrder.Hazard.Domain
import SplitOrder.Hazard.Reserve
import SplitOrder.Hazard.Snapshot
import SplitOrder.Hazard.Compact
import SplitOrder.Hazard.Machine
import SplitOrder.Hazard.Ownership
import SplitOrder.Hazard.Moves
import SplitOrder.Hazard.Ledger
import SplitOrder.Hazard.Conserved
import SplitOrder.Hazard.Closing
import SplitOrder.Hazard.Blocks
import SplitOrder.Hazard.Pools
import SplitOrder.Hazard.Retired
import SplitOrder.Hazard.Protection
import SplitOrder.Hazard.Garbage
import SplitOrder.Hazard.LockFree
import SplitOrder.Hazard.Triggers
import SplitOrder.Hazard.Calls
import SplitOrder.Hazard.Buffer
import SplitOrder.Hazard.Reclaim
import SplitOrder.Hazard.ContextRuns
import SplitOrder.Hazard.BadAlloc
import SplitOrder.Hazard.Release
