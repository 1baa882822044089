import HyperCache.Lib.Interleaving
import HyperCache.Util.Queue
import HyperCache.Util.QueueProofs
import HyperCache.Lib.Trace
import HyperCache.Lib.BoundedFifo
import HyperCache.Util.QueueLinearizable
import HyperCache.Clock.ClockCache
import HyperCache.Clock.Session
import HyperCache.Lib.Probe
import HyperCache.Clock.Table
import HyperCache.Clock.Search
import HyperCache.Clock.Accounts
import HyperCache.Clock.Operations
import HyperCache.Clock.Eviction
import HyperCache.Clock.Invariant
import HyperCache.Clock.Freshness
import HyperCache.Clock.Concurrent
import HyperCache.Clock.HitCount
import HyperCache.Clock.References
import HyperCache.HashSkip.AtomicSkipList
import HyperCache.Lib.Chain
import HyperCache.HashSkip.Listed
import HyperCache.HashSkip.Contents
import HyperCache.Lru.CacheShard
import HyperCache.Lru.Eviction
import HyperCache.Lru.Representation
import HyperCache.Lib.Recency
import HyperCache.Lru.Accounts
import HyperCache.Lru.Policy
import HyperCache.Lib.Sharded
import HyperCache.Lru.Cache
import HyperCache.Clock.Termination
import HyperCache.Clock.Ownership
import HyperCache.Clock.Cache
import HyperCache.Clock.Ledger
import HyperCache.HashSkip.AtomicSharedPtr
import HyperCache.HashSkip.AtomicSharedPtrProofs
import HyperCache.Clock.Words
import HyperCache.Clock.Calls
import HyperCache.Clock.Reservation
import HyperCache.Clock.Displacement
import HyperCache.Clock.Erasure
import HyperCache.Clock.Update
import HyperCache.Clock.Bounds
import HyperCache.Lib.Stepwise
import HyperCache.HashSkip.Marks
import HyperCache.HashSkip.Cache
import HyperCache.HashSkip.Compaction
import HyperCache.HashSkip.CacheSteps
import HyperCache.HashSkip.DeletedCount
import HyperCache.HashSkip.Capacity
import HyperCache.Util.SkipList
import HyperCache.Util.SkipListProofs
import HyperCache.HashSkip.Concurrent
import HyperCache.HashSkip.ConcurrentProofs
import HyperCache.Clock.Sweep
import HyperCache.Clock.Retry
import HyperCache.Clock.Probing
import HyperCache.Util.QueueSequential
import HyperCache.Lru.Disposal
import HyperCache.Clock.HitDecay
import HyperCache.HashSkip.Levels
import HyperCache.HashSkip.Decay
import HyperCache.HashSkip.Handles
import HyperCache.HashSkip.History
import HyperCache.Lib.Mixing
import HyperCache.Util.MurmurHash
import HyperCache.HashSkip.Charges
import HyperCache.HashSkip.Aging
import HyperCache.HashSkip.Reads
import HyperCache.Clock.Keys
import HyperCache.Lib.Paging
import HyperCache.Lru.Competitive
import HyperCache.Lru.Totals
import HyperCache.HashSkip.Compacting
import HyperCache.HashSkip.SharedCharges
import HyperCache.HashSkip.Threads
import HyperCache.HashSkip.Balance
import HyperCache.HashSkip.Losses
import HyperCache.HashSkip.Handover
