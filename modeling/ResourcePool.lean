import ResourcePool.Transition.System
import ResourcePool.Transition.Amortized
import ResourcePool.Concurrency.Program
import ResourcePool.Concurrency.Threads
import ResourcePool.Concurrency.Rules
import ResourcePool.Concurrency.Progress
import ResourcePool.Concurrency.Conservation
import ResourcePool.Concurrency.Intentions
import ResourcePool.Exceptions.Throwing
import ResourcePool.Lifetime.Sharing
import ResourcePool.Container.Multimap
import ResourcePool.TimeTraits
import ResourcePool.Error
import ResourcePool.Storage
import ResourcePool.Handle
import ResourcePool.Handles
import ResourcePool.Leases
import ResourcePool.Storage.History
import ResourcePool.Storage.Validity
import ResourcePool.Storage.Projection
import ResourcePool.Storage.Frame
import ResourcePool.Storage.Turnover
import ResourcePool.Container.BoundedFifo
import ResourcePool.Container.Registry
import ResourcePool.Container.Positions
import ResourcePool.Async.Queue
import ResourcePool.Async.Queue.Coherence
import ResourcePool.Async.Queue.Refinement
import ResourcePool.Async.Queue.Memory
import ResourcePool.Async.Queue.Timers
import ResourcePool.Async.Queue.Deadlines
import ResourcePool.Async.Queue.StaleWaits
import ResourcePool.Async.Queue.Throwing
import ResourcePool.Async.Queue.StrongGuarantee
import ResourcePool.Async.Queue.Removal
import ResourcePool.Async.Queue.BasicGuarantee
import ResourcePool.Async.PoolImpl
import ResourcePool.Async.Pool
import ResourcePool.Async.Completion
import ResourcePool.Async.Order
import ResourcePool.Async.Ownership
import ResourcePool.Async.Waiting
import ResourcePool.Async.StorageActions
import ResourcePool.Async.Retention
import ResourcePool.Async.Disabling
import ResourcePool.Async.HandOver
import ResourcePool.Async.QueueActions
import ResourcePool.Async.Delivery
import ResourcePool.Async.Work
import ResourcePool.Async.Lifetime
import ResourcePool.Async.Reclamation
import ResourcePool.Async.Locking
import ResourcePool.Async.Locking.Sections
import ResourcePool.Async.Locking.Guards
import ResourcePool.Async.Locking.Progress
import ResourcePool.Async.Locking.Conservation
import ResourcePool.Async.Locking.Effects
import ResourcePool.Sync.PoolImpl
import ResourcePool.Sync.Pool
import ResourcePool.Sync.ErrorPath
import ResourcePool.Sync.StorageActions
import ResourcePool.Sync.Wakeups
import ResourcePool.Sync.Timeouts
import ResourcePool.Sync.Deadline
import ResourcePool.Sync.Ownership
import ResourcePool.Sync.Disabling
import ResourcePool.Sync.Retention
import ResourcePool.Pools
import ResourcePool.Grants
import ResourcePool.Reuse
import ResourcePool.Exclusive
