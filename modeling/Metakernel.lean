import Metakernel.DyadicBlocks
import Metakernel.LinkedNodes
import Metakernel.DataStructures
import Metakernel.NodeTables
import Metakernel.CyclicLists
import Metakernel.KeyStacks
import Metakernel.ByteMemory
import Metakernel.WordCode
import Metakernel.Util
import Metakernel.IntLoops
import Metakernel.ByteLoops
import Metakernel.StaticAlloc
import Metakernel.PhysCopy
import Metakernel.KernelHeap
import Metakernel.KernelHeapInvariant
import Metakernel.KernelHeapBlocks
import Metakernel.KernelHeapCalls
import Metakernel.KernelHeapRuns
import Metakernel.KernelHeapRealloc
import Metakernel.KernelHeapReserve
import Metakernel.LinkedTrees
import Metakernel.RedBlackTree
import Metakernel.RedBlackInsertion
import Metakernel.RedBlackDeletion
import Metakernel.AddressLookup
import Metakernel.GuardedRuns
import Metakernel.Parport
import Metakernel.PointUpdates
import Metakernel.PartialPaths
import Metakernel.Synchronization
import Metakernel.MutualExclusion
import Metakernel.MutexQueue
import Metakernel.SpinSleepLock
import Metakernel.SleepingWaiters
import Metakernel.RendezvousBarrier
import Metakernel.Exclusion
import Metakernel.ReadWriteLock
import Metakernel.ConditionWakeups
import Metakernel.ConditionWord
import Metakernel.TimerBalance
import Metakernel.PriorityInheritance
import Metakernel.IndexedHeaps
import Metakernel.SchedulerHeaps
import Metakernel.HeapOperations
import Metakernel.Scheduler
import Metakernel.SchedulerMembership
import Metakernel.SchedulerFrames
import Metakernel.LoadAccounting
import Metakernel.RunQueueOrder
import Metakernel.Rescheduling
import Metakernel.EpochFairness
import Metakernel.ManySchedulers
import Metakernel.WaitStates
import Metakernel.LockCalls
import Metakernel.SchedulerLocks
import Metakernel.PageAllocator
import Metakernel.ColorTables
import Metakernel.PhysicalMemory
import Metakernel.Identifiers
import Metakernel.CowTable
import Metakernel.PageTables
import Metakernel.PageTableCode
import Metakernel.VirtualMemory
import Metakernel.KernelFaults
import Metakernel.FaultPermissions
import Metakernel.InodeCache
import Metakernel.InodeDeletion
import Metakernel.IoLocks
import Metakernel.CollisionTest
import Metakernel.MapperTables
import Metakernel.GarbageCollection
import Metakernel.Registration
import Metakernel.Teardown
import Metakernel.EagerCopies
import Metakernel.CopiedSources
import Metakernel.ObjectCreation
import Metakernel.HeapLocks
import Metakernel.MemoryLocks
import Metakernel.SleepCredit
import Metakernel.ThreadStealing
import Metakernel.WarmRestart
import Metakernel.Preemption
import Metakernel.KernelHeapFailure
import Metakernel.MallocWrappers
import Metakernel.WaitChains
import Metakernel.WaitGraph
import Metakernel.RecordedHolder
import Metakernel.JumpCode
import Metakernel.SpinLockCode
import Metakernel.RoundCode
import Metakernel.ParportCode
import Metakernel.AddressSpaceCode
import Metakernel.BootProcessors
import Metakernel.HeapStore
import Metakernel.RequestStore
import Metakernel.FileSystems
import Metakernel.PageConservation
import Metakernel.CpuCaches
import Metakernel.InterruptGates
import Metakernel.StartCode
import Metakernel.TaskSegments
import Metakernel.GlobalEpoch
import Metakernel.InodeLinks
