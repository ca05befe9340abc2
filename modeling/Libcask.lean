import Libcask.Transition
import Libcask.CList
import Libcask.CInt
import Libcask.Deque
import Libcask.RunQueue
import Libcask.Channel
import Libcask.ChannelLinks
import Libcask.Rendezvous
import Libcask.RendezvousWakeups
import Libcask.BoundedBuffer
import Libcask.Counting
import Libcask.Semaphore
import Libcask.SemaphoreCounts
import Libcask.Mutex
import Libcask.MutexSafety
import Libcask.Barrier
import Libcask.InnerFd
import Libcask.Sched
import Libcask.SchedFds
import Libcask.SchedQueues
import Libcask.TaskConservation
import Libcask.ActivePipe
import Libcask.ActiveWakeups
import Libcask.Fifo
import Libcask.SchedMoves
import Libcask.SchedSteps
import Libcask.RoundRobin
import Libcask.IoWaiters
import Libcask.CondLists
import Libcask.CondWakes
import Libcask.PollTimeouts
import Libcask.PollArray
import Libcask.CArray
import Libcask.Heap
import Libcask.CoroutineIds
import Libcask.CFloat
import Libcask.HashMap
import Libcask.HashMapChains
import Libcask.HashMapInvariant
import Libcask.HashMapResize
import Libcask.FiniteMap
import Libcask.HashMapContents
import Libcask.TimeWheel
import Libcask.HookedReads
import Libcask.HookedWrites
import Libcask.FdFlags
import Libcask.FdAgreement
import Libcask.SpinLock
import Libcask.BitMap
import Libcask.ArraySequence
import Libcask.OperandOrder
import Libcask.DequeSequence
import Libcask.FdTable
import Libcask.WheelTimeouts
import Libcask.HookedSends
import Libcask.TimedWaits
import Libcask.ArrayAccesses
import Libcask.RunQueueCounter
import Libcask.Cycles
import Libcask.ListLoops
import Libcask.TimerDurations
import Libcask.HostLookup
import Libcask.IoChanges
import Libcask.SchedCalls
import Libcask.SchedProgress
import Libcask.IoTimeouts
import Libcask.SchedLoop
import Libcask.BoundedWait
import Libcask.Accesses
import Libcask.LinkAccesses
import Libcask.RunListRaces
import Libcask.Threads
import Libcask.TaskLife
import Libcask.ThreadViews
import Libcask.ThreadSteps
import Libcask.ThreadSafety
import Libcask.BarrierDestory
import Libcask.Ownership
import Libcask.TimerAccounts
import Libcask.CoSpecs
import Libcask.SchedStop
import Libcask.ChannelClose
