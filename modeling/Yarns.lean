import Yarns.Base.Run
import Yarns.Base.Slots
import Yarns.Base.Handle
import Yarns.Base.OrderedMap
import Yarns.Data.Word
import Yarns.Data.Queue
import Yarns.Data.Rbtree
import Yarns.Sched.Job
import Yarns.Sched.RoundRobin
import Yarns.Sched.Staircase
import Yarns.Sched.Fair
import Yarns.Sched.Scheduler
import Yarns.Sched.StaircaseRuns
import Yarns.Sched.Master
import Yarns.Sched.MasterClient
import Yarns.Sched.MasterRuns
import Yarns.Lib.ThreadData
import Yarns.Base.FirstMatch
import Yarns.Lib.Pool
import Yarns.Lib.PoolRuns
import Yarns.Lib.WaitGraph
import Yarns.Lib.WaitGraphRuns
import Yarns.Sched.Loans
import Yarns.Lib.Runtime
import Yarns.Lib.RuntimeInvariant
import Yarns.Lib.Completion
import Yarns.Lib.Suspended
import Yarns.Lib.Wakeup
import Yarns.Sched.Migration
import Yarns.Sched.StaircaseContract
import Yarns.Sched.FairRuns
import Yarns.Base.Parties
import Yarns.Sync.RwLock
import Yarns.Sync.RwLockRuns
import Yarns.Sync.Lock
import Yarns.Sync.LockRuns
import Yarns.Lib.Alloc
import Yarns.Lib.AllocHeap
import Yarns.Base.Buckets
import Yarns.Lib.AllocBook
import Yarns.Lib.AllocRuns
import Yarns.Base.WaitFor
import Yarns.Sched.CoreLocks
import Yarns.Sched.CoreLocksRuns
import Yarns.Base.Drift
import Yarns.Sched.VirtualTime
import Yarns.Sched.VirtualTimeRuns
import Yarns.Sched.VirtualTimeFair
import Yarns.Base.Blocks
import Yarns.Data.FifoSegments
import Yarns.Data.FifoRuns
import Yarns.Sys.Preempt
import Yarns.Sys.PreemptRuns
import Yarns.Data.QueueAtomic
import Yarns.Lib.PoolGrowth
import Yarns.Lib.PoolMirror
import Yarns.Sched.HoistTargets
import Yarns.Sched.Rebalance
import Yarns.Sched.RebalanceRuns
import Yarns.Base.Rounding
import Yarns.Sched.FloatTime
import Yarns.Sched.StaircaseLedger
import Yarns.Base.Tally
import Yarns.Sched.Overtaking
import Yarns.Base.Chain
import Yarns.Lib.WaitSweep
import Yarns.Lib.WaitEliminate
import Yarns.Lib.WaitRegister
import Yarns.Lib.Timer
import Yarns.Lib.ProcessTable
import Yarns.Lib.AllocPages
import Yarns.Base.ByteMemory
import Yarns.Base.I386
import Yarns.Sys.Context
import Yarns.Sys.Coroutines
import Yarns.Sys.CoroutineRuns
import Yarns.Sched.Coverage
import Yarns.Lib.Whereabouts
import Yarns.Lib.AllocThreads
import Yarns.Lib.AllocThreadsHeap
import Yarns.Lib.AllocThreadsSteps
import Yarns.Lib.AllocThreadsRuns
import Yarns.Lib.BlockLifetime
import Yarns.Sched.CoreErrands
import Yarns.Sched.CoreClient
import Yarns.Sys.PreemptGate
import Yarns.Lib.Responsibility
import Yarns.Sched.StaircaseBudget
import Yarns.Sched.OneCore
import Yarns.Sched.RoundRobinRuns
