import Copnet.Foundation.ByteMemory
import Copnet.Foundation.Calendar
import Copnet.Foundation.Critical
import Copnet.Foundation.Cycle
import Copnet.Foundation.DoubleBuffer
import Copnet.Foundation.Ledger
import Copnet.Foundation.Retry
import Copnet.Foundation.Simulation
import Copnet.Foundation.Transition
import Copnet.Lock.Spinlock
import Copnet.Memory.Alignment
import Copnet.Memory.Blocks
import Copnet.Memory.Frame
import Copnet.Memory.Growth
import Copnet.Memory.MemPool
import Copnet.Memory.Pools
import Copnet.Memory.Room
import Copnet.Runtime.Affinity
import Copnet.Runtime.Cases
import Copnet.Runtime.CoPool
import Copnet.Runtime.CoSleep
import Copnet.Runtime.Completion
import Copnet.Runtime.Effect
import Copnet.Runtime.EventArray
import Copnet.Runtime.GetsOn
import Copnet.Runtime.History
import Copnet.Runtime.Iteration
import Copnet.Runtime.Life
import Copnet.Runtime.Lifecycle
import Copnet.Runtime.Lives
import Copnet.Runtime.Loop
import Copnet.Runtime.Mutex
import Copnet.Runtime.MutexAccess
import Copnet.Runtime.MutexProgress
import Copnet.Runtime.NewQueue
import Copnet.Runtime.NoOrphan
import Copnet.Runtime.NoStale
import Copnet.Runtime.Places
import Copnet.Runtime.Progress
import Copnet.Runtime.RunQueue
import Copnet.Runtime.Stack
import Copnet.Runtime.Starvation
import Copnet.Runtime.State
import Copnet.Runtime.Step
import Copnet.Runtime.Teardown
import Copnet.Runtime.WaitEvent
import Copnet.Runtime.Waiters
import Copnet.Runtime.WakeUp
import Copnet.Scheduler.Selector
import Copnet.Scheduler.Shutdown
import Copnet.Scheduler.Singleton
import Copnet.Scheduler.Strategy
import Copnet.Socket.Accept
import Copnet.Socket.Handle
import Copnet.Socket.Leak
import Copnet.Socket.Ownership
import Copnet.Socket.Read
import Copnet.Socket.Send
import Copnet.Socket.Syscall
import Copnet.Timer.Coverage
import Copnet.Timer.Delivery
import Copnet.Timer.Firing
import Copnet.Timer.Interval
import Copnet.Timer.LocalTime
import Copnet.Timer.RoundTrip
import Copnet.Timer.Sleep
import Copnet.Timer.Tables
import Copnet.Timer.Timer
