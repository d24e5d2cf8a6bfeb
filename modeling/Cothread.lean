import Cothread.Queue.MpscLoss
import Cothread.Queue.MpscTurns
import Cothread.Queue.MpscFifo
import Cothread.Queue.Shared
import Cothread.Queue.SharedOnce
import Cothread.Lib.Ring
import Cothread.Queue.WorkStealing
import Cothread.Queue.StealOnce
import Cothread.Queue.StealFifo
import Cothread.Api.Join
import Cothread.Lib.Count
import Cothread.Api.JoinEarly
import Cothread.Sync.Butex
import Cothread.Sync.ButexLost
import Cothread.Queue.Waiter
import Cothread.Sync.Mutex
import Cothread.Sync.MutexOwner
import Cothread.Sync.MutexParked
import Cothread.Sync.MutexStrand
import Cothread.Sync.MutexFree
import Cothread.Sync.MutexGeneration
import Cothread.Sync.MutexShutdown
import Cothread.Sync.CondRelease
import Cothread.Sync.CondWorkers
import Cothread.Sync.CondThreshold
import Cothread.Core.Worker
import Cothread.Core.WorkerView
import Cothread.Core.WorkerMoves
import Cothread.Core.WorkerInv
import Cothread.Core.WorkerCode
import Cothread.Core.WorkerOnce
import Cothread.Sync.Event
import Cothread.Sync.EventAuto
import Cothread.Sync.Notify
import Cothread.Sync.Cond
import Cothread.Core.Finish
import Cothread.Core.FinishInv
import Cothread.Core.FinishOnce
import Cothread.Core.TaskGroup
import Cothread.Core.TaskId
import Cothread.Core.TaskIdUnique
import Cothread.Core.TaskPool
import Cothread.Core.TaskPoolInv
import Cothread.Sync.ButexAnswer
import Cothread.Sync.ButexSettled
import Cothread.Sync.ButexList
import Cothread.Sync.ButexTimed
import Cothread.Queue.Mpmc
import Cothread.Queue.MpmcOnce
import Cothread.Queue.MpmcKept
import Cothread.Core.IdleRegistry
import Cothread.Core.Teardown
import Cothread.Core.RunQueues
import Cothread.Core.RunQueuesKept
import Cothread.Core.YieldTurn
import Cothread.Pool.ObjectPool
import Cothread.Coro.Await
import Cothread.Coro.Control
import Cothread.Coro.ControlSteps
import Cothread.Coro.OwnMeta
import Cothread.Coro.ResumedOnce
import Cothread.Coro.Recorded
import Cothread.Core.Attended
import Cothread.Lib.BinaryHeap
import Cothread.Timer.TimerInv
import Cothread.Timer.FiresOnce
import Cothread.Timer.Oversleep
import Cothread.Lib.Object
import Cothread.Queue.ExecutionQueue
import Cothread.Core.WorkersReady
import Cothread.Queue.StealDeque
import Cothread.Queue.MpscAtomic
import Cothread.Queue.SharedFifo
import Cothread.Timer.ProcessShard
import Cothread.Pool.PoolLimit
import Cothread.Pool.PoolOverlap
import Cothread.Core.TaskLife
import Cothread.Core.TaskSteps
import Cothread.Core.SpawnSlots
import Cothread.Core.TaskTaken
import Cothread.Core.StackSize
import Cothread.Lib.Shelf
import Cothread.Core.TaskBooks
import Cothread.Core.NewTask
import Cothread.Queue.MpmcDeque
import Cothread.Sync.ButexWake
import Cothread.Core.IndexRange
import Cothread.Core.PickTask
import Cothread.Timer.ScheduleRange
import Cothread.Lib.Mask
import Cothread.Platform.Stack
import Cothread.Coro.MetaPool
import Cothread.Coro.FramePool
import Cothread.Timer.OneShard
import Cothread.Timer.ShardView
import Cothread.Core.AllocSlots
import Cothread.Core.YieldBatch
import Cothread.Timer.RemoveFromHeap
import Cothread.Platform.SwitchRuns
import Cothread.Coro.Values
import Cothread.Coro.Sleepers
import Cothread.Coro.Lifetime
import Cothread.Coro.Joined
import Cothread.Core.Lifecycle
import Cothread.Core.RunLoop
import Cothread.Api.Once
import Cothread.Platform.FirstFrame
