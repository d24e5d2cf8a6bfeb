import Cothread.Core.Basic
import Cothread.Lib.Run
import Mathlib.Logic.Function.Basic

/-!
# Joining a task: `bthread_join`, `Task::join` and the end of the target

One target task, from the moment it was created until `HandleFinishedBthread` has returned, and any number of joiners.
A joiner calls `bthread_join` or `Task::join`, from a pthread or from a bthread. `Butex::Wait(g)` is one step that
blocks only while the value of the join butex is `g`; a blocked joiner goes on when the target's wake reaches it, or
when its wait is cut short: the futex of a pthread returns early, `is_waiting` of a bthread is already set, the
scheduler shuts down, or an older waker resumes the bthread.

Who releases the last reference hands the `TaskMeta` back: to the cache of a worker, which keeps it as it is, or to
`DeallocTaskMeta`, which resets its fields and deletes the join butex while other joins may still be reading them. The
`TaskMeta` is followed until it is taken for another task.
-/

namespace Cothread.Join

open Run

/-- Which function the joiner calls. -/
inductive Call
  | bthreadJoin
  | taskJoin
  deriving DecidableEq

/-- Where the joiner runs: `Worker::Current()` is null in a pthread. -/
inductive Context
  | pthread
  | bthread
  deriving DecidableEq

/-- The next access of a joiner. `R` is the type of results, `none` the null pointer. -/
inductive JoinPc (R : Type*)
  | checkButex  -- `bthread_join`: `task->join_butex == nullptr`
  | createButex  -- the exchange of `join_butex` against a new butex
  | readGeneration  -- `generation = join_butex->value()`
  | testState (g : Int)  -- `task->state.load() == FINISHED`
  | register (g : Int)  -- `join_waiters.fetch_add(1)`
  | taskTestState  -- `Task::join`: the test of the state
  | taskRegister  -- `join_waiters.fetch_add(1)`
  | taskLoadButex  -- `if (join_butex)`
  | taskReadGeneration  -- `generation = join_butex->value()`
  | wait (g : Int)  -- `join_butex->Wait(generation, nullptr)` is called
  | blocked (g : Int)  -- inside that call
  | leave  -- `join_waiters.fetch_sub(1)`
  | readResult  -- `*retval = task->result`
  | release (retval : Option R)  -- `task->Release()`
  | returned (retval : Option R)
  | notFound  -- `bthread_join` has returned `ESRCH`
  deriving DecidableEq

/-- The next access of the target, from the end of its function on. -/
inductive TargetPc (R : Type*)
  | running
  | exit (r : Option R)  -- `bthread_exit(r)`: `task->result = retval`
  | storeFinished  -- `task->state.store(FINISHED)`
  | testWaiters  -- `HandleFinishedBthread`: `join_waiters.load() > 0`
  | testButex  -- `&& task->join_butex`
  | loadValue  -- `butex->value()`
  | storeValue (v : Int)  -- `butex->set_value(v + 1)`
  | wakeFutex  -- `Wake(INT_MAX)`: `FutexWake`
  | wakeQueue  -- `Wake(INT_MAX)`: the waiters in the queue
  | release  -- `task->Release()`
  | done
  deriving DecidableEq

/-- How the target was created: this decides the fields below. -/
inductive Creator
  | bthreadCreate
  | spawn
  deriving DecidableEq

/-- The target's fields, the join butex, and the calls in progress. -/
structure State (J R : Type*) where
  state : TaskState
  result : Option R
  joinButex : Option Int  -- null, or a butex with this value
  joinWaiters : Int
  refCount : Int
  freed : Bool  -- `DeallocTaskMeta` has been called: the generation of the slot has changed
  outcome : Option (Option R)  -- the result with which the target has stored `FINISHED`
  cacheFull : Bool  -- `task_cache_` of the worker that calls `ReleaseTaskMeta` next
  running : Bool  -- `Scheduler::running()`
  target : TargetPc R
  joiner : J → Option (JoinPc R)

/-- What acts: a joiner, the target, or one of the things that end a wait early. -/
inductive Label (J R : Type*)
  | call (j : J)
  | joiner (j : J)
  | entryReturns (r : Option R)  -- `BthreadEntry`: `task->result = task->fn(task->arg)`
  | exitCalled (r : Option R)  -- the task calls `bthread_exit(r)` itself
  | target
  | interrupt (j : J)  -- the futex of a pthread returns with `EINTR`
  | alreadyWaiting (j : J)  -- `is_waiting` of the joining bthread is set when it calls `Wait`
  | shutdown  -- `running_ = false`
  | requeue (j : J)  -- `Scheduler::Shutdown` enqueues a suspended joiner
  | staleWake (j : J)  -- a waker of an earlier wait enqueues a suspended joiner
  | cache (full : Bool)  -- other tasks fill and empty the caches of the workers
  deriving DecidableEq

/-- `bthread_create` sets `ref_count` to 2; `spawn` leaves it at 0. Neither creates the butex. -/
def State.created {J R : Type*} (c : Creator) : State J R where
  state := .ready
  result := none
  joinButex := none
  joinWaiters := 0
  refCount := match c with
    | .bthreadCreate => 2
    | .spawn => 0
  freed := false
  outcome := none
  cacheFull := false
  running := true
  target := .running
  joiner _ := none

section Steps

variable {J R : Type*}

/-- `DeallocTaskMeta`. -/
def State.dealloc (s : State J R) : State J R :=
  { s with state := .ready, result := none, joinButex := none, joinWaiters := 0, refCount := 0, freed := true }

/-- `Release()`. When it returns true, `ReleaseTaskMeta` follows, which has room in the cache or calls
`DeallocTaskMeta`, or `DeallocTaskMeta` itself. -/
def State.drop (s : State J R) (toCache : Bool) : State J R :=
  if s.refCount = 1 ∧ (toCache = true → s.cacheFull = true) then s.dealloc
  else { s with refCount := s.refCount - 1 }

variable [DecidableEq J]

def State.goto (s : State J R) (j : J) (pc : JoinPc R) : State J R :=
  { s with joiner := Function.update s.joiner j (some pc) }

/-- Where a joiner goes on after the wait, or without one. -/
def JoinPc.afterwards : Call → JoinPc R
  | .bthreadJoin => .readResult
  | .taskJoin => .release none

/-- Whether the joiner calls `ReleaseTaskMeta` when it has released the last reference. -/
def Call.toCache : Call → Context → Bool
  | .bthreadJoin, .bthread => true
  | _, _ => false

/-- One access of the joiner `j`; `none` while it is blocked and after it has returned. -/
def State.join (s : State J R) (call : Call) (ctx : Context) (j : J) : JoinPc R → Option (State J R)
  | .checkButex => some (s.goto j (if s.joinButex.isNone then .createButex else .readGeneration))
  | .createButex => some ({ s with joinButex := some (s.joinButex.getD 0) }.goto j .readGeneration)
  | .readGeneration => some (s.goto j (.testState (s.joinButex.getD 0)))
  | .testState g => some (s.goto j (if s.state = .finished then .readResult else .register g))
  | .register g => some ({ s with joinWaiters := s.joinWaiters + 1 }.goto j (.wait g))
  | .taskTestState => some (s.goto j (if s.state = .finished then .release none else .taskRegister))
  | .taskRegister => some ({ s with joinWaiters := s.joinWaiters + 1 }.goto j .taskLoadButex)
  | .taskLoadButex => some (s.goto j (if s.joinButex.isNone then .leave else .taskReadGeneration))
  | .taskReadGeneration => some (s.goto j (.wait (s.joinButex.getD 0)))
  | .wait g =>
    -- a bthread is turned away with `ECANCELED` when the scheduler is not running
    some (s.goto j (if (ctx = .bthread ∧ s.running = false) ∨ s.joinButex ≠ some g then .leave else .blocked g))
  | .blocked _ => none
  | .leave => some ({ s with joinWaiters := s.joinWaiters - 1 }.goto j (.afterwards call))
  | .readResult => some (s.goto j (.release s.result))
  | .release retval => some ((s.drop (call.toCache ctx)).goto j (.returned retval))
  | .returned _ | .notFound => none

/-- The joiners of one kind that are blocked go on. -/
def State.wake (s : State J R) (ctx : J → Context) (c : Context) : State J R :=
  { s with joiner := fun j => match s.joiner j with
      | some (.blocked g) => if ctx j = c then some .leave else some (.blocked g)
      | pc => pc }

/-- One access of the target. -/
def State.finish (s : State J R) (ctx : J → Context) : TargetPc R → Option (State J R)
  | .running => none
  | .exit r => some { s with result := r, target := .storeFinished }
  | .storeFinished => some { s with state := .finished, outcome := some s.result, target := .testWaiters }
  | .testWaiters => some { s with target := if s.joinWaiters > 0 then .testButex else .release }
  | .testButex => some { s with target := if s.joinButex.isNone then .release else .loadValue }
  | .loadValue => some { s with target := .storeValue (s.joinButex.getD 0) }
  | .storeValue v => some { s with joinButex := s.joinButex.map fun _ => wrap32 (v + 1), target := .wakeFutex }
  | .wakeFutex => some { s.wake ctx .pthread with target := .wakeQueue }
  | .wakeQueue => some { s.wake ctx .bthread with target := .release }
  | .release => some { s.drop true with target := .done }
  | .done => none

/-- The wait of `j` ends early, when it stands at `pc`. -/
def State.cut (s : State J R) (j : J) (p : JoinPc R → Bool) : Option (State J R) :=
  if (s.joiner j).any p then some (s.goto j .leave) else none

def JoinPc.isBlocked : JoinPc R → Bool
  | .blocked _ => true
  | _ => false

def JoinPc.isWait : JoinPc R → Bool
  | .wait _ => true
  | _ => false

/-- One step. -/
def step (call : J → Call) (ctx : J → Context) (s : State J R) : Label J R → Option (State J R)
  | .call j =>
    if (s.joiner j).isNone then
      some (s.goto j (match call j with
        | .bthreadJoin => if s.freed then .notFound else .checkButex  -- `DecodeId`
        | .taskJoin => .taskTestState))
    else none
  | .joiner j => (s.joiner j).bind (s.join (call j) (ctx j) j)
  | .entryReturns r => if s.target matches .running then some { s with result := r, target := .exit r } else none
  | .exitCalled r => if s.target matches .running then some { s with target := .exit r } else none
  | .target => s.finish ctx s.target
  | .interrupt j => if ctx j = .pthread then s.cut j JoinPc.isBlocked else none
  | .alreadyWaiting j => if ctx j = .bthread then s.cut j JoinPc.isWait else none
  | .shutdown => some { s with running := false }
  | .requeue j => if ctx j = .bthread ∧ s.running = false then s.cut j JoinPc.isBlocked else none
  | .staleWake j => if ctx j = .bthread then s.cut j JoinPc.isBlocked else none
  | .cache full => some { s with cacheFull := full }

end Steps

/-- A target created by `c`, and joiners that each call one function from one context. -/
def system {J R : Type*} [DecidableEq J] (c : Creator) (call : J → Call) (ctx : J → Context) :
    System (State J R) (Label J R) where
  init s := s = .created c
  step := step call ctx

end Cothread.Join
