import Cothread.Core.Basic
import Cothread.Lib.Run
import Mathlib.Logic.Function.Basic
import Mathlib.Data.Int.Order.Basic

/-!
# `Butex`: the atomic accesses of `Wait`, `Wake` and the timeout callback

Any number of bthreads, each of which calls `Wait` once on one butex, and any number of wakers, each of which stores a
value and calls `Wake`. The operations of the wait queue are atomic: an added task is put at one end, and
`PopFromHead` drops claimed tasks and claims the first other one. The scheduler is running. A task may be picked from a
ready queue at any time after it was pushed there.
-/

namespace Cothread.Butex

open Run

/-- The arguments of `Wait`; the timeout carries the id that `TimerThread::Schedule` gives its timer. -/
structure Call where
  expected : Int
  timeout : Option Int
  prepend : Bool

/-- The next access of a call of `Wait`. -/
inductive WaitPc
  | load  -- 1. `value_.load()`
  | setWaiting  -- 2. the exchange of `is_waiting`
  | prepare  -- 3. `claimed.store(false)`
  | recheck  -- 4. `value_.load()`
  | schedule  -- 5. `Schedule(TimeoutCallback, task, &ts)`
  | enqueue  -- 7. `AddToHead` or `AddToTail`
  | recheckQueued  -- 7.5. `value_.load()`
  | abandon  -- `claimed.store(true)`
  | sample  -- 8. `saved_wake_count = wake_count.load()`
  | suspend (saved : Int)  -- the exchange of `state` from `RUNNING` to `SUSPENDED`
  | resample (saved : Int)  -- `current_wake_count = wake_count.load()`
  | takeBack  -- the exchange of `state` from `SUSPENDED` to `READY`
  | submit  -- `EnqueueTask(task)`: `state.store(READY)`
  | push  -- `EnqueueTask(task)`: the task is put into a ready queue
  | withdraw  -- `is_waiting.store(false)`, then `return 0`
  | swap  -- 9. `SuspendCurrent()`
  | suspended
  | resumed  -- 10. `timed_out.load()`
  | returned (timedOut : Bool)
  deriving DecidableEq

/-- The local variables of the loop of `Wake`. -/
structure Loop where
  count : Int
  total : Int
  deriving DecidableEq

/-- The next access of a waker. -/
inductive WakePc (T : Type*)
  | setValue (v count : Int)  -- `set_value(v)`, then `Wake(count)`
  | futexWake (count : Int)  -- `FutexWake(&value_, count)`
  | pop (l : Loop) (batch : List T)  -- `PopFromHead`, after `batch` was popped
  | clearWaiting (l : Loop) (t : T) (rest : List T)  -- `is_waiting.store(false)`
  | bump (l : Loop) (t : T) (rest : List T)  -- `wake_count.fetch_add(1)`
  | cancel (l : Loop) (t : T) (rest : List T)  -- `if (timer_id != 0)`, `Cancel(timer_id)`
  | loadState (l : Loop) (t : T) (rest : List T)  -- `state.load() == SUSPENDED`
  | storeReady (l : Loop) (t : T) (rest : List T)  -- `state.store(READY)`
  | submit (l : Loop) (t : T) (rest : List T)  -- `EnqueueTask(waiter)`: `state.store(READY)`
  | push (l : Loop) (t : T) (rest : List T)  -- `EnqueueTask(waiter)`: the push
  deriving DecidableEq

/-- A timer, and the next access of its callback. -/
inductive TimerPc
  | armed
  | claim  -- the exchange of `wakeup`
  | mark  -- `timed_out.store(true)`
  | loadState  -- `state.load() == SUSPENDED`
  | remove  -- `Remove`: the exchange of `is_waiting`
  | setClaimed  -- `Remove`: `claimed.store(true)`
  | storeReady  -- `state.store(READY)`
  | submit  -- `EnqueueTask(task)`: `state.store(READY)`
  | push  -- `EnqueueTask(task)`: the push
  | over
  deriving DecidableEq

/-- The butex, the fields of the tasks that it uses, and the calls in progress. -/
structure State (T W : Type*) where
  value : Int
  queue : List T
  isWaiting : T → Bool
  claimed : T → Bool
  wakeCount : T → Int
  taskState : T → TaskState
  ready : T → Nat  -- how often the task is in a ready queue
  wakeup : T → Bool
  timedOut : T → Bool
  timer : T → Option TimerPc
  wait : T → Option WaitPc
  waker : W → Option (WakePc T)

inductive Label (T W : Type*)
  | wait (t : T)
  | waiter (t : T)
  | wake (w : W) (v count : Int)
  | waker (w : W)
  | fire (t : T)
  | timer (t : T)
  | run (t : T)
  deriving DecidableEq

/-- All tasks are running and nobody has called anything yet. -/
def State.start {T W : Type*} (value : Int) (wakeCount : T → Int) : State T W where
  value := value
  queue := []
  isWaiting _ := false
  claimed _ := false
  wakeCount := wakeCount
  taskState _ := .running
  ready _ := 0
  wakeup _ := false
  timedOut _ := false
  timer _ := none
  wait _ := none
  waker _ := none

def BATCH_SIZE : Int := 16

/-- `PopFromHead`: claimed tasks are dropped. -/
def popFromHead {T : Type*} (claimed : T → Bool) : List T → Option T × List T
  | [] => (none, [])
  | t :: q => if claimed t then popFromHead claimed q else (some t, q)

section Steps

variable {T W : Type*} [DecidableEq T] [DecidableEq W]

def State.goto (s : State T W) (t : T) (pc : WaitPc) : State T W :=
  { s with wait := Function.update s.wait t (some pc) }

def State.setState (s : State T W) (t : T) (x : TaskState) : State T W :=
  { s with taskState := Function.update s.taskState t x }

def State.setWaiting (s : State T W) (t : T) (b : Bool) : State T W :=
  { s with isWaiting := Function.update s.isWaiting t b }

def State.setClaimed (s : State T W) (t : T) (b : Bool) : State T W :=
  { s with claimed := Function.update s.claimed t b }

def State.setTimer (s : State T W) (t : T) (pc : TimerPc) : State T W :=
  { s with timer := Function.update s.timer t (some pc) }

def State.setWaker (s : State T W) (w : W) (pc : Option (WakePc T)) : State T W :=
  { s with waker := Function.update s.waker w pc }

def State.pushReady (s : State T W) (t : T) : State T W :=
  { s with ready := Function.update s.ready t (s.ready t + 1) }

/-- `AddToHead` or `AddToTail`, which do nothing when `is_waiting` has been cleared. -/
def State.addWaiter (s : State T W) (t : T) (prepend : Bool) : State T W :=
  if s.isWaiting t = false then s
  else if prepend then { s with queue := t :: s.queue }
  else { s.setClaimed t false with queue := s.queue ++ [t] }

/-- One access of `Wait`; `none` while the task is suspended and after the call has returned. -/
def State.waitStep (s : State T W) (c : Call) (t : T) : WaitPc → Option (State T W)
  | .load => some (s.goto t (if s.value = c.expected then .setWaiting else .returned false))
  | .setWaiting =>
    some (if s.isWaiting t then s.goto t (.returned false) else (s.setWaiting t true).goto t .prepare)
  | .prepare => some ((s.setClaimed t false).goto t .recheck)
  | .recheck =>
    some (s.goto t (if s.value ≠ c.expected then .withdraw else if c.timeout.isSome then .schedule else .enqueue))
  | .schedule => some ((s.setTimer t .armed).goto t .enqueue)
  | .enqueue => some ((s.addWaiter t c.prepend).goto t .recheckQueued)
  | .recheckQueued => some (s.goto t (if s.value = c.expected then .sample else .abandon))
  | .abandon => some ((s.setClaimed t true).goto t .withdraw)
  | .sample => some (s.goto t (.suspend (s.wakeCount t)))
  | .suspend saved =>
    some (if s.taskState t = .running then (s.setState t .suspended).goto t (.resample saved) else s.goto t .withdraw)
  | .resample saved => some (s.goto t (if s.wakeCount t = saved then .swap else .takeBack))
  | .takeBack =>
    some (if s.taskState t = .suspended then (s.setState t .ready).goto t .submit else s.goto t .withdraw)
  | .submit => some ((s.setState t .ready).goto t .push)
  | .push => some ((s.pushReady t).goto t .withdraw)
  | .withdraw => some ((s.setWaiting t false).goto t (.returned false))
  | .swap => some (s.goto t .suspended)
  | .suspended => none
  | .resumed => some (s.goto t (.returned (s.timedOut t)))
  | .returned _ => none

/-- A batch is complete: `Wake` ends when it is empty. -/
def afterBatch (l : Loop) : List T → Option (WakePc T)
  | [] => none
  | t :: rest => some (.clearWaiting { l with total := l.total + (t :: rest).length } t rest)

/-- The loop over `count` waiters. -/
def nextBatch (l : Loop) : Option (WakePc T) := if l.total < l.count then some (.pop l []) else none

/-- A waiter has been processed. -/
def afterWaiter (l : Loop) : List T → Option (WakePc T)
  | [] => nextBatch l
  | t :: rest => some (.clearWaiting l t rest)

/-- One access of a waker; the task's timer has the id that its call of `Wait` carries. -/
def State.wakeStep (s : State T W) (call : T → Call) (w : W) : WakePc T → State T W
  | .setValue v count => { s with value := v }.setWaker w (some (.futexWake count))
  | .futexWake count => s.setWaker w (nextBatch ⟨count, 0⟩)
  | .pop l batch =>
    match popFromHead s.claimed s.queue with
    | (none, q) => { s with queue := q }.setWaker w (afterBatch l batch)
    | (some t, q) =>
      ({ s with queue := q }.setClaimed t true).setWaker w
        (if ((batch ++ [t]).length : Int) < min (l.count - l.total) BATCH_SIZE then some (.pop l (batch ++ [t]))
        else afterBatch l (batch ++ [t]))
  | .clearWaiting l t rest => (s.setWaiting t false).setWaker w (some (.bump l t rest))
  | .bump l t rest =>
    { s with wakeCount := Function.update s.wakeCount t (wrap32 (s.wakeCount t + 1)) }.setWaker w
      (some (.cancel l t rest))
  | .cancel l t rest =>
    (if ((call t).timeout.getD 0 ≠ 0 ∧ s.timer t = some .armed) then s.setTimer t .over else s).setWaker w
      (some (.loadState l t rest))
  | .loadState l t rest =>
    s.setWaker w (if s.taskState t = .suspended then some (.storeReady l t rest) else afterWaiter l rest)
  | .storeReady l t rest => (s.setState t .ready).setWaker w (some (.submit l t rest))
  | .submit l t rest => (s.setState t .ready).setWaker w (some (.push l t rest))
  | .push l t rest => (s.pushReady t).setWaker w (afterWaiter l rest)

/-- One access of the callback of the task's timer. -/
def State.timerStep (s : State T W) (t : T) : TimerPc → Option (State T W)
  | .armed | .over => none
  | .claim => some (if s.wakeup t then s.setTimer t .over
      else { s with wakeup := Function.update s.wakeup t true }.setTimer t .mark)
  | .mark => some ({ s with timedOut := Function.update s.timedOut t true }.setTimer t .loadState)
  | .loadState => some (s.setTimer t (if s.taskState t = .suspended then .remove else .over))
  | .remove => some (if s.isWaiting t then (s.setWaiting t false).setTimer t .setClaimed else s.setTimer t .storeReady)
  | .setClaimed => some ((s.setClaimed t true).setTimer t .storeReady)
  | .storeReady => some ((s.setState t .ready).setTimer t .submit)
  | .submit => some ((s.setState t .ready).setTimer t .push)
  | .push => some ((s.pushReady t).setTimer t .over)

/-- A worker picks the task from a ready queue. -/
def State.run (s : State T W) (t : T) : State T W :=
  { s.setState t .running with
    ready := Function.update s.ready t (s.ready t - 1)
    wait := if s.wait t = some .suspended then Function.update s.wait t (some .resumed) else s.wait }

/-- One step. -/
def step (call : T → Call) (s : State T W) : Label T W → Option (State T W)
  | .wait t => if (s.wait t).isNone then some (s.goto t .load) else none
  | .waiter t => (s.wait t).bind (s.waitStep (call t) t)
  | .wake w v count => if (s.waker w).isNone then some (s.setWaker w (some (.setValue v count))) else none
  | .waker w => (s.waker w).map (s.wakeStep call w)
  | .fire t => if s.timer t = some .armed then some (s.setTimer t .claim) else none
  | .timer t => (s.timer t).bind (s.timerStep t)
  | .run t => if 0 < s.ready t then some (s.run t) else none

end Steps

/-- One `Wait` of every task, and any wakers. -/
def system {T W : Type*} [DecidableEq T] [DecidableEq W] (call : T → Call) : System (State T W) (Label T W) where
  init s := ∃ value wakeCount, s = .start value wakeCount
  step := step call

end Cothread.Butex
