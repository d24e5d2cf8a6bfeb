import Cothread.Sync.Butex

/-!
# `Worker`: running, suspending and waking bthreads

Any number of workers in the loop of `Worker::Run`, and any number of other threads. A worker picks a task from its
batch, its local queue, the global queue or another worker's local queue, makes it `current_task_` and switches to the
task's saved context. The task calls `Butex::Wait`, `CondVar::wait`, `Event::wait` and `YieldCurrent`, each of which
publishes the task before `SuspendCurrent` saves its context, and it wakes other tasks. The queues are atomic. A task
that is picked while another worker still runs it is resumed from the context that was saved last.
-/

namespace Cothread.Worker

open Run
open Butex (Call WaitPc WakePc TimerPc Loop)

/-- Where the tasks are that can be picked. -/
inductive Place (W : Type*)
  | batch (w : W)  -- `local_batch_`
  | localQueue (w : W)
  | global
  deriving DecidableEq

/-! ## The code of wakers and of tasks -/

/-- The next access of a waker. A task is taken out of a wait queue together with the number of its wait. -/
inductive WakerPc (T B C : Type*)
  | butex (b : B) (pc : WakePc (T × ℕ))  -- `set_value` and `Butex::Wake`
  | setFlag (c : C)  -- `Event::set`: `state_.store(true)`
  | popWaiter (c : C) (all : Bool)  -- `waiter_queue_.Pop()` of `notify_one`, `notify_all` and `wake_all_waiters`
  | storeReady (c : C) (all : Bool) (x : T × ℕ)  -- `state.store(READY)`
  | submit (c : C) (all : Bool) (x : T × ℕ)  -- `Submit(waiter)`: `state.store(READY)`
  | push (c : C) (all : Bool) (x : T × ℕ)  -- `Submit(waiter)`: the push
  | submitNew (t : T)  -- `Submit` of a new task: `state.store(READY)`
  | pushNew (t : T)  -- `Submit` of a new task: the push
  deriving DecidableEq

/-- The next access of a task's code. -/
inductive TaskPc (T B C : Type*)
  | user
  | wait (b : B) (call : Call) (pc : WaitPc)  -- `Butex::Wait`
  | loadFlag (c : C) (autoReset : Bool)  -- `Event::wait`: `state_.load()`
  | resetFlag (c : C)  -- `Event::wait`: `state_.store(false)`
  | park (c : C)  -- `CondVar::wait`, `Event::wait`: `state.store(SUSPENDED)`
  | publish (c : C)  -- `enqueue_waiter(task)`
  | yield  -- `YieldCurrent`: `batch_count_ == 0 && local_queue_.Empty()`
  | yieldReady  -- `state.store(READY)`
  | yieldBatch  -- `local_batch_[batch_count_++] = current_task_`
  | yieldFlush  -- `MaybeFlushBatch()`
  | exit  -- `state.store(FINISHED)`
  | swap (next : TaskPc T B C)  -- `SuspendCurrent()`, and what follows it
  | wake (pc : WakerPc T B C)

/-- The next access of a worker. -/
inductive WorkerPc (T B C : Type*)
  | pick  -- `PickTask()`
  | setCurrent (t : T)  -- `current_task_ = task`
  | setRunning (t : T)  -- `state.store(RUNNING)`
  | swapIn (t : T)  -- `SwapContext` to the task
  | exec (t : T) (c : TaskPc T B C)  -- the task's code
  | swapped (t : T)  -- `current_task_ = nullptr`
  | handle (t : T)  -- `HandleTaskAfterRun`
  | finishing (pc : WakerPc T B C)  -- `HandleFinishedBthread`: the joiners are woken

/-- `current_task_`. -/
def WorkerPc.current {T B C : Type*} : WorkerPc T B C → Option T
  | .setRunning t | .swapIn t | .exec t _ | .swapped t => some t
  | _ => none

/-! ## The state -/

/-- What the workers and the threads share. -/
structure Mem (W T B C : Type*) where
  ready : Place W → List T
  context : T → TaskPc T B C
  born : T → Bool
  epoch : T → ℕ  -- how many waits the task has begun
  value : B → Int
  queue : B → List (T × ℕ)  -- the wait queues of the butexes
  flag : C → Bool
  waiters : C → List (T × ℕ)  -- the wait queues of the condition variables and events
  isWaiting : T → Bool
  claimed : T → Bool
  waitingButex : T → Bool  -- `waiting_butex` is not null
  wakeCount : T → Int
  taskState : T → TaskState
  wakeup : T → Bool
  timedOut : T → Bool
  timerId : T → Int
  lastTimer : T → ℕ  -- the wait that `timer_id` is for
  timer : T → ℕ → Option TimerPc  -- the timers of the waits

structure State (W E T B C : Type*) where
  mem : Mem W T B C
  worker : W → WorkerPc T B C
  thread : E → Option (WakerPc T B C)

/-- What wakers call. -/
inductive Waking (T B C : Type*)
  | wake (b : B) (v count : Int)  -- `set_value(v)`, then `Wake(count)`
  | notify (c : C) (all : Bool)
  | set (c : C)
  | create (t : T)
  deriving DecidableEq

/-- What tasks call. -/
inductive Waiting (B C : Type*)
  | wait (b : B) (call : Call)
  | condWait (c : C)
  | eventWait (c : C) (autoReset : Bool)
  | yield
  | exit

inductive Label (W E T B C : Type*)
  | pickBatch (w : W)
  | pickLocal (w : W)
  | pickGlobal (w : W) (t : T)
  | steal (w v : W)
  | worker (w : W)
  | call (w : W) (k : Waiting B C)
  | wake (w : W) (k : Waking T B C)
  | joined (w : W) (b : B) (v count : Int)
  | threadWake (e : E) (k : Waking T B C)
  | thread (e : E)
  | fire (t : T) (n : ℕ)
  | timer (t : T) (n : ℕ)

variable {W E T B C : Type*}

/-- No task yet, and workers that look for one. -/
def State.start (value : B → Int) (flag : C → Bool) : State W E T B C where
  mem :=
    { ready _ := [], context _ := .user, born _ := false, epoch _ := 0, value := value, queue _ := [], flag := flag
      waiters _ := [], isWaiting _ := false, claimed _ := false, waitingButex _ := false, wakeCount _ := 0
      taskState _ := .ready, wakeup _ := false, timedOut _ := false, timerId _ := 0, lastTimer _ := 0
      timer _ _ := none }
  worker _ := .pick
  thread _ := none

/-- The size of `local_batch_`. -/
def BATCH_SIZE : ℕ := 8

section Steps

variable [DecidableEq W] [DecidableEq E] [DecidableEq T] [DecidableEq B] [DecidableEq C]

namespace Mem

variable (m : Mem W T B C)

def setReady (p : Place W) (l : List T) : Mem W T B C := { m with ready := Function.update m.ready p l }

def setState (t : T) (x : TaskState) : Mem W T B C := { m with taskState := Function.update m.taskState t x }

def setWaiting (t : T) (x : Bool) : Mem W T B C := { m with isWaiting := Function.update m.isWaiting t x }

def setClaimed (t : T) (x : Bool) : Mem W T B C := { m with claimed := Function.update m.claimed t x }

def setButex (t : T) (x : Bool) : Mem W T B C := { m with waitingButex := Function.update m.waitingButex t x }

def setQueue (b : B) (q : List (T × ℕ)) : Mem W T B C := { m with queue := Function.update m.queue b q }

def setWaiters (c : C) (q : List (T × ℕ)) : Mem W T B C := { m with waiters := Function.update m.waiters c q }

def setFlag (c : C) (x : Bool) : Mem W T B C := { m with flag := Function.update m.flag c x }

def setTimer (t : T) (n : ℕ) (pc : TimerPc) : Mem W T B C :=
  { m with timer := Function.update m.timer t (Function.update (m.timer t) n (some pc)) }

/-- The push of `Submit`. -/
def pushReady (p : Place W) (t : T) : Mem W T B C := m.setReady p (m.ready p ++ [t])

/-- `AddToHead` or `AddToTail`, which do nothing when `is_waiting` has been cleared. -/
def addWaiter (t : T) (b : B) (prepend : Bool) : Mem W T B C :=
  if m.isWaiting t = false then m
  else if prepend then m.setQueue b ((t, m.epoch t) :: m.queue b)
  else (m.setClaimed t false).setQueue b (m.queue b ++ [(t, m.epoch t)])

end Mem

/-! ## Wakers -/

/-- One access of `set_value` and `Butex::Wake`; `Submit` pushes to `p`. -/
def Mem.butexStep (m : Mem W T B C) (p : Place W) (b : B) :
    WakePc (T × ℕ) → Mem W T B C × Option (WakePc (T × ℕ))
  | .setValue v count => ({ m with value := Function.update m.value b v }, some (.futexWake count))
  | .futexWake count => (m, Butex.nextBatch ⟨count, 0⟩)
  | .pop l batch =>
    match Butex.popFromHead (fun x => m.claimed x.1) (m.queue b) with
    | (none, q) => (m.setQueue b q, Butex.afterBatch l batch)
    | (some x, q) =>
      ((m.setQueue b q).setClaimed x.1 true,
        if ((batch ++ [x]).length : Int) < min (l.count - l.total) Butex.BATCH_SIZE then some (.pop l (batch ++ [x]))
        else Butex.afterBatch l (batch ++ [x]))
  | .clearWaiting l x rest => (m.setWaiting x.1 false, some (.bump l x rest))
  | .bump l x rest =>
    ({ m with wakeCount := Function.update m.wakeCount x.1 (wrap32 (m.wakeCount x.1 + 1)) }, some (.cancel l x rest))
  | .cancel l x rest =>
    (if m.timerId x.1 ≠ 0 ∧ m.timer x.1 (m.lastTimer x.1) = some .armed then m.setTimer x.1 (m.lastTimer x.1) .over
    else m, some (.loadState l x rest))
  | .loadState l x rest =>
    (m, if m.taskState x.1 = .suspended then some (.storeReady l x rest) else Butex.afterWaiter l rest)
  | .storeReady l x rest => (m.setState x.1 .ready, some (.submit l x rest))
  | .submit l x rest => (m.setState x.1 .ready, some (.push l x rest))
  | .push l x rest => (m.pushReady p x.1, Butex.afterWaiter l rest)

/-- After a task taken from a `CondVar` or an `Event`. -/
def afterNotify (c : C) (all : Bool) : Option (WakerPc T B C) := if all then some (.popWaiter c true) else none

/-- One access of a waker; `Submit` pushes to `p`. -/
def Mem.wakerStep (m : Mem W T B C) (p : Place W) : WakerPc T B C → Mem W T B C × Option (WakerPc T B C)
  | .butex b pc => ((m.butexStep p b pc).1, (m.butexStep p b pc).2.map (.butex b))
  | .setFlag c => (m.setFlag c true, some (.popWaiter c true))
  | .popWaiter c all =>
    match m.waiters c with
    | [] => (m, none)
    | x :: q => (m.setWaiters c q, some (.storeReady c all x))
  | .storeReady c all x => (m.setState x.1 .ready, some (.submit c all x))
  | .submit c all x => (m.setState x.1 .ready, some (.push c all x))
  | .push c all x => (m.pushReady p x.1, afterNotify c all)
  | .submitNew t => (m.setState t .ready, some (.pushNew t))
  | .pushNew t => (m.pushReady p t, none)

/-- The first access of a waker. -/
def Waking.start : Waking T B C → WakerPc T B C
  | .wake b v count => .butex b (.setValue v count)
  | .notify c all => .popWaiter c all
  | .set c => .setFlag c
  | .create t => .submitNew t

/-- A waker starts; a task is made once. -/
def Mem.startWaking (m : Mem W T B C) : Waking T B C → Option (Mem W T B C)
  | .create t => if m.born t then none else some { m with born := Function.update m.born t true }
  | _ => some m

/-! ## Tasks -/

/-- One access of `Butex::Wait`, running on a worker whose local queue is `p`. -/
def Mem.waitStep (m : Mem W T B C) (p : Place W) (t : T) (b : B) (call : Call) :
    WaitPc → Mem W T B C × TaskPc T B C
  | .load => (m, if m.value b = call.expected then .wait b call .setWaiting else .user)
  | .setWaiting => if m.isWaiting t then (m, .user) else (m.setWaiting t true, .wait b call .prepare)
  | .prepare => (m.setClaimed t false, .wait b call .recheck)
  | .recheck =>
    (m, .wait b call
      (if m.value b ≠ call.expected then .withdraw else if call.timeout.isSome then .schedule else .enqueue))
  | .schedule =>
    ({ m.setTimer t (m.epoch t) .armed with
        timerId := Function.update m.timerId t (call.timeout.getD 0)
        lastTimer := Function.update m.lastTimer t (m.epoch t) }, .wait b call .enqueue)
  | .enqueue => ((m.setButex t true).addWaiter t b call.prepend, .wait b call .recheckQueued)
  | .recheckQueued => (m, .wait b call (if m.value b = call.expected then .sample else .abandon))
  | .abandon => (m.setClaimed t true, .wait b call .withdraw)
  | .sample => (m, .wait b call (.suspend (m.wakeCount t)))
  | .suspend saved =>
    if m.taskState t = .running then (m.setState t .suspended, .wait b call (.resample saved))
    else (m, .wait b call .withdraw)
  | .resample saved =>
    (m, if m.wakeCount t = saved then .swap (.wait b call .resumed) else .wait b call .takeBack)
  | .takeBack =>
    if m.taskState t = .suspended then (m.setState t .ready, .wait b call .submit) else (m, .wait b call .withdraw)
  | .submit => (m.setState t .ready, .wait b call .push)
  | .push => (m.pushReady p t, .wait b call .withdraw)
  | .withdraw => ((m.setButex t false).setWaiting t false, .user)
  | .resumed => (m.setButex t false, .user)
  | .swap | .suspended | .returned _ => (m, .user)

/-- `MaybeFlushBatch`. -/
def Mem.flush (m : Mem W T B C) (w : W) : Mem W T B C :=
  if BATCH_SIZE ≤ (m.ready (.batch w)).length then
    (m.setReady (.localQueue w) (m.ready (.localQueue w) ++ m.ready (.batch w))).setReady (.batch w) []
  else m

/-- One access of the code of task `t` on worker `w`; `none` between calls and at the `SwapContext`. -/
def Mem.taskStep (m : Mem W T B C) (w : W) (t : T) : TaskPc T B C → Option (Mem W T B C × TaskPc T B C)
  | .user | .swap _ => none
  | .wait b call pc => some (m.waitStep (.localQueue w) t b call pc)
  | .loadFlag c autoReset => some (m, if m.flag c then (if autoReset then .resetFlag c else .user) else .park c)
  | .resetFlag c => some (m.setFlag c false, .user)
  | .park c => some (m.setState t .suspended, .publish c)
  | .publish c => some (m.setWaiters c (m.waiters c ++ [(t, m.epoch t)]), .swap .user)
  | .yield => some (m, if m.ready (.batch w) = [] ∧ m.ready (.localQueue w) = [] then .user else .yieldReady)
  | .yieldReady => some (m.setState t .ready, .yieldBatch)
  | .yieldBatch => some (m.pushReady (.batch w) t, .yieldFlush)
  | .yieldFlush => some (m.flush w, .swap .user)
  | .exit => some (m.setState t .finished, .swap .exit)
  | .wake pc => some ((m.wakerStep (.localQueue w) pc).1, (m.wakerStep (.localQueue w) pc).2.elim .user .wake)

/-- A task calls something: a wait that it begins gets the next number. -/
def Mem.startWaiting (m : Mem W T B C) (t : T) : Waiting B C → Mem W T B C × TaskPc T B C
  | .wait b call => ({ m with epoch := Function.update m.epoch t (m.epoch t + 1) }, .wait b call .load)
  | .condWait c => ({ m with epoch := Function.update m.epoch t (m.epoch t + 1) }, .park c)
  | .eventWait c autoReset => ({ m with epoch := Function.update m.epoch t (m.epoch t + 1) }, .loadFlag c autoReset)
  | .yield => (m, .yield)
  | .exit => (m, .exit)

/-! ## Timers -/

/-- One access of the callback of the timer of the task's `n`-th wait. -/
def Mem.timerStep (m : Mem W T B C) (t : T) (n : ℕ) : TimerPc → Option (Mem W T B C)
  | .armed | .over => none
  | .claim => some (if m.wakeup t then m.setTimer t n .over
      else { m with wakeup := Function.update m.wakeup t true }.setTimer t n .mark)
  | .mark => some ({ m with timedOut := Function.update m.timedOut t true }.setTimer t n .loadState)
  | .loadState => some (m.setTimer t n (if m.taskState t = .suspended then .remove else .over))
  | .remove =>
    some (if m.waitingButex t ∧ m.isWaiting t then (m.setWaiting t false).setTimer t n .setClaimed
    else m.setTimer t n .storeReady)
  | .setClaimed => some ((m.setClaimed t true).setTimer t n .storeReady)
  | .storeReady => some ((m.setState t .ready).setTimer t n .submit)
  | .submit => some ((m.setState t .ready).setTimer t n .push)
  | .push => some ((m.pushReady .global t).setTimer t n .over)

/-! ## Workers -/

def State.goto (s : State W E T B C) (m : Mem W T B C) (w : W) (pc : WorkerPc T B C) : State W E T B C :=
  { s with mem := m, worker := Function.update s.worker w pc }

/-- The next access of a worker; `none` in `PickTask`, and where its task is between calls. -/
def State.access (s : State W E T B C) (w : W) : WorkerPc T B C → Option (State W E T B C)
  | .pick => none
  | .setCurrent t => some (s.goto s.mem w (.setRunning t))
  | .setRunning t => some (s.goto (s.mem.setState t .running) w (.swapIn t))
  | .swapIn t => some (s.goto s.mem w (.exec t (s.mem.context t)))
  | .exec t (.swap next) =>
    some (s.goto { s.mem with context := Function.update s.mem.context t next } w (.swapped t))
  | .exec t c => (s.mem.taskStep w t c).map fun r => s.goto r.1 w (.exec t r.2)
  | .swapped t => some (s.goto s.mem w (.handle t))
  | .handle _ => some (s.goto s.mem w .pick)
  | .finishing pc =>
    some (s.goto (s.mem.wakerStep (.localQueue w) pc).1 w
      ((s.mem.wakerStep (.localQueue w) pc).2.elim .pick .finishing))

/-- `PickTask` has returned `t`, which was the last of what is left of `local_batch_`. -/
def State.pickLast (s : State W E T B C) (m : Mem W T B C) (w : W) (l : List T) : Option (State W E T B C) :=
  l.getLast?.map fun t => s.goto (m.setReady (.batch w) l.dropLast) w (.setCurrent t)

/-- The worker's batch and its local queue are empty. -/
def State.starved (s : State W E T B C) (w : W) : Prop :=
  s.mem.ready (.batch w) = [] ∧ s.mem.ready (.localQueue w) = []

instance (s : State W E T B C) (w : W) : Decidable (s.starved w) := inferInstanceAs (Decidable (_ ∧ _))

/-- `PopMultiple`: the last tasks of the local queue, in the order of the pops. -/
def popMultiple (l : List T) : List T × List T :=
  (l.take (l.length - BATCH_SIZE), (l.drop (l.length - BATCH_SIZE)).reverse)

/-- One step. -/
def step (s : State W E T B C) : Label W E T B C → Option (State W E T B C)
  | .pickBatch w =>
    match s.worker w with
    | .pick => s.pickLast s.mem w (s.mem.ready (.batch w))
    | _ => none
  | .pickLocal w =>
    match s.worker w, s.mem.ready (.batch w) with
    | .pick, [] =>
      let r := popMultiple (s.mem.ready (.localQueue w))
      s.pickLast (s.mem.setReady (.localQueue w) r.1) w r.2
    | _, _ => none
  | .pickGlobal w t =>
    match s.worker w with
    | .pick =>
      if s.starved w ∧ t ∈ s.mem.ready .global then
        some (s.goto (s.mem.setReady .global ((s.mem.ready .global).erase t)) w (.setCurrent t))
      else none
    | _ => none
  | .steal w v =>
    match s.worker w, s.mem.ready (.localQueue v) with
    | .pick, t :: l =>
      if s.starved w then some (s.goto (s.mem.setReady (.localQueue v) l) w (.setCurrent t)) else none
    | _, _ => none
  | .worker w => s.access w (s.worker w)
  | .call w k =>
    match s.worker w with
    | .exec t .user => some (s.goto (s.mem.startWaiting t k).1 w (.exec t (s.mem.startWaiting t k).2))
    | _ => none
  | .wake w k =>
    match s.worker w with
    | .exec t .user => (s.mem.startWaking k).map fun m => s.goto m w (.exec t (.wake k.start))
    | _ => none
  | .joined w b v count =>
    match s.worker w with
    | .handle t =>
      if s.mem.taskState t = .finished then some (s.goto s.mem w (.finishing (.butex b (.setValue v count)))) else none
    | _ => none
  | .threadWake e k =>
    match s.thread e with
    | none => (s.mem.startWaking k).map fun m =>
        { s with mem := m, thread := Function.update s.thread e (some k.start) }
    | _ => none
  | .thread e =>
    (s.thread e).map fun pc => { s with
      mem := (s.mem.wakerStep .global pc).1
      thread := Function.update s.thread e (s.mem.wakerStep .global pc).2 }
  | .fire t n =>
    if s.mem.timer t n = some .armed then some { s with mem := s.mem.setTimer t n .claim } else none
  | .timer t n => ((s.mem.timer t n).bind (s.mem.timerStep t n)).map fun m => { s with mem := m }

end Steps

/-- Any workers, and any other threads. -/
def system (W E T B C : Type*) [DecidableEq W] [DecidableEq E] [DecidableEq T] [DecidableEq B] [DecidableEq C] :
    System (State W E T B C) (Label W E T B C) where
  init s := ∃ value flag, s = .start value flag
  step := step

end Cothread.Worker
