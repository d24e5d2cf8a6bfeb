import Cothread.Core.Basic
import Cothread.Core.IdleRegistry
import Cothread.Core.RunQueues
import Cothread.Lib.Count

/-!
# `Scheduler::Submit` from outside threads and `Worker::WaitForTask`

Any number of threads that are not workers submit tasks: they push to a shard of the global queue, count the task, pop
an idle worker and wake it. `n` workers run tasks, pop the global queue, spin, register as idle and sleep in
`FutexWait`. The local queues stay empty, since only a worker pushes to its own. A step is one access; the shards of
the global queue are taken to be atomic. While a task is in the global queue and no `Submit` is in progress, some
worker that runs no task is not asleep (`Attended`), in every run in which no `Submit` spends its wake-up on a worker
that is not dozing (`Missed`). The registry does not give that: a worker is on it before it has loaded `wake_count_`
(`left_asleep`).
-/

namespace Cothread.WaitForTask

open Run Count RunQueues

def MAX_SPINS : ℕ := 50

def SPIN_CHECK_INTERVAL : ℕ := 5

/-- The next access of a worker. -/
inductive WorkerPc (n : ℕ)
  | running  -- a task
  -- `PickTask`
  | popGlobal (i : ℕ)  -- `shards_[j].Pop()` of shard number `i` of those that `Pop` tries
  | popped  -- `total_count_.fetch_sub(1)`
  -- `WaitForTask`
  | check (spins : ℕ)  -- `global_queue().Empty()` at the start of the loop
  | spinCheck (spins : ℕ)  -- `global_queue().Empty()` during the spin
  | registerHead  -- `RegisterIdleWorker`: `idle_head_.load()`
  | registerNext (head : Option (Fin n))  -- `idle_next_[worker_id].store(old_head)`
  | registerSwap (head : Option (Fin n))  -- `idle_head_.compare_exchange(old_head, worker_id)`
  | loadCount  -- `wake_count_.load()`
  | recheck (expected : Int)  -- `global_queue().Empty()`
  | checkPending (expected : Int)  -- `wake_pending_.load()`
  | wait (expected : Int)  -- `FutexWait` compares `wake_count_`
  | asleep (expected : Int)
  deriving DecidableEq

/-- The next access of a thread in `Submit`. -/
inductive SubmitPc (n : ℕ) (T : Type*)
  | roundRobin (task : T)  -- `round_robin_.fetch_add(1)`
  | push (task : T) (shard : Int)  -- `shards_[shard].Push(task)`
  | count  -- `total_count_.fetch_add(1)`
  -- `PopIdleWorker`
  | popHead  -- `idle_head_.load()`
  | popNext (w : Fin n)  -- `idle_next_[worker_id].load()`
  | popSwap (w : Fin n) (next : Option (Fin n))  -- `idle_head_.compare_exchange(worker_id, next)`
  -- `WakeUp`
  | setPending (w : Fin n)  -- `wake_pending_.store(true)`
  | wake (w : Fin n)  -- `wake_count_.fetch_add(1)`
  | futexWake (w : Fin n)
  | clearPending (w : Fin n)  -- `wake_pending_.store(false)`
  deriving DecidableEq

structure State (n : ℕ) (S T : Type*) where
  shards : Int → List T
  roundRobin : Int
  totalCount : Int
  registry : Idle.Registry (Fin n)
  wakeCount : Fin n → Int
  wakePending : Fin n → Bool
  worker : Fin n → WorkerPc n
  submit : S → Option (SubmitPc n T)

/-- Who acts: a `Submit` starts, or goes on; a worker goes on; its task ends; its `FutexWait` ends without a wake. -/
inductive Label (n : ℕ) (S T : Type*)
  | submit (j : S) (task : T)
  | submitter (j : S)
  | worker (w : Fin n)
  | finish (w : Fin n)
  | timeout (w : Fin n)
  deriving DecidableEq

variable {n : ℕ} {S T : Type*}

def State.start : State n S T where
  shards _ := []
  roundRobin := 0
  totalCount := 0
  registry := ⟨none, fun _ => none⟩
  wakeCount _ := 0
  wakePending _ := false
  worker _ := .popGlobal 0
  submit _ := none

def State.goto (s : State n S T) (w : Fin n) (pc : WorkerPc n) : State n S T :=
  { s with worker := Function.update s.worker w pc }

/-- What follows `spin_count` when the queue is empty. -/
def spun (n spins : ℕ) : WorkerPc n :=
  if spins < MAX_SPINS then
    if (spins + 1) % SPIN_CHECK_INTERVAL = 0 then .spinCheck (spins + 1) else .check (spins + 1)
  else .registerHead

/-- An access of a worker; `none` when it has none. -/
def State.access (s : State n S T) (w : Fin n) : WorkerPc n → Option (State n S T)
  | .running | .asleep _ => none
  | .popGlobal i => some (match (popOrder w)[i]? with
      | none => s.goto w (.check 0)
      | some j => match s.shards j with
        | [] => s.goto w (.popGlobal (i + 1))
        | _ :: q => { s with shards := Function.update s.shards j q }.goto w .popped)
  | .popped => some ({ s with totalCount := wrap32 (s.totalCount - 1) }.goto w .running)
  | .check spins => some (s.goto w (if s.totalCount = 0 then spun n spins else .popGlobal 0))
  | .spinCheck spins => some (s.goto w (if s.totalCount = 0 then .check spins else .popGlobal 0))
  | .registerHead => some (s.goto w (.registerNext s.registry.head))
  | .registerNext head => some
      ({ s with registry := { s.registry with next := Function.update s.registry.next w head } }.goto w
        (.registerSwap head))
  | .registerSwap head => some
      (if s.registry.head = head then { s with registry := { s.registry with head := some w } }.goto w .loadCount
      else s.goto w (.registerNext s.registry.head))
  | .loadCount => some (s.goto w (.recheck (s.wakeCount w)))
  | .recheck expected => some (s.goto w (if s.totalCount = 0 then .checkPending expected else .check 0))
  | .checkPending expected => some (s.goto w (if s.wakePending w then .check 0 else .wait expected))
  | .wait expected => some (s.goto w (if s.wakeCount w = expected then .asleep expected else .check 0))

variable [DecidableEq S]

def State.proceed (s : State n S T) (j : S) (pc : Option (SubmitPc n T)) : State n S T :=
  { s with submit := Function.update s.submit j pc }

/-- `FutexWake(&wake_count_, 1)`. -/
def State.futexWake (s : State n S T) (w : Fin n) : State n S T :=
  match s.worker w with
  | .asleep _ => s.goto w (.check 0)
  | _ => s

/-- An access of a thread in `Submit`. -/
def State.submitStep (s : State n S T) (j : S) : SubmitPc n T → State n S T
  | .roundRobin task =>
    { s with roundRobin := wrap32 (s.roundRobin + 1) }.proceed j (some (.push task (s.roundRobin.tmod n)))
  | .push task i =>
    { s with shards := Function.update s.shards i (s.shards i ++ [task]) }.proceed j (some .count)
  | .count => { s with totalCount := wrap32 (s.totalCount + 1) }.proceed j (some .popHead)
  | .popHead => s.proceed j (s.registry.head.map .popNext)
  | .popNext w => s.proceed j (some (.popSwap w (s.registry.next w)))
  | .popSwap w next =>
    if s.registry.head = some w then
      { s with registry := { s.registry with head := next } }.proceed j (some (.setPending w))
    else s.proceed j (s.registry.head.map .popNext)
  | .setPending w => { s with wakePending := Function.update s.wakePending w true }.proceed j (some (.wake w))
  | .wake w =>
    { s with wakeCount := Function.update s.wakeCount w (wrap32 (s.wakeCount w + 1)) }.proceed j (some (.futexWake w))
  | .futexWake w => (s.futexWake w).proceed j (some (.clearPending w))
  | .clearPending w => { s with wakePending := Function.update s.wakePending w false }.proceed j none

/-- One step. -/
def step (s : State n S T) : Label n S T → Option (State n S T)
  | .submit j task => if (s.submit j).isNone then some (s.proceed j (some (.roundRobin task))) else none
  | .submitter j => (s.submit j).map (s.submitStep j)
  | .worker w => s.access w (s.worker w)
  | .finish w => if s.worker w = .running then some (s.goto w (.popGlobal 0)) else none
  | .timeout w => match s.worker w with
    | .asleep _ => some (s.goto w (.check 0))
    | _ => none

/-- `n` workers, and any other threads. -/
def system (n : ℕ) (S T : Type*) [DecidableEq S] : System (State n S T) (Label n S T) where
  init s := s = .start
  step := step

/-! ## The property -/

/-- The worker has a task. -/
def WorkerPc.busy : WorkerPc n → Bool
  | .running | .popped => true
  | _ => false

/-- **A worker is coming**: while no `Submit` is in progress and the global queue holds a task, some worker without a
task, if there is one, is not asleep in `FutexWait` with an unchanged `wake_count_`. -/
def Attended (s : State n S T) : Prop :=
  (∀ j, s.submit j = none) → (∃ i, s.shards i ≠ []) → (∃ w, (s.worker w).busy = false) →
    ∃ w, (s.worker w).busy = false ∧ s.worker w ≠ .asleep (s.wakeCount w)

/-- The value of `wake_count_` that a worker which has found the queue empty has loaded before. -/
def WorkerPc.expects : WorkerPc n → Option Int
  | .checkPending e | .wait e | .asleep e => some e
  | _ => none

/-- The worker has found the queue empty, and `wake_count_` has not changed since. -/
def State.Dozing (s : State n S T) (w : Fin n) : Prop := (s.worker w).expects = some (s.wakeCount w)

instance (s : State n S T) (w : Fin n) : Decidable (s.Dozing w) := inferInstanceAs (Decidable (_ = _))

/-- The thread has pushed a task, and has not woken a worker yet. -/
def SubmitPc.due : SubmitPc n T → Bool
  | .roundRobin _ | .push _ _ | .futexWake _ | .clearPending _ => false
  | _ => true

/-- The threads that have yet to wake a worker, and the workers that have no task and do not doze. -/
def State.Attends (s : State n S T) : S ⊕ Fin n → Prop
  | .inl j => ∃ pc, s.submit j = some pc ∧ pc.due = true
  | .inr w => (s.worker w).busy = false ∧ ¬s.Dozing w

/-- The number of tasks in the global queue. -/
def State.tasks (s : State n S T) : ℕ := ∑ i : Fin n, (s.shards i).length

/-- The next access of `Submit` wakes a worker that does not doze, or `PopIdleWorker` returns -1. -/
def State.Unaimed (s : State n S T) (j : S) : Prop :=
  (s.submit j = some .popHead ∧ s.registry.head = none) ∨
    (∃ w next, s.submit j = some (.popSwap w next) ∧ s.registry.head = none) ∨
    ∃ w, s.submit j = some (.wake w) ∧ ¬s.Dozing w

/-- `round_robin_` has overflowed and there is no such shard, `total_count_` overflows, or `wake_count_` comes back to
the value that the worker has loaded. -/
def State.Laps (s : State n S T) (j : S) : Prop :=
  (∃ task i, s.submit j = some (.push task i) ∧ ¬(0 ≤ i ∧ i < n)) ∨
    (s.submit j = some .count ∧ wrap32 (s.totalCount + 1) ≠ s.totalCount + 1) ∨
    ∃ w, s.submit j = some (.wake w) ∧ (s.worker w).expects = some (wrap32 (s.wakeCount w + 1))

/-- A `Submit` spends its wake-up on a worker that does not doze, or on none, while another worker dozes and more tasks
are queued than there are other threads that have yet to wake a worker and workers that are coming; or a counter
laps. -/
def Missed (s : State n S T) : Label n S T → Prop
  | .submitter j => (s.Unaimed j ∧ (∃ w, s.Dozing w) ∧
      ∃ m, Counts (fun p => p ≠ .inl j ∧ s.Attends p) m ∧ m < s.tasks) ∨ s.Laps j
  | _ => False

end Cothread.WaitForTask
