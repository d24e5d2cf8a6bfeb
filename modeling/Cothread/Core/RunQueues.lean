import Cothread.Core.Basic
import Cothread.Lib.Once
import Cothread.Queue.WorkStealingAtomic

/-!
# The scheduler's queues: where a submitted task is stored

`n` workers and any number of other threads submit tasks. A worker pushes to its own local queue, another thread to a
shard of the global queue; `YieldCurrent` puts the current task into `local_batch_`, which is flushed into the local
queue when it is full; `PickTask` looks in the batch, the local queue, the global queue and the local queues of the
other workers. The operations of the queues are atomic, and a step of a worker is one of them. A task is submitted, or
yields, only while it is not waiting to be picked. Every task that waits to be picked is stored in exactly one place
(`StoredOnce`), in every run in which no task is pushed to a local queue without room (`Overfull`).
-/

namespace Cothread.RunQueues

open Run WorkStealing

def BATCH_SIZE : ℕ := 8

/-- Where a worker is in `MaybeFlushBatch` and `PickTask`. -/
inductive Pc
  | out  -- in neither
  | flush (i : ℕ)  -- `local_queue_.Push(local_batch_[i])`
  | take  -- `return local_batch_[--batch_count_]`
  | fill (count : ℕ)  -- `PopMultiple(local_batch_, BATCH_SIZE)`, which has popped `count` tasks
  | global  -- `PopGlobal(id_)`
  | steal (i : ℕ)  -- the attempt `i` to steal
  deriving DecidableEq

structure State (n : ℕ) (T : Type*) where
  shards : Int → List T
  roundRobin : Int
  queue : Fin n → Queue T  -- `local_queue_`
  batch : Fin n → ℕ → Option T  -- `local_batch_`
  batchCount : Fin n → ℕ
  pc : Fin n → Pc
  current : Fin n → Option T  -- `current_task_`
  waiting : T → Bool  -- submitted or yielded, and not picked since

inductive Label (n : ℕ) (T : Type*)
  | submit (task : T)
  | submitLocal (w : Fin n) (task : T)
  | yield (w : Fin n)
  | finish (w : Fin n)
  | pick (w : Fin n)
  | worker (w : Fin n)
  deriving DecidableEq

def State.start {n : ℕ} {T : Type*} : State n T where
  shards _ := []
  roundRobin := 0
  queue _ := .new
  batch _ _ := none
  batchCount _ := 0
  pc _ := .out
  current _ := none
  waiting _ := false

variable {n : ℕ} {T : Type*}

def State.goto (s : State n T) (w : Fin n) (pc : Pc) : State n T := { s with pc := Function.update s.pc w pc }

def State.setQueue (s : State n T) (w : Fin n) (q : Queue T) : State n T :=
  { s with queue := Function.update s.queue w q }

def State.setCount (s : State n T) (w : Fin n) (k : ℕ) : State n T :=
  { s with batchCount := Function.update s.batchCount w k }

def State.setBatch (s : State n T) (w : Fin n) (k : ℕ) (task : Option T) : State n T :=
  { s with batch := Function.update s.batch w (Function.update (s.batch w) k task) }

/-- The shard that the next `SharedMPSCQueue::Push` pushes to. -/
def State.shard (s : State n T) : Int := s.roundRobin.tmod n

/-- `SharedMPSCQueue::Push`. -/
def State.pushGlobal (s : State n T) (task : T) : State n T :=
  { s with
    shards := Function.update s.shards s.shard (s.shards s.shard ++ [task])
    roundRobin := wrap32 (s.roundRobin + 1) }

/-- The shards that `SharedMPSCQueue::Pop` tries, in order. -/
def popOrder (w : Fin n) : List Int := (w : Int) :: ((List.range n).map Int.ofNat).filter (· ≠ w)

/-- The first task of the first shard that is not empty, and the shards without it. -/
def popShards (shards : Int → List T) : List Int → Option (T × (Int → List T))
  | [] => none
  | i :: order => match shards i with
    | [] => popShards shards order
    | task :: q => some (task, Function.update shards i q)

/-- The worker that attempt `i` of the worker `w` steals from. -/
def victim (w : Fin n) (i : ℕ) : Fin n := ⟨((w + 1) % n + i) % n, Nat.mod_lt _ w.pos⟩

variable [DecidableEq T]

def State.setWaiting (s : State n T) (task : T) (b : Bool) : State n T :=
  { s with waiting := Function.update s.waiting task b }

/-- `PickTask` returns the task, which becomes the current one; or null. -/
def State.picked (s : State n T) (w : Fin n) : Option T → State n T
  | none => s.goto w .out
  | some task => { (s.setWaiting task false).goto w .out with current := Function.update s.current w (some task) }

/-- The attempt to steal after the attempt `i`. -/
def State.nextSteal (s : State n T) (w : Fin n) (i : ℕ) : State n T :=
  if i + 1 < 2 * n then s.goto w (.steal (i + 1)) else s.picked w none

/-- `YieldCurrent` of the task that the worker executes. -/
def State.yield (s : State n T) (w : Fin n) (task : T) : State n T :=
  if s.batchCount w = 0 ∧ (s.queue w).empty then s
  else
    { ((s.setBatch w (s.batchCount w) (some task)).setCount w (s.batchCount w + 1)).setWaiting task true with
      current := Function.update s.current w none }.goto w
      (if BATCH_SIZE ≤ s.batchCount w + 1 then .flush 0 else .out)

/-- A queue operation of a worker in `MaybeFlushBatch` or `PickTask`, and what follows it. -/
def State.access (s : State n T) (w : Fin n) : Pc → Option (State n T)
  | .out => none
  | .flush i => some
      (let s' := s.setQueue w ((s.queue w).push (s.batch w i))
      if i + 1 < s.batchCount w then s'.goto w (.flush (i + 1)) else (s'.setCount w 0).goto w .out)
  | .take => some ((s.setCount w (s.batchCount w - 1)).picked w (s.batch w (s.batchCount w - 1)))
  | .fill k => some (match (s.queue w).pop with
      | (q, some task) =>
        let s' := (s.setQueue w q).setBatch w k (some task)
        if k + 1 < BATCH_SIZE then s'.goto w (.fill (k + 1)) else (s'.setCount w (k + 1)).goto w .take
      | (q, none) =>
        if 0 < k then ((s.setQueue w q).setCount w k).goto w .take else (s.setQueue w q).goto w .global)
  | .global => some (match popShards s.shards (popOrder w) with
      | some (task, shards) => { s with shards := shards }.picked w (some task)
      | none => if n ≤ 1 then s.picked w none else s.goto w (.steal 0))
  | .steal i => some
      (if victim w i = w then s.nextSteal w i
      else match (s.queue (victim w i)).steal with
        | (q, some task) => (s.setQueue (victim w i) q).picked w (some task)
        | (q, none) => (s.setQueue (victim w i) q).nextSteal w i)

/-- One step. -/
def step (s : State n T) : Label n T → Option (State n T)
  | .submit task => if s.waiting task = false then some ((s.pushGlobal task).setWaiting task true) else none
  | .submitLocal w task =>
    if s.pc w = .out ∧ s.waiting task = false then
      some ((s.setQueue w ((s.queue w).push (some task))).setWaiting task true)
    else none
  | .yield w => match s.current w with
    | some task => if s.pc w = .out ∧ s.waiting task = false then some (s.yield w task) else none
    | none => none
  | .finish w =>
    if s.pc w = .out then some { s with current := Function.update s.current w none } else none
  | .pick w =>
    if s.pc w = .out ∧ s.current w = none then
      some (s.goto w (if 0 < s.batchCount w then .take else .fill 0))
    else none
  | .worker w => s.access w (s.pc w)

/-- `n` workers and any tasks. -/
def system (n : ℕ) (T : Type*) [DecidableEq T] : System (State n T) (Label n T) where
  init s := s = .start
  step := step

/-! ## Where the tasks are -/

inductive Place (n : ℕ)
  | shard (i : Int)
  | batch (w : Fin n)
  | window (w : Fin n)
  deriving DecidableEq

/-- The tasks in `b[i..k)`. -/
def slots (b : ℕ → Option T) (i k : ℕ) : List T := ((List.range' i (k - i)).map b).reduceOption

omit [DecidableEq T] in
/-- `local_batch_[0..batch_count_)`; during `MaybeFlushBatch` what it has not pushed yet, and during `PopMultiple` what
it has popped. -/
def State.stored (s : State n T) (w : Fin n) : List T :=
  match s.pc w with
  | .flush i => slots (s.batch w) i (s.batchCount w)
  | .fill k => slots (s.batch w) 0 k
  | _ => slots (s.batch w) 0 (s.batchCount w)

/-- The tasks that a place holds. -/
def State.at (s : State n T) : Place n → List T
  | .shard i => if 0 ≤ i ∧ i < n then s.shards i else []
  | .batch w => s.stored w
  | .window w => (s.queue w).window.reduceOption

/-- **Every waiting task is stored in exactly one place**, and no local queue has a slot of its window behind the
window, which the next `Push` writes. -/
def StoredOnce (s : State n T) : Prop :=
  (∀ task, s.waiting task = true → ∃ p, (s.at p).count task = 1 ∧ ∀ p', p' ≠ p → task ∉ s.at p') ∧
    ∀ w i, i < (s.queue w).window.length →
      (extractIndex (s.queue w).head + i) % CAPACITY ≠ extractIndex (s.queue w).tail

/-- The window of the worker's local queue has no room: it holds `CAPACITY - 1` tasks. -/
def State.Full (s : State n T) (w : Fin n) : Prop := (s.queue w).window.length + 1 = CAPACITY

/-- A task is pushed to a local queue without room, or to a shard that does not exist. -/
def Overfull (s : State n T) : Label n T → Prop
  | .submit _ => ¬(0 ≤ s.shard ∧ s.shard < n)
  | .submitLocal w _ => s.Full w
  | .worker w => (∃ i, s.pc w = .flush i) ∧ s.Full w
  | _ => False

end Cothread.RunQueues
