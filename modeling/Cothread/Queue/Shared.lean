import Cothread.Core.Basic
import Cothread.Queue.Mpsc

/-!
# `SharedMPSCQueue`: the atomic accesses of `Push` and `Pop`

Every worker has a shard, an `MpscQueue`. `Push` picks the shard of its task round-robin; `Pop` of a worker tries the
worker's own shard and then all others, so that several workers may run `MpscQueue::Pop` on one shard. The `next`
fields of the tasks are shared by all shards. `system n` interleaves the accesses of any number of `Push` calls with
`Pop` calls of any number of workers, at most one call of each worker at a time.
-/

namespace Cothread.Shared

open Run

/-- The shards, with the `next` fields of all tasks. -/
structure Queue (T : Type*) where
  roundRobin : Int
  totalCount : Int
  head : Int → Option T
  tail : Int → Option T
  next : T → Option T

def Queue.empty {T : Type*} : Queue T := ⟨0, 0, fun _ => none, fun _ => none, fun _ => none⟩

/-- What an access to `shards_[i]` sees. -/
def Queue.shard {T : Type*} (q : Queue T) (i : Int) : Mpsc.Mem T := ⟨q.head i, q.tail i, q.next⟩

def Queue.setShard {T : Type*} (q : Queue T) (i : Int) (m : Mpsc.Mem T) : Queue T :=
  { q with head := Function.update q.head i m.head, tail := Function.update q.tail i m.tail, next := m.next }

/-! ## `Push` -/

/-- The next atomic access of a `Push` in progress. -/
inductive PushPc (T : Type*)
  | assign (task : T)  -- `shard = round_robin_.fetch_add(1) % worker_count_`
  | shard (i : Int) (pc : Mpsc.PushPc T)  -- inside `shards_[i].Push(task)`
  | count  -- `total_count_.fetch_add(1)`
  deriving DecidableEq

variable {T : Type*} [DecidableEq T]

/-- One atomic access of `SharedMPSCQueue::Push` with `worker_count_ = n`; `none` when the call has returned. -/
def pushStep (n : Int) (q : Queue T) : PushPc T → Queue T × Option (PushPc T)
  | .assign task =>
    ({ q with roundRobin := wrap32 (q.roundRobin + 1) }, some (.shard (q.roundRobin.tmod n) (.clear task)))
  | .shard i pc =>
    let r := Mpsc.pushStep (q.shard i) pc
    (q.setShard i r.1, some (match r.2 with
      | some pc' => .shard i pc'
      | none => .count))
  | .count => ({ q with totalCount := wrap32 (q.totalCount + 1) }, none)

/-! ## `Pop` -/

/-- The next atomic access of a `Pop` in progress. -/
inductive PopPc (T : Type*)
  | own (pc : Mpsc.PopPc T)  -- inside `shards_[worker_id].Pop()`
  | steal (i : Int) (pc : Mpsc.PopPc T)  -- inside `shards_[i].Pop()` of the loop over the other shards
  | count (task : T)  -- `total_count_.fetch_sub(1)`, then `return task`
  deriving DecidableEq

/-- What an access of `Pop` leads to: the next access, or the call's return value. -/
inductive PopResult (T : Type*)
  | running (pc : PopPc T)
  | returned (task : Option T)

/-- The loop over the other shards, from `i` on. -/
def stealFrom (n w i : Int) : PopResult T :=
  let j := if i = w then i + 1 else i
  if j < n then .running (.steal j .loadTail) else .returned none

/-- The first access of `Pop(w)`. -/
def popStart (n w : Int) : PopResult T :=
  if 0 ≤ w ∧ w < n then .running (.own .loadTail) else stealFrom n w 0

/-- One access of `shards_[i].Pop()`; `onEmpty` follows when it returns null. -/
def shardPop (q : Queue T) (i : Int) (pc : Mpsc.PopPc T) (inside : Mpsc.PopPc T → PopPc T) (onEmpty : PopResult T) :
    Queue T × PopResult T :=
  let r := Mpsc.popStep (q.shard i) pc
  (q.setShard i r.1, match r.2 with
    | .running pc' => .running (inside pc')
    | .returned (some task) => .running (.count task)
    | .returned none => onEmpty)

/-- One atomic access of `SharedMPSCQueue::Pop(w)`. -/
def popStep (n w : Int) (q : Queue T) : PopPc T → Queue T × PopResult T
  | .own pc => shardPop q w pc .own (stealFrom n w 0)
  | .steal i pc => shardPop q i pc (.steal i) (stealFrom n w (i + 1))
  | .count task => ({ q with totalCount := wrap32 (q.totalCount - 1) }, .returned (some task))

/-! ## Producers and workers -/

/-- The queue, the calls in progress and the history. -/
structure State (P T : Type*) where
  queue : Queue T
  push : P → Option (PushPc T)
  pop : Int → Option (PopPc T)
  pushed : List T  -- the tasks of all `Push` calls so far
  returned : List T  -- the tasks that `Pop` returned

/-- Who acts: a call starts, or a call in progress performs its next access. -/
inductive Label (P T : Type*)
  | push (p : P) (task : T)
  | producer (p : P)
  | pop (w : Int)
  | worker (w : Int)
  deriving DecidableEq

/-- After `Init`, before any call. -/
def State.empty {P T : Type*} : State P T := ⟨.empty, fun _ => none, fun _ => none, [], []⟩

variable {P : Type*} [DecidableEq P]

/-- The worker's `Pop` goes on, or returns. -/
def State.popped (s : State P T) (w : Int) : PopResult T → State P T
  | .running pc => { s with pop := Function.update s.pop w (some pc) }
  | .returned none => { s with pop := Function.update s.pop w none }
  | .returned (some task) => { s with pop := Function.update s.pop w none, returned := s.returned ++ [task] }

/-- The producer `p` performs the next access `pc` of its `Push`. -/
def State.producer (n : Int) (s : State P T) (p : P) (pc : PushPc T) : State P T :=
  { s with queue := (pushStep n s.queue pc).1, push := Function.update s.push p (pushStep n s.queue pc).2 }

/-- The worker `w` performs the next access `pc` of its `Pop`. -/
def State.worker (n : Int) (s : State P T) (w : Int) (pc : PopPc T) : State P T :=
  { s with queue := (popStep n w s.queue pc).1 }.popped w (popStep n w s.queue pc).2

/-- One step; each task is pushed once. -/
def step (n : Int) (s : State P T) : Label P T → Option (State P T)
  | .push p task =>
    if s.push p = none ∧ task ∉ s.pushed then
      some { s with push := Function.update s.push p (some (.assign task)), pushed := task :: s.pushed }
    else none
  | .producer p => (s.push p).map (s.producer n p)
  | .pop w => if s.pop w = none then some (s.popped w (popStart n w)) else none
  | .worker w => (s.pop w).map (s.worker n w)

/-- `Push` and `Pop` after `Init(n)`. -/
def system (P T : Type*) [DecidableEq P] [DecidableEq T] (n : Int) : System (State P T) (Label P T) where
  init s := s = .empty
  step := step n

end Cothread.Shared
