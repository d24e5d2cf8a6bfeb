import Cothread.Core.Worker

/-!
# `Worker`: finished bthreads, reference counts and the return of a `TaskMeta`

The system of `Worker` together with what `HandleTaskAfterRun` does when it reads `FINISHED`: `HandleFinishedBthread`
wakes the joiners, releases a reference and, when it was the last one, gives the `TaskMeta` back. The other reference is
released by the one call of `bthread_join` or `bthread_detach`. Whether `HandleFinishedBthread` finds joiners to wake,
and when the wait of `bthread_join` ends, is left open. `ref_count` is 2 before anybody knows the bthread. The state
records how often each bthread is finished and recycled, and which workers have switched away from a bthread that
another worker has switched to since (`resumed`).
-/

namespace Cothread.Finish

open Run
open Worker (WorkerPc WakerPc Waking)

/-- What a worker has still to do in `HandleFinishedBthread`, once the joiners are woken. -/
inductive FinishPc (T : Type*)
  | release (t : T)  -- `task->Release()`
  | recycle (t : T)  -- `ReleaseTaskMeta(task)`
  deriving DecidableEq

/-- The next access of the call of `bthread_join` or `bthread_detach`. -/
inductive JoinPc
  | idle  -- not called yet
  | testState  -- `bthread_join`: `task->state.load() == FINISHED`
  | wait  -- in `join_butex->Wait(generation)`
  | release  -- `task->Release()`, or `ref_count.fetch_sub(1)` of `bthread_detach`
  | recycle  -- `ReleaseTaskMeta(task)`, or `DeallocTaskMeta(task)`
  | done
  deriving DecidableEq

structure State (W E T B C : Type*) where
  base : Worker.State W E T B C
  resumed : W → Bool
  finish : W → Option (FinishPc T)
  refCount : T → Int
  join : T → JoinPc
  finished : T → ℕ  -- how often `HandleFinishedBthread` was executed for the bthread
  recycled : T → ℕ  -- how often its `TaskMeta` was given back

inductive Label (W E T B C : Type*)
  | base (l : Worker.Label W E T B C)
  | finish (w : W)
  | join (t : T)
  | detach (t : T)
  | joiner (t : T)

variable {W E T B C : Type*}

/-- The worker whose `PickTask` this is. -/
def picker : Worker.Label W E T B C → Option W
  | .pickBatch w | .pickLocal w | .pickGlobal w _ | .steal w _ => some w
  | _ => none

/-- The worker that goes on. -/
def reader : Worker.Label W E T B C → Option W
  | .worker w | .joined w _ _ _ => some w
  | _ => none

/-- The task that the worker has switched away from and not handled yet. -/
def away : WorkerPc T B C → Option T
  | .swapped t | .handle t => some t
  | _ => none

def State.start (value : B → Int) (flag : C → Bool) : State W E T B C where
  base := .start value flag
  resumed _ := false
  finish _ := none
  refCount _ := 2
  join _ := .idle
  finished _ := 0
  recycled _ := 0

section Steps

variable [DecidableEq W] [DecidableEq E] [DecidableEq T] [DecidableEq B] [DecidableEq C]

/-- What the access of worker `w` adds: a switch to or from a task, and `HandleTaskAfterRun`. -/
def State.note (s : State W E T B C) (w : W) : State W E T B C :=
  match s.base.worker w with
  | .swapIn t =>
    { s with resumed := fun v => s.resumed v || (decide (v ≠ w) && decide (away (s.base.worker v) = some t)) }
  | .exec _ (.swap _) => { s with resumed := Function.update s.resumed w false }
  | .handle t =>
    if s.base.mem.taskState t = .finished then
      { s with
        finish := Function.update s.finish w (some (.release t))
        finished := Function.update s.finished t (s.finished t + 1) }
    else s
  | _ => s

/-- `Release()`: the reference count after it, and whether it was the last reference. -/
def State.release (s : State W E T B C) (t : T) : State W E T B C × Bool :=
  ({ s with refCount := Function.update s.refCount t (s.refCount t - 1) }, s.refCount t = 1)

/-- The `TaskMeta` goes back to a cache or to the `TaskGroup`. -/
def State.recycle (s : State W E T B C) (t : T) : State W E T B C :=
  { s with recycled := Function.update s.recycled t (s.recycled t + 1) }

def State.setFinish (s : State W E T B C) (w : W) (pc : Option (FinishPc T)) : State W E T B C :=
  { s with finish := Function.update s.finish w pc }

def State.setJoin (s : State W E T B C) (t : T) (pc : JoinPc) : State W E T B C :=
  { s with join := Function.update s.join t pc }

/-- `HandleFinishedBthread` after the joiners are woken. -/
def State.finishStep (s : State W E T B C) (w : W) : FinishPc T → State W E T B C
  | .release t => (s.release t).1.setFinish w (if (s.release t).2 then some (.recycle t) else none)
  | .recycle t => (s.recycle t).setFinish w none

/-- One access of `bthread_join` or `bthread_detach`. -/
def State.joinStep (s : State W E T B C) (t : T) : JoinPc → Option (State W E T B C)
  | .idle | .done => none
  | .testState => some (s.setJoin t (if s.base.mem.taskState t = .finished then .release else .wait))
  | .wait => some (s.setJoin t .release)
  | .release => some ((s.release t).1.setJoin t (if (s.release t).2 then .recycle else .done))
  | .recycle => some ((s.recycle t).setJoin t .done)

/-- One step. A worker picks no task before `HandleFinishedBthread` has returned, and releases after it has woken the
joiners. -/
def step (s : State W E T B C) : Label W E T B C → Option (State W E T B C)
  | .base l =>
    if ∀ w, picker l = some w → s.finish w = none then
      (Worker.step s.base l).map fun b => { (reader l).elim s s.note with base := b }
    else none
  | .finish w =>
    match s.base.worker w with
    | .pick => (s.finish w).map (s.finishStep w)
    | _ => none
  | .join t => if s.base.mem.born t ∧ s.join t = .idle then some (s.setJoin t .testState) else none
  | .detach t => if s.base.mem.born t ∧ s.join t = .idle then some (s.setJoin t .release) else none
  | .joiner t => s.joinStep t (s.join t)

end Steps

/-- Any workers and any other threads; each bthread is joined or detached once. -/
def system (W E T B C : Type*) [DecidableEq W] [DecidableEq E] [DecidableEq T] [DecidableEq B] [DecidableEq C] :
    System (State W E T B C) (Label W E T B C) where
  init s := ∃ value flag, s = .start value flag
  step := step

end Cothread.Finish
