import Cothread.Core.Basic
import Cothread.Lib.Run
import Mathlib.Logic.Function.Basic

/-!
# Coroutines that await one another

Any number of spawned coroutines, each of which is awaited by its parent only, and any number of workers that pick
them from the run queues and execute them in `RunCoroutine`. A coroutine that is executed suspends itself (`yield`,
`sleep`, the sync primitives), awaits a coroutine or comes to its final suspend point. `co_await` reads whether the
awaited coroutine is done, and if not stores `awaiter_` and `awaiter_meta_`; `FinalAwaiter` reads them and transfers to
the awaiter, which goes on inside the same `RunCoroutine`. The four promise classes have the same accesses.
-/

namespace Cothread.Coro

open Run

/-- How a coroutine suspends itself: it submits itself at once, or something else submits it later. -/
inductive Kind
  | yield
  | wait
  deriving DecidableEq

/-- Where the frame of a coroutine is. -/
inductive Frame (C : Type*)
  | unborn
  | suspended  -- at the initial suspend point, or by `yield`, `sleep` or a sync primitive
  | running
  | awaiting (c : C)
  | final  -- at the final suspend point: `handle.done()`
  deriving DecidableEq

/-- The next access of a worker. `m` is the coroutine whose meta was picked, `x` the coroutine that is executed. -/
inductive WorkerPc (C : Type*)
  | idle
  | storeRunning (m : C)  -- `Run`: `state.store(RUNNING)`
  | enter (m : C)  -- `RunCoroutine`: `current_coro_meta_ = meta`, `state.store(RUNNING)`
  | resume (m : C)  -- `handle.done()`, and `handle.resume()`
  | exec (m x : C)
  | storeState (m x : C) (k : Kind)  -- `await_suspend` of `yield`, `sleep` or a sync primitive: `state.store(..)`
  | publish (m x : C) (k : Kind)  -- `Submit(meta)`, or the meta goes to the timer or the waiter queue
  | awaitReady (m x c : C)  -- `await_ready`: `handle_.done()`
  | storeAwaiter (m x c : C)  -- `set_awaiter`: `awaiter_ = h`
  | storeMeta (m x c : C)  -- `set_awaiter`: `awaiter_meta_ = current_coro_meta()`
  | readAwaiter (m x : C)  -- `FinalAwaiter`: `promise.awaiter_`
  | readMeta (m x p : C)  -- `FinalAwaiter`: `current_coro_meta_ = promise.awaiter_meta_`, when it is not null
  | transfer (m x p : C)  -- `return promise.awaiter_`
  | leave (m : C)  -- `current_coro_meta_ = nullptr`
  | test (m : C)  -- `handle.done()`
  | storeFinished (m : C)  -- `state.store(FINISHED)`
  deriving DecidableEq

structure State (C W : Type*) where
  frame : C → Frame C
  awaiter : C → Option C  -- `awaiter_` of the coroutine's promise
  awaiterMeta : C → Option C  -- `awaiter_meta_`
  state : C → TaskState  -- of the coroutine's meta
  queued : C → ℕ  -- how often the meta is in a run queue
  held : C → ℕ  -- how often it is in a timer or a waiter queue
  worker : W → WorkerPc C
  current : W → Option C  -- `current_coro_meta_`
  suspends : C → C → ℕ  -- how often the first has suspended on the second
  resumes : C → C → ℕ  -- how often the final suspension of the second has resumed the first

inductive Label (C W : Type*)
  | spawn (x : C)
  | pick (w : W) (m : C)
  | suspend (w : W) (k : Kind)
  | await (w : W) (c : C)
  | finish (w : W)
  | worker (w : W)
  | wake (m : C)
  deriving DecidableEq

/-- Nothing is spawned. -/
def State.start {C W : Type*} : State C W where
  frame _ := .unborn
  awaiter _ := none
  awaiterMeta _ := none
  state _ := .ready
  queued _ := 0
  held _ := 0
  worker _ := .idle
  current _ := none
  suspends _ _ := 0
  resumes _ _ := 0

section Steps

variable {C W : Type*} [DecidableEq C] [DecidableEq W]

def State.goto (s : State C W) (w : W) (pc : WorkerPc C) : State C W :=
  { s with worker := Function.update s.worker w pc }

def State.setFrame (s : State C W) (x : C) (f : Frame C) : State C W :=
  { s with frame := Function.update s.frame x f }

def State.setState (s : State C W) (m : C) (x : TaskState) : State C W :=
  { s with state := Function.update s.state m x }

def State.setCurrent (s : State C W) (w : W) (m : Option C) : State C W :=
  { s with current := Function.update s.current w m }

/-- The state that `await_suspend` stores before it gives the meta away. -/
def Kind.stored : Kind → TaskState
  | .yield => .ready
  | .wait => .suspended

/-- The meta goes to a run queue, or to a timer or a waiter queue. -/
def State.give (s : State C W) (m : C) : Kind → State C W
  | .yield => { s.setState m .ready with queued := Function.update s.queued m (s.queued m + 1) }
  | .wait => { s with held := Function.update s.held m (s.held m + 1) }

/-- One access of a worker; `none` when it has nothing to run, or the coroutine decides what comes next. -/
def State.workerStep (s : State C W) (w : W) : WorkerPc C → Option (State C W)
  | .idle | .exec _ _ => none
  | .storeRunning m => some ((s.setState m .running).goto w (.enter m))
  | .enter m => some (((s.setState m .running).setCurrent w (some m)).goto w (.resume m))
  | .resume m => some
      (if s.frame m = .final then s.goto w (.leave m) else (s.setFrame m .running).goto w (.exec m m))
  | .storeState m x k => some (match s.current w with
      | some y => (s.setState y k.stored).goto w (.publish m x k)
      | none => s.goto w (.exec m x))
  | .publish m x k => some (match s.current w with
      | some y => ((s.setFrame x .suspended).give y k).goto w (.leave m)
      | none => s.goto w (.exec m x))
  | .awaitReady m x c => some
      (if s.frame c = .final then s.goto w (.exec m x)
      else { s.setFrame x (.awaiting c) with
        suspends := Function.update s.suspends x (Function.update (s.suspends x) c (s.suspends x c + 1)) }.goto w
          (.storeAwaiter m x c))
  | .storeAwaiter m x c => some ({ s with awaiter := Function.update s.awaiter c (some x) }.goto w (.storeMeta m x c))
  | .storeMeta m _ c => some ({ s with awaiterMeta := Function.update s.awaiterMeta c (s.current w) }.goto w (.leave m))
  | .readAwaiter m x => some (s.goto w (match s.awaiter x with
      | some p => .readMeta m x p
      | none => .leave m))
  | .readMeta m x p => some (((s.awaiterMeta x).elim s fun y => s.setCurrent w (some y)).goto w (.transfer m x p))
  | .transfer m x p => some ({ s.setFrame p .running with
      resumes := Function.update s.resumes p (Function.update (s.resumes p) x (s.resumes p x + 1)) }.goto w (.exec m p))
  | .leave m => some ((s.setCurrent w none).goto w (.test m))
  | .test m => some (s.goto w (if s.frame m = .final then .storeFinished m else .idle))
  | .storeFinished m => some ((s.setState m .finished).goto w .idle)

/-- One step; `parent c` is the coroutine that awaits `c`. -/
def step (parent : C → Option C) (s : State C W) : Label C W → Option (State C W)
  | .spawn x =>
    if s.frame x = .unborn then some ((s.setFrame x .suspended).give x .yield) else none
  | .pick w m =>
    if s.worker w = .idle ∧ 0 < s.queued m then
      some ({ s with queued := Function.update s.queued m (s.queued m - 1) }.goto w (.storeRunning m))
    else none
  | .suspend w k => match s.worker w with
    | .exec m x => some (s.goto w (.storeState m x k))
    | _ => none
  | .await w c => match s.worker w with
    | .exec m x => if parent c = some x ∧ s.frame c ≠ .unborn then some (s.goto w (.awaitReady m x c)) else none
    | _ => none
  | .finish w => match s.worker w with
    | .exec m x => some ((s.setFrame x .final).goto w (.readAwaiter m x))
    | _ => none
  | .worker w => s.workerStep w (s.worker w)
  | .wake m =>
    -- a timer or a waker: `state.store(READY)`, `Submit(meta)`
    if 0 < s.held m then some ({ s with held := Function.update s.held m (s.held m - 1) }.give m .yield) else none

end Steps

/-- Any coroutines, where `parent` is the tree of who awaits whom, and any workers. -/
def system {C : Type*} (W : Type*) [DecidableEq C] [DecidableEq W] (parent : C → Option C) :
    System (State C W) (Label C W) where
  init s := s = .start
  step := step parent

/-- The first coroutine awaits the second. -/
def pair : Bool → Option Bool
  | true => some false
  | false => none

/-- Both coroutines are executed; the first finds the second not done. -/
def meet : List (Label Bool Bool) :=
  [.spawn false, .spawn true, .pick false false, .worker false, .worker false, .worker false, .pick true true,
    .worker true, .worker true, .worker true, .await false true, .worker false]

end Cothread.Coro
