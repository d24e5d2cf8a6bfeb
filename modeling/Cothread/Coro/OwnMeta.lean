import Cothread.Coro.Await
import Mathlib.Algebra.GroupWithZero.Nat
import Mathlib.Data.List.Basic

/-!
# Coroutines run under their own meta

Any spawned coroutines, each with its own meta, any workers and any mutexes, condition variables and events. Any
coroutine may await any other one, also one that others await. `await_suspend` and the hand-off of `FinalAwaiter` are
one step each. A chain of hand-offs stays inside one `RunCoroutine`, whose meta is then that of a coroutine that is
done. A worker that executes a coroutine has its meta in `current_coro_meta_`, since `awaiter_meta_` is always the meta
of `awaiter_` (`Inv`); so a coroutine that suspends itself gives its own meta away (`runs_under_own_meta`).
-/

namespace Cothread.Coro.OwnMeta

open Run

/-! ## Steps -/

/-- What a coroutine suspends itself on: its meta goes to a run queue, `sleep_queue_` or the waiter queue of `o`. -/
inductive Suspension (O : Type*)
  | yield
  | sleep
  | sync (o : O)  -- `lock_async`, `wait_async`
  deriving DecidableEq

/-- The next access of a worker. `m` is the coroutine whose meta was picked, `x` the coroutine that is executed. -/
inductive WorkerPc (C : Type*)
  | idle
  | storeRunning (m : C)  -- `Run`: `state.store(RUNNING)`
  | enter (m : C)  -- `RunCoroutine`: `current_coro_meta_ = meta`, `state.store(RUNNING)`
  | resume (m : C)  -- `handle.done()`, and `handle.resume()`
  | exec (m x : C)
  | awaitSuspend (m x c : C)  -- `await_ready` has returned false
  | leave (m : C)  -- `current_coro_meta_ = nullptr`
  | test (m : C)  -- `handle.done()`
  | storeFinished (m : C)  -- `state.store(FINISHED)`
  deriving DecidableEq

structure State (C W O : Type*) where
  frame : C → Frame C
  awaiter : C → Option C  -- `awaiter_` of the coroutine's promise
  awaiterMeta : C → Option C  -- `awaiter_meta_`
  state : C → TaskState  -- of the coroutine's meta
  queue : Suspension O → List C  -- the metas in the run queues, in `sleep_queue_` and in the waiter queues
  worker : W → WorkerPc C
  current : W → Option C  -- `current_coro_meta_`

inductive Label (C W O : Type*)
  | spawn (x : C)
  | pick (w : W) (m : C)
  | suspend (w : W) (a : Suspension O)
  | await (w : W) (c : C)
  | finish (w : W)
  | worker (w : W)
  | wake (a : Suspension O) (m : C)
  deriving DecidableEq

variable {C W O : Type*}

/-- Nothing is spawned. -/
def State.start : State C W O where
  frame _ := .unborn
  awaiter _ := none
  awaiterMeta _ := none
  state _ := .ready
  queue _ := []
  worker _ := .idle
  current _ := none

/-- The state that `await_suspend` stores before it gives the meta away. -/
def Suspension.stored : Suspension O → TaskState
  | .yield => .ready
  | .sleep | .sync _ => .suspended

section Steps

variable [DecidableEq C] [DecidableEq W] [DecidableEq O]

def State.goto (s : State C W O) (w : W) (pc : WorkerPc C) : State C W O :=
  { s with worker := Function.update s.worker w pc }

def State.setFrame (s : State C W O) (x : C) (f : Frame C) : State C W O :=
  { s with frame := Function.update s.frame x f }

def State.setState (s : State C W O) (m : C) (x : TaskState) : State C W O :=
  { s with state := Function.update s.state m x }

def State.setCurrent (s : State C W O) (w : W) (m : Option C) : State C W O :=
  { s with current := Function.update s.current w m }

/-- The meta goes to a queue, after its state is stored. -/
def State.give (s : State C W O) (m : C) (a : Suspension O) : State C W O :=
  { s.setState m a.stored with queue := Function.update s.queue a (s.queue a ++ [m]) }

/-- The meta leaves a queue. -/
def State.take (s : State C W O) (m : C) (a : Suspension O) : State C W O :=
  { s with queue := Function.update s.queue a ((s.queue a).erase m) }

/-- `await_suspend` of `yield`, `sleep`, `lock_async` and `wait_async`, by coroutine `x`: without a current meta the
coroutine goes on. -/
def State.suspend (s : State C W O) (w : W) (m x : C) (a : Suspension O) : State C W O :=
  match s.current w with
  | some y => ((s.setFrame x .suspended).give y a).goto w (.leave m)
  | none => s

/-- `await_suspend` of a task: `set_awaiter`. -/
def State.setAwaiter (s : State C W O) (w : W) (m x c : C) : State C W O :=
  { s.setFrame x (.awaiting c) with
    awaiter := Function.update s.awaiter c (some x)
    awaiterMeta := Function.update s.awaiterMeta c (s.current w) }.goto w (.leave m)

/-- The final suspension of `x`, with `await_suspend` of `FinalAwaiter`. -/
def State.final (s : State C W O) (w : W) (m x : C) : State C W O :=
  match s.awaiter x with
  | some p =>
    (((s.awaiterMeta x).elim s fun y => s.setCurrent w (some y)).setFrame x .final |>.setFrame p .running).goto w
      (.exec m p)
  | none => (s.setFrame x .final).goto w (.leave m)

/-- One access of a worker; `none` when it has nothing to run, or the coroutine decides what comes next. -/
def State.workerStep (s : State C W O) (w : W) : WorkerPc C → Option (State C W O)
  | .idle | .exec _ _ => none
  | .storeRunning m => some ((s.setState m .running).goto w (.enter m))
  | .enter m => some (((s.setState m .running).setCurrent w (some m)).goto w (.resume m))
  | .resume m => some
      (if s.frame m = .final then s.goto w (.leave m) else (s.setFrame m .running).goto w (.exec m m))
  | .awaitSuspend m x c => some (s.setAwaiter w m x c)
  | .leave m => some ((s.setCurrent w none).goto w (.test m))
  | .test m => some (s.goto w (if s.frame m = .final then .storeFinished m else .idle))
  | .storeFinished m => some ((s.setState m .finished).goto w .idle)

/-- One step. -/
def step (s : State C W O) : Label C W O → Option (State C W O)
  | .spawn x => if s.frame x = .unborn then some ((s.setFrame x .suspended).give x .yield) else none
  | .pick w m =>
    if s.worker w = .idle ∧ m ∈ s.queue .yield then some ((s.take m .yield).goto w (.storeRunning m)) else none
  | .suspend w a => match s.worker w with
    | .exec m x => some (s.suspend w m x a)
    | _ => none
  | .await w c => match s.worker w with
    -- `await_ready`
    | .exec m x =>
      if s.frame c = .unborn then none else some (if s.frame c = .final then s else s.goto w (.awaitSuspend m x c))
    | _ => none
  | .finish w => match s.worker w with
    | .exec m x => some (s.final w m x)
    | _ => none
  | .worker w => s.workerStep w (s.worker w)
  | .wake a m =>
    -- a timer or a waker: `state.store(READY)`, `Submit(meta)`
    if a ≠ .yield ∧ m ∈ s.queue a then some ((s.take m a).give m .yield) else none

end Steps

/-- Any coroutines, any workers and any sync objects. -/
def system (C W O : Type*) [DecidableEq C] [DecidableEq W] [DecidableEq O] : System (State C W O) (Label C W O) where
  init s := s = .start
  step := step

/-! ## The invariant -/

/-- The coroutine that the worker executes. -/
def WorkerPc.executes : WorkerPc C → Option C
  | .exec _ x | .awaitSuspend _ x _ => some x
  | _ => none

/-- The coroutine that the worker executes, or is about to resume. -/
def WorkerPc.under : WorkerPc C → Option C
  | .resume m => some m
  | pc => pc.executes

theorem WorkerPc.under_of_executes {pc : WorkerPc C} {x : C} (h : pc.executes = some x) : pc.under = some x := by
  cases pc <;> first | exact h | cases h

/-- A worker executes a coroutine under its own meta, and what a coroutine's promise stores is an awaiter with its
meta. -/
structure Inv (s : State C W O) : Prop where
  own : ∀ w x, (s.worker w).under = some x → s.current w = some x
  awaiter : s.awaiterMeta = s.awaiter

theorem inv_start : Inv (State.start : State C W O) where
  own _ _ h := nomatch h
  awaiter := rfl

section Steps

variable {s r t : State C W O} {w : W} {pc : WorkerPc C} {x : C}

/-- Steps that concern neither a worker nor an awaiter. -/
theorem Inv.keep (h : Inv s) (hworker : t.worker = s.worker) (hcur : t.current = s.current)
    (haw : t.awaiter = s.awaiter) (hmeta : t.awaiterMeta = s.awaiterMeta) : Inv t where
  own w x hx := by
    rw [hworker] at hx
    rw [hcur]
    exact h.own w x hx
  awaiter := by rw [haw, hmeta, h.awaiter]

variable [DecidableEq W]

/-- A worker goes on. -/
theorem Inv.goto (h : Inv s) (hworker : r.worker = s.worker) (hcur : ∀ v, v ≠ w → r.current v = s.current v)
    (haw : r.awaiterMeta = r.awaiter) (hown : ∀ x, pc.under = some x → r.current w = some x) : Inv (r.goto w pc) where
  own v x hx := by
    by_cases hv : v = w
    · subst hv
      simp only [State.goto, Function.update_self] at hx
      exact hown x hx
    · simp only [State.goto, hworker, Function.update_of_ne hv] at hx
      exact (hcur v hv).trans (h.own v x hx)
  awaiter := haw

/-- A worker goes on to what executes no coroutine. -/
theorem Inv.rest (h : Inv s) (hworker : r.worker = s.worker) (hcur : ∀ v, v ≠ w → r.current v = s.current v)
    (haw : r.awaiterMeta = r.awaiter) (hpc : pc.under = none) : Inv (r.goto w pc) :=
  h.goto hworker hcur haw fun x hx => by rw [hpc] at hx; cases hx

theorem current_setCurrent {m : Option C} : ∀ v, v ≠ w → (s.setCurrent w m).current v = s.current v :=
  fun _ hv => Function.update_of_ne hv ..

variable [DecidableEq C]

/-- **An awaiter is stored with its meta.** -/
theorem Inv.setAwaiter {m c : C} (h : Inv s) (hpc : s.worker w = .awaitSuspend m x c) :
    Inv (s.setAwaiter w m x c) := by
  have hcur : s.current w = some x := h.own w x (by rw [hpc]; rfl)
  refine h.rest rfl (fun _ _ => rfl) ?_ rfl
  show Function.update s.awaiterMeta c (s.current w) = Function.update s.awaiter c (some x)
  rw [hcur, h.awaiter]

/-- **A hand-off puts the awaiter's meta in place.** -/
theorem Inv.final {m : C} (h : Inv s) : Inv (s.final w m x) := by
  unfold State.final
  split
  case h_1 p hp =>
    have hmeta : s.awaiterMeta x = some p := by rw [h.awaiter, hp]
    rw [hmeta]
    refine h.goto rfl current_setCurrent h.awaiter fun y hy => ?_
    cases hy
    exact Function.update_self ..
  case h_2 => exact h.rest rfl (fun _ _ => rfl) h.awaiter rfl

/-- What an access of a worker preserves. -/
theorem inv_workerStep (h : Inv s) (hpc : s.worker w = pc) (hst : s.workerStep w pc = some t) : Inv t := by
  cases pc with
  | idle | exec m x => cases hst
  | storeRunning m | storeFinished m =>
    cases hst
    exact h.rest rfl (fun _ _ => rfl) h.awaiter rfl
  | enter m =>
    cases hst
    refine h.goto rfl current_setCurrent h.awaiter fun x hx => ?_
    cases hx
    exact Function.update_self ..
  | resume m =>
    have hcur : s.current w = some m := h.own w m (by rw [hpc]; rfl)
    cases hst
    split
    · exact h.rest rfl (fun _ _ => rfl) h.awaiter rfl
    · exact h.goto rfl (fun _ _ => rfl) h.awaiter fun x hx => by cases hx; exact hcur
  | awaitSuspend m x c =>
    cases hst
    exact h.setAwaiter hpc
  | leave m =>
    cases hst
    exact h.rest rfl current_setCurrent h.awaiter rfl
  | test m =>
    cases hst
    refine h.rest rfl (fun _ _ => rfl) h.awaiter ?_
    split <;> rfl

variable [DecidableEq O]

/-- **A coroutine that suspends itself gives its own meta away.** -/
theorem Inv.suspend_eq {m : C} {a : Suspension O} (h : Inv s) (hpc : s.worker w = .exec m x) :
    s.suspend w m x a = ((s.setFrame x .suspended).give x a).goto w (.leave m) := by
  have hcur : s.current w = some x := h.own w x (by rw [hpc]; rfl)
  simp only [State.suspend, hcur]

/-- **What every step preserves.** -/
theorem inv_step {l : Label C W O} (h : Inv s) (hst : step s l = some t) : Inv t := by
  cases l with
  | spawn x =>
    obtain ⟨-, hst⟩ := Option.ite_none_right_eq_some.mp hst
    cases hst
    exact h.keep rfl rfl rfl rfl
  | pick w m =>
    obtain ⟨-, hst⟩ := Option.ite_none_right_eq_some.mp hst
    cases hst
    exact h.rest rfl (fun _ _ => rfl) h.awaiter rfl
  | suspend w a =>
    simp only [step] at hst
    split at hst
    case h_1 m x hpc =>
      cases hst
      rw [h.suspend_eq hpc]
      exact h.rest rfl (fun _ _ => rfl) h.awaiter rfl
    case h_2 => cases hst
  | await w c =>
    simp only [step] at hst
    split at hst
    case h_1 m x hpc =>
      have hcur : s.current w = some x := h.own w x (by rw [hpc]; rfl)
      obtain ⟨-, hst⟩ := Option.ite_none_left_eq_some.mp hst
      cases hst
      split
      · exact h
      · exact h.goto rfl (fun _ _ => rfl) h.awaiter fun y hy => by cases hy; exact hcur
    case h_2 => cases hst
  | finish w =>
    simp only [step] at hst
    split at hst
    case h_1 m x hpc =>
      cases hst
      exact h.final
    case h_2 => cases hst
  | worker w => exact inv_workerStep h rfl hst
  | wake a m =>
    obtain ⟨-, hst⟩ := Option.ite_none_right_eq_some.mp hst
    cases hst
    exact h.keep rfl rfl rfl rfl

/-! ## Runs -/

theorem reachable_inv (hs : Reachable (system C W O) s) : Inv s :=
  hs.invariant (I := Inv) (fun _ h0 => h0 ▸ inv_start) fun _ _ _ h _ hst => inv_step h hst

/-- **A coroutine runs under its own meta**: whenever a worker executes a coroutine, `current_coro_meta_` of the worker
is the coroutine's meta; and a coroutine that suspends itself adds its own meta to the queue, and no other one. -/
theorem runs_under_own_meta (s : State C W O) (hs : Reachable (system C W O) s) :
    (∀ w x, (s.worker w).executes = some x → s.current w = some x) ∧
    ∀ w a t, step s (.suspend w a) = some t → ∃ x, (s.worker w).executes = some x ∧
      t.frame = Function.update s.frame x .suspended ∧ t.queue = Function.update s.queue a (s.queue a ++ [x]) := by
  have h := reachable_inv hs
  refine ⟨fun w x hx => h.own w x (WorkerPc.under_of_executes hx), fun w a t hst => ?_⟩
  simp only [step] at hst
  split at hst
  case h_1 m x hpc =>
    cases hst
    rw [h.suspend_eq hpc, hpc]
    exact ⟨x, rfl, rfl, rfl⟩
  case h_2 => cases hst

end Steps

/-- For the names of the three coroutines. -/
local instance neZero_three : NeZero 3 := ⟨Nat.succ_ne_zero 2⟩

/-- Coroutine 0 awaits 1, which awaits 2; then 2 finishes, and 1 inside the same `RunCoroutine`. -/
def nested : List (Label (Fin 3) Bool Unit) :=
  [.spawn 0, .pick false 0, .worker false, .worker false, .worker false, .spawn 1, .await false 1, .worker false,
    .worker false, .worker false, .pick false 1, .worker false, .worker false, .worker false, .spawn 2, .await false 2,
    .worker false, .pick true 2, .worker true, .worker true, .worker true, .finish true, .finish true]

theorem runs_under_own_meta_nested : ∃ s : State (Fin 3) Bool Unit,
    s.worker true = .exec 2 0 ∧ s.current true = some 0 ∧
    ∀ t, step s (.suspend true .sleep) = some t → t.queue .sleep = [0] := by
  have hrun : (exec (system (Fin 3) Bool Unit) .start nested).any fun s =>
      s.worker true = .exec 2 0 ∧ s.queue .sleep = [] := by decide +kernel
  obtain ⟨s, hs, hpc, hq⟩ := of_exec_any hrun
  have hown := runs_under_own_meta s (reachable_exec (.init rfl) hs)
  refine ⟨s, hpc, hown.1 true 0 (by rw [hpc]; rfl), fun t ht => ?_⟩
  obtain ⟨x, hx, -, hqueue⟩ := hown.2 true .sleep t ht
  rw [hpc] at hx
  cases hx
  rw [hqueue, Function.update_self, hq]
  rfl

end Cothread.Coro.OwnMeta
