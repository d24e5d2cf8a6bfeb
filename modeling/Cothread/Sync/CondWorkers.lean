import Cothread.Lib.Run
import Mathlib.Data.Fintype.Basic
import Mathlib.Logic.Function.Basic

/-!
# `CondVar` and the workers

Coroutines on any workers use one mutex and one condition variable: `lock_async`, `unlock`, `wait_async`, `notify_one`,
and suspend themselves in between, also when they own the mutex. A coroutine that is notified takes the mutex again in
`WaitAwaiter::await_resume`, which calls `try_lock` until it succeeds: it keeps its worker, and suspends nothing.

- **when all workers are lost** (`deadlocked_iff`): no worker ever executes anything again exactly when each of them is
  in that loop and the word of the mutex is not 0, whoever owns it and whatever is in the run queues;
- **any number of workers can be lost** (`exists_deadlocked`): as many coroutines that wait, and one that suspends
  itself while it owns the mutex, are enough.

A step is one access to the word of the mutex, or one operation on a queue. Only coroutines use the mutex. The run
queues are one list, from which a worker picks any meta.
-/

namespace Cothread.CondWorkers

open Run

/-- Where a coroutine is suspended, or that it is executed. -/
inductive Frame
  | unborn
  | start
  | executed
  | locks  -- in `lock_async`, until an `unlock` gives it the mutex
  | waits  -- in `wait_async`
  | sleeps  -- by `sleep`, or something else that is not the mutex or the condition variable
  | done
  deriving DecidableEq

inductive WorkerPc (C : Type*)
  | idle
  | runs (x : C)
  | tries (x : C)  -- `LockAwaiter::await_suspend`, after `try_lock` has failed in `await_ready`
  | marks (x : C)  -- at `state_.fetch_or(HAS_WAITERS)`
  | retries (x : C)  -- at the `try_lock` after it
  | unmarks (x : C)  -- at `state_.fetch_and(~HAS_WAITERS)`
  | parks (x : C)  -- at `mutex_.enqueue_waiter`
  | clears (x : C) (waits : Bool)  -- `Mutex::unlock`, also when `wait_async` calls it: at `state_.fetch_and(~LOCKED)`
  | enqueues (x : C)  -- `WaitAwaiter::await_suspend`, after `unlock`
  | spins (x : C)  -- `WaitAwaiter::await_resume`: `while (!mutex_.try_lock())`
  deriving DecidableEq

structure State (C W : Type*) where
  locked : Bool  -- `LOCKED`
  hasWaiters : Bool  -- `HAS_WAITERS`
  owner : Option C  -- who has been given the mutex
  lockers : List C  -- `waiter_queue_` of the mutex
  waiters : List C  -- `waiter_queue_` of the condition variable
  asleep : List C  -- in a timer
  ready : List C  -- in the run queues
  frame : C → Frame
  worker : W → WorkerPc C

inductive Label (C W : Type*)
  | spawn (x : C)
  | pick (w : W) (x : C)
  | lock (w : W)
  | unlock (w : W)
  | wait (w : W)
  | notify (w : W)
  | notifyOutside  -- by a thread that is not a worker
  | sleep (w : W)
  | wake (x : C)
  | finish (w : W)
  | worker (w : W)
  deriving DecidableEq

/-- Nothing is spawned. -/
def State.start (C W : Type*) : State C W where
  locked := false
  hasWaiters := false
  owner := none
  lockers := []
  waiters := []
  asleep := []
  ready := []
  frame _ := .unborn
  worker _ := .idle

section Steps

variable {C W : Type*} [DecidableEq C] [DecidableEq W]

def State.goto (s : State C W) (w : W) (pc : WorkerPc C) : State C W :=
  { s with worker := Function.update s.worker w pc }

def State.setFrame (s : State C W) (x : C) (f : Frame) : State C W := { s with frame := Function.update s.frame x f }

/-- `try_lock` on a worker: the word is exchanged when it is 0. -/
def State.free (s : State C W) : Bool := !s.locked && !s.hasWaiters

/-- The mutex is given to `x`. -/
def State.take (s : State C W) (x : C) : State C W := { s with locked := true, owner := some x }

/-- What follows `Mutex::unlock`. -/
def WorkerPc.unlocked (x : C) (waits : Bool) : WorkerPc C := if waits then .enqueues x else .runs x

/-- `Mutex::unlock`: the first waiter is given the mutex. -/
def State.unlock (s : State C W) (w : W) (x : C) (waits : Bool) : State C W :=
  match s.lockers with
  | [] => s.goto w (.clears x waits)
  | y :: ys => { s with lockers := ys, owner := some y, ready := s.ready ++ [y] }.goto w (.unlocked x waits)

/-- `CondVar::notify_one`. -/
def State.notifyOne (s : State C W) : State C W :=
  match s.waiters with
  | [] => s
  | y :: ys => { s with waiters := ys, ready := s.ready ++ [y] }

/-- The access of a worker in an awaiter, or in `Mutex::unlock`. -/
def State.access (s : State C W) (w : W) : WorkerPc C → Option (State C W)
  | .idle | .runs _ => none
  | .tries x => some (if s.free then (s.take x).goto w (.runs x) else s.goto w (.marks x))
  | .marks x => some ({ s with hasWaiters := true }.goto w (.retries x))
  | .retries x => some (if s.free then (s.take x).goto w (.unmarks x) else s.goto w (.parks x))
  | .unmarks x => some ({ s with hasWaiters := false }.goto w (.runs x))
  | .parks x => some ({ s.setFrame x .locks with lockers := s.lockers ++ [x] }.goto w .idle)
  | .clears x waits => some ({ s with locked := false, owner := none }.goto w (.unlocked x waits))
  | .enqueues x => some ({ s.setFrame x .waits with waiters := s.waiters ++ [x] }.goto w .idle)
  | .spins x => some (if s.free then (s.take x).goto w (.runs x) else s)

/-- One step. A coroutine locks the mutex when it does not own it, and unlocks it or waits when it does. -/
def step (s : State C W) : Label C W → Option (State C W)
  | .spawn x =>
    if s.frame x = .unborn then some { s.setFrame x .start with ready := s.ready ++ [x] } else none
  | .pick w x =>
    if s.worker w = .idle ∧ x ∈ s.ready then
      some ({ s.setFrame x .executed with ready := s.ready.erase x }.goto w
        (if s.frame x = Frame.waits then .spins x else .runs x))
    else none
  | .lock w =>
    match s.worker w with
    | .runs x =>
      if s.owner = some x then none else some (if s.free then s.take x else s.goto w (.tries x))
    | _ => none
  | .unlock w =>
    match s.worker w with
    | .runs x => if s.owner = some x then some (s.unlock w x false) else none
    | _ => none
  | .wait w =>
    match s.worker w with
    | .runs x => if s.owner = some x then some (s.unlock w x true) else none
    | _ => none
  | .notify w =>
    match s.worker w with
    | .runs _ => some s.notifyOne
    | _ => none
  | .notifyOutside => some s.notifyOne
  | .sleep w =>
    match s.worker w with
    | .runs x => some ({ s.setFrame x .sleeps with asleep := s.asleep ++ [x] }.goto w .idle)
    | _ => none
  | .wake x => if x ∈ s.asleep then some { s with asleep := s.asleep.erase x, ready := s.ready ++ [x] } else none
  | .finish w =>
    match s.worker w with
    | .runs x => some ((s.setFrame x .done).goto w .idle)
    | _ => none
  | .worker w => s.access w (s.worker w)

end Steps

/-- Any coroutines on any workers. -/
def system (C W : Type*) [DecidableEq C] [DecidableEq W] : System (State C W) (Label C W) where
  init s := s = .start C W
  step := step

/-! ## Workers that are lost -/

/-- From now on, in every run, all workers are in `await_resume`. -/
def Deadlocked {C W : Type*} [DecidableEq C] [DecidableEq W] (s : State C W) : Prop :=
  ∀ ls t, exec (system C W) s ls = some t → ∀ w, ∃ x, t.worker w = .spins x

section Lost

variable {C W : Type*} [DecidableEq C] [DecidableEq W] {s t : State C W} {l : Label C W}

omit [DecidableEq C] [DecidableEq W] in
theorem notifyOne_fields (s : State C W) :
    s.notifyOne.worker = s.worker ∧ s.notifyOne.free = s.free := by
  unfold State.notifyOne
  split <;> exact ⟨rfl, rfl⟩

/-- **What one step preserves**: nobody is executed who could unlock the mutex. -/
theorem spins_step (hspins : ∀ w, ∃ x, s.worker w = .spins x) (hfree : s.free = false) (hst : step s l = some t) :
    t.worker = s.worker ∧ t.free = s.free := by
  cases l with
  | spawn x | wake x =>
    obtain ⟨-, hst⟩ := Option.ite_none_right_eq_some.mp hst
    cases hst
    exact ⟨rfl, rfl⟩
  | notifyOutside =>
    cases hst
    exact notifyOne_fields s
  | pick w x =>
    obtain ⟨y, hy⟩ := hspins w
    simp [step, hy] at hst
  | worker w =>
    obtain ⟨y, hy⟩ := hspins w
    simp only [step, hy, State.access, hfree] at hst
    cases hst
    exact ⟨rfl, rfl⟩
  | lock w | unlock w | wait w | notify w | sleep w | finish w =>
    obtain ⟨y, hy⟩ := hspins w
    simp only [step, hy] at hst
    cases hst

/-- **The run lemma.** -/
theorem spins_exec {ls : List (Label C W)} (hspins : ∀ w, ∃ x, s.worker w = .spins x) (hfree : s.free = false)
    (hrun : exec (system C W) s ls = some t) : t.worker = s.worker := by
  induction ls generalizing s with
  | nil =>
    cases hrun
    rfl
  | cons l ls ih =>
    obtain ⟨u, hu, hrun⟩ := Option.bind_eq_some_iff.mp hrun
    obtain ⟨hworker, hsame⟩ := spins_step hspins hfree hu
    rw [ih (by rwa [hworker]) (hsame.trans hfree) hrun, hworker]

/-- **When all workers are lost.** -/
theorem deadlocked_iff [Nonempty W] :
    Deadlocked s ↔ (∀ w, ∃ x, s.worker w = .spins x) ∧ (s.locked = true ∨ s.hasWaiters = true) := by
  have hword : s.free = false ↔ s.locked = true ∨ s.hasWaiters = true := by
    cases hl : s.locked <;> cases hw : s.hasWaiters <;> simp [State.free, hl, hw]
  rw [← hword]
  constructor
  · intro h
    have hspins := h [] s rfl
    refine ⟨hspins, ?_⟩
    by_contra hfree
    -- a worker whose `try_lock` succeeds is out of the loop
    obtain ⟨w⟩ := ‹Nonempty W›
    obtain ⟨x, hx⟩ := hspins w
    obtain ⟨y, hy⟩ := h [.worker w] ((s.take x).goto w (.runs x))
      (by simp [system, step, hx, State.access, hfree]) w
    simp [State.goto] at hy
  · rintro ⟨hspins, hfree⟩ ls t hrun
    rwa [spins_exec hspins hfree hrun]

end Lost

/-! ## Any number of workers -/

section Any

/-- The coroutines `l` wait, and nothing else has begun. -/
def State.waiting {C : Type*} (W : Type*) [DecidableEq C] (l : List C) : State C W :=
  { State.start C W with waiters := l, frame := fun x => if x ∈ l then .waits else .unborn }

/-- The worker `v` executes a coroutine that owns the mutex. Of the coroutines `some w`, those in `l` wait; the others
have been notified, and have their workers. -/
def State.spinning {W : Type*} [DecidableEq W] (v : W) (l : List W) : State (Option W) W where
  locked := true
  hasWaiters := false
  owner := some none
  lockers := []
  waiters := l.map some
  asleep := []
  ready := []
  frame x := x.elim .executed fun w => if w ∈ l then .waits else .executed
  worker w := if w = v then .runs none else if w ∈ l then .idle else .spins (some w)

variable {C W : Type*} [DecidableEq C] [DecidableEq W]

attribute [local simp] system step State.goto State.setFrame State.free State.take State.unlock WorkerPc.unlocked
  State.access State.notifyOne

/-- One more coroutine is executed, by any worker, and waits. -/
theorem exec_waiting {l : List C} {x : C} (hx : x ∉ l) (w : W) :
    exec (system C W) (.waiting W l) [.spawn x, .pick w x, .lock w, .wait w, .worker w, .worker w] =
      some (.waiting W (l ++ [x])) := by
  have hframe : Function.update (fun y => if y ∈ l then Frame.waits else .unborn) x .waits =
      fun y => if y ∈ l ∨ y = x then Frame.waits else .unborn := by
    funext y
    by_cases hy : y = x
    · simp [hy]
    · simp [hy]
  simp [State.waiting, State.start, hx, hframe]

/-- Any coroutines are executed one after the other, and wait. -/
theorem exists_waiting (l : List C) (hl : l.Nodup) (w : W) :
    ∃ ls, exec (system C W) (.start C W) ls = some (.waiting W l) := by
  induction l using List.reverseRecOn with
  | nil => exact ⟨[], by simp [State.waiting, State.start]⟩
  | append_singleton l x ih =>
    obtain ⟨hnodup, -, hx⟩ := List.nodup_append.mp hl
    obtain ⟨ls, hls⟩ := ih hnodup
    have hx : x ∉ l := fun h => hx x h x (by simp) rfl
    exact ⟨_, exec_trans hls (exec_waiting hx w)⟩

/-- Then one more takes the mutex. -/
theorem exec_spinning {l : List W} (hl : ∀ w, w ∈ l) (v : W) :
    exec (system (Option W) W) (.waiting W (l.map some)) [.spawn none, .pick v none, .lock v] =
      some (.spinning v l) := by
  have hframe : Function.update (fun y => if ∃ w ∈ l, some w = y then Frame.waits else .unborn) none .executed =
      fun y => y.elim .executed fun w => if w ∈ l then .waits else .executed := by
    funext y
    cases y with
    | none => simp
    | some w => simp [hl w]
  have hworker : Function.update (fun _ => WorkerPc.idle) v (.runs (none : Option W)) =
      fun w => if w = v then .runs none else if w ∈ l then .idle else .spins (some w) := by
    funext w
    by_cases hw : w = v
    · simp [hw]
    · simp [hw, hl w]
  simp [State.waiting, State.spinning, State.start, hframe, hworker]

/-- The first waiter is notified, and its worker picks it. -/
theorem exec_spinning_cons {l : List W} {v w : W} (hw : w ∉ l) (hv : w ≠ v) :
    exec (system (Option W) W) (.spinning v (w :: l)) [.notify v, .pick w (some w)] = some (.spinning v l) := by
  have hframe : Function.update (fun y : Option W => y.elim .executed fun u =>
        if u = w ∨ u ∈ l then Frame.waits else .executed) (some w) .executed =
      fun y => y.elim .executed fun u => if u ∈ l then .waits else .executed := by
    funext y
    by_cases hy : y = some w
    · simp [hy, hw]
    · cases y with
      | none => simp
      | some u =>
        have hu : u ≠ w := fun hu => hy (by rw [hu])
        simp [hu]
  have hworker : Function.update (fun u => if u = v then WorkerPc.runs (none : Option W) else
        if u = w ∨ u ∈ l then .idle else .spins (some u)) w (.spins (some w)) =
      fun u => if u = v then .runs none else if u ∈ l then .idle else .spins (some u) := by
    funext u
    by_cases hu : u = w
    · simp [hu, hv, hw]
    · simp [hu]
  simp [State.spinning, hframe, hworker, hv]

/-- All waiters are notified but the last. -/
theorem exists_spinning {v : W} (l : List W) (hl : (l ++ [v]).Nodup) :
    ∃ ls, exec (system (Option W) W) (.spinning v (l ++ [v])) ls = some (.spinning v [v]) := by
  induction l with
  | nil => exact ⟨[], rfl⟩
  | cons w l ih =>
    obtain ⟨hw, hnodup⟩ := List.nodup_cons.mp hl
    have hv : w ≠ v := fun hv => hw (by simp [hv])
    obtain ⟨ls, hls⟩ := ih hnodup
    exact ⟨_, exec_trans (exec_spinning_cons hw hv) hls⟩

/-- The last waiter is notified, and picked when the coroutine that owns the mutex sleeps; then that one is woken. -/
theorem exec_lost (v : W) :
    ∃ s, exec (system (Option W) W) (.spinning v [v]) [.notify v, .sleep v, .pick v (some v), .wake none] = some s ∧
      (∀ w, s.worker w = .spins (some w)) ∧ s.locked = true ∧ s.owner = some none ∧ s.ready = [none] := by
  have hworker (w : W) : Function.update (fun u => if u = v then WorkerPc.runs (none : Option W) else
      if u = v then .idle else .spins (some u)) v (.spins (some v)) w = .spins (some w) := by
    by_cases hw : w = v
    · simp [hw]
    · simp [hw]
  simpa [State.spinning] using hworker

/-- **Any number of workers can be lost**: in some run all workers are in `await_resume` for ever, while the owner of
the mutex is in a run queue. -/
theorem exists_deadlocked (W : Type*) [Fintype W] [Nonempty W] [DecidableEq W] :
    ∃ s : State (Option W) W, Reachable (system (Option W) W) s ∧ Deadlocked s ∧ s.owner = some none ∧
      s.ready = [none] := by
  obtain ⟨v⟩ := ‹Nonempty W›
  -- all workers, `v` the last
  obtain ⟨l, hl, hall⟩ : ∃ l : List W, (l ++ [v]).Nodup ∧ ∀ w, w ∈ l ++ [v] := by
    refine ⟨(Finset.univ.erase v).toList, ?_, fun w => ?_⟩
    · rw [List.nodup_append]
      refine ⟨Finset.nodup_toList _, List.nodup_singleton v, fun w hw u hu => ?_⟩
      rw [List.mem_singleton.mp hu]
      exact Finset.ne_of_mem_erase (Finset.mem_toList.mp hw)
    · by_cases hw : w = v
      · simp [hw]
      · simp [hw]
  obtain ⟨ls, hls⟩ := exists_waiting ((l ++ [v]).map some) (hl.map (Option.some_injective W)) v
  obtain ⟨ks, hks⟩ := exists_spinning l hl
  obtain ⟨s, hs, hspins, hlocked, howner, hready⟩ := exec_lost v
  have hrun := exec_trans (exec_trans (exec_trans hls (exec_spinning hall v)) hks) hs
  have : Nonempty W := ⟨v⟩
  exact ⟨s, reachable_exec (.init rfl) hrun, deadlocked_iff.mpr ⟨fun w => ⟨some w, hspins w⟩, .inl hlocked⟩, howner,
    hready⟩

/-- Three workers, and four coroutines. -/
theorem exists_deadlocked_three : ∃ s : State (Option (Fin 3)) (Fin 3), Reachable (system (Option (Fin 3)) (Fin 3)) s ∧
    Deadlocked s ∧ s.owner = some none ∧ s.ready = [none] :=
  exists_deadlocked (Fin 3)

end Any

end Cothread.CondWorkers
