import Cothread.Lib.CallOnce
import Mathlib.Order.Defs.LinearOrder
import Mathlib.Algebra.Group.Int.Defs

/-!
# The life of the scheduler

Any number of threads call `Scheduler::Init`, `GetTimerThread`, `Shutdown` and `bthread_set_worker_count`. The workers
are started in `call_once`, and so is the timer thread; `Shutdown` deletes both. What the workers and the timer thread
do is not modelled here, nor how long `Init` and `Shutdown` wait for them.

- **never restarted** (`never_restarted`): after a `Shutdown` has deleted the workers there is none in any later state,
  while `initialized_` goes on to say that the scheduler is there;
- **the timer thread** (`timerThread_null`): nobody is given a null timer thread before a `Shutdown` has deleted it, and
  from then on `GetTimerThread` returns null.
-/

namespace Cothread.Lifecycle

open Run CallOnce

/-- `n` in `Scheduler::Init`; `hardware` is `hardware_concurrency()`. -/
def workerNumber (hardware : ℕ) (configured : ℤ) : ℕ :=
  if configured ≤ 0 then (if hardware = 0 then 4 else hardware) else configured.toNat

def MAX_SHARDS : ℤ := 256

/-- `TimerThread`: `worker_count_` and `running_`. -/
structure TimerThread where
  shards : ℤ
  running : Bool
  deriving DecidableEq

/-- `TimerThread::Init`. -/
def TimerThread.init (t : TimerThread) (workerCount : ℤ) : TimerThread :=
  { t with shards := if min workerCount MAX_SHARDS ≤ 0 then 1 else min workerCount MAX_SHARDS }

/-- The next access of a thread. -/
inductive Pc
  | idle
  -- `Init`
  | init  -- `call_once(init_once_)`
  | readConfigured
  | storeRunning (n : ℕ)
  | startWorkers (n : ℕ)
  | awaitReady
  | storeInitialized
  | endInit
  -- `Shutdown`
  | load  -- `running_.load()`
  | store  -- `running_.store(false)`
  | stopWorkers
  | deleteWorkers
  | clear  -- `workers_.clear()`
  | storeCount
  | readTimer  -- `if (timer_thread_)`
  | stopTimer  -- `timer_thread_->Stop()`: `running_`
  | joinTimer
  | resetTimer  -- `timer_thread_.reset()`
  -- `GetTimerThread`
  | timer  -- `call_once(timer_init_flag_)`
  | testTimer  -- `if (!timer_thread_)`
  | makeTimer
  | initTimer
  | startTimer
  | endTimer
  | get  -- `timer_thread_.get()`
  | use (found : Bool)  -- the caller's use of what it was given: a pointer, or null
  | crashed  -- it has used a timer thread that is not there
  deriving DecidableEq

structure State (A : Type*) where
  configured : ℤ  -- `configured_count_`
  initOnce : Flag A  -- `init_once_`
  running : Bool  -- `running_`
  initialized : Bool  -- `initialized_`
  workers : ℕ  -- the size of `workers_`
  workerCount : ℕ  -- `worker_count_`
  timerOnce : Flag A  -- `timer_init_flag_`
  timer : Option TimerThread  -- `timer_thread_`
  pc : A → Pc
  resets : ℕ  -- how often a timer thread has been deleted

inductive Label (A : Type*)
  | setWorkerCount (n : ℤ)
  | init (a : A) (count : Option ℤ)
  | shutdown (a : A)
  | timer (a : A)
  | thread (a : A)
  deriving DecidableEq

/-- The scheduler has just been constructed. -/
def State.start (A : Type*) : State A where
  configured := 0
  initOnce := .fresh
  running := false
  initialized := false
  workers := 0
  workerCount := 0
  timerOnce := .fresh
  timer := none
  pc _ := .idle
  resets := 0

section Steps

variable {A : Type*} [DecidableEq A]

def State.goto (s : State A) (a : A) (pc : Pc) : State A := { s with pc := Function.update s.pc a pc }

/-- `wc` in `GetTimerThread`. -/
def State.timerWorkers (s : State A) (hardware : ℕ) : ℤ :=
  let wc := if 0 < s.configured then s.configured else s.workerCount
  if wc ≤ 0 then (if hardware = 0 then 4 else hardware) else wc

/-- One access of a thread; `none` while it has to wait. -/
def State.access (hardware : ℕ) (s : State A) (a : A) : Pc → Option (State A)
  | .idle | .crashed => none
  | .init =>
    match s.initOnce with
    | .fresh => some ({ s with initOnce := .running a }.goto a .readConfigured)
    | .running _ => none
    | .done => some (s.goto a .idle)
  | .readConfigured => some (s.goto a (.storeRunning (workerNumber hardware s.configured)))
  | .storeRunning n => some ({ s with running := true }.goto a (.startWorkers n))
  | .startWorkers n => some ({ s with workers := s.workers + n, workerCount := n }.goto a .awaitReady)
  | .awaitReady => some (s.goto a .storeInitialized)
  | .storeInitialized => some ({ s with initialized := true }.goto a .endInit)
  | .endInit => some ({ s with initOnce := .done }.goto a .idle)
  | .load => some (s.goto a (if s.running then .store else .idle))
  | .store => some ({ s with running := false }.goto a .stopWorkers)
  | .stopWorkers => some (s.goto a .deleteWorkers)
  | .deleteWorkers => some (s.goto a .clear)
  | .clear => some ({ s with workers := 0 }.goto a .storeCount)
  | .storeCount => some ({ s with workerCount := 0 }.goto a .readTimer)
  | .readTimer => some (s.goto a (if s.timer.isSome then .stopTimer else .idle))
  | .stopTimer =>
    match s.timer with
    | none => some (s.goto a .crashed)
    | some t => some ({ s with timer := some { t with running := false } }.goto a
        (if t.running then .joinTimer else .resetTimer))
  | .joinTimer => some (s.goto a (if s.timer.isSome then .resetTimer else .crashed))
  | .resetTimer => some
      ({ s with timer := none, resets := if s.timer.isSome then s.resets + 1 else s.resets }.goto a .idle)
  | .timer =>
    match s.timerOnce with
    | .fresh => some ({ s with timerOnce := .running a }.goto a .testTimer)
    | .running _ => none
    | .done => some (s.goto a .get)
  | .testTimer => some (s.goto a (if s.timer.isSome then .endTimer else .makeTimer))
  | .makeTimer => some ({ s with timer := some ⟨0, false⟩ }.goto a .initTimer)
  | .initTimer =>
    match s.timer with
    | none => some (s.goto a .crashed)
    | some t => some ({ s with timer := some (t.init (s.timerWorkers hardware)) }.goto a .startTimer)
  | .startTimer =>
    match s.timer with
    | none => some (s.goto a .crashed)
    | some t => some ({ s with timer := some { t with running := true } }.goto a .endTimer)
  | .endTimer => some ({ s with timerOnce := .done }.goto a .get)
  | .get => some (s.goto a (.use s.timer.isSome))
  | .use found => some (s.goto a (if found && s.timer.isSome then .idle else .crashed))

/-- One step: `bthread_set_worker_count`, which changes nothing when it returns an error; a thread calls, or has an
access. -/
def step (hardware : ℕ) (s : State A) : Label A → Option (State A)
  | .setWorkerCount n => some (if n ≤ 0 ∨ 0 < s.workerCount then s else { s with configured := n })
  | .init a count =>
    if s.pc a = .idle then some ({ s with configured := count.getD s.configured }.goto a .init) else none
  | .shutdown a => if s.pc a = .idle then some (s.goto a .load) else none
  | .timer a => if s.pc a = .idle then some (s.goto a .timer) else none
  | .thread a => s.access hardware a (s.pc a)

end Steps

/-- A scheduler on a machine with a number of processors, and its callers. -/
def system (hardware : ℕ) (A : Type*) [DecidableEq A] : System (State A) (Label A) where
  init s := s = .start A
  step := step hardware

/-! ## The workers -/

/-- Where a thread is in `Init` or `Shutdown`. -/
inductive Stage
  | out
  | before  -- it is going to store `running_`
  | starts  -- it is going to start the workers
  | started
  | initialized
  | stops  -- it has found `running_` set
  | stopped  -- it has stored `false`
  deriving DecidableEq

def Pc.stage : Pc → Stage
  | .readConfigured | .storeRunning _ => .before
  | .startWorkers _ => .starts
  | .awaitReady | .storeInitialized => .started
  | .endInit => .initialized
  | .store => .stops
  | .stopWorkers | .deleteWorkers | .clear => .stopped
  | _ => .out

/-- In the routine of `Init`. -/
def Stage.Inits (x : Stage) : Prop := x = .before ∨ x = .starts ∨ x = .started ∨ x = .initialized

/-- `running_` is never set again. -/
def State.Set {A : Type*} (s : State A) : Prop := s.initOnce ≠ .fresh ∧ ∀ a, (s.pc a).stage ≠ .before

/-- The workers have been started, and will not be started again. -/
def State.HasStarted {A : Type*} (s : State A) : Prop := s.Set ∧ ∀ a, (s.pc a).stage ≠ .starts

/-- The scheduler is started once. -/
structure Started {A : Type*} (s : State A) : Prop where
  owner : ∀ a, (s.pc a).stage.Inits → s.initOnce = .running a
  number : ∀ a n, s.pc a = .storeRunning n ∨ s.pc a = .startWorkers n → 0 < n
  ended : s.initOnce = .done → s.initialized = true
  ends : ∀ a, (s.pc a).stage = .initialized → s.initialized = true
  running : s.running = true → s.Set
  stops : ∀ a, (s.pc a).stage = .stops → s.Set
  stopped : ∀ a, (s.pc a).stage = .stopped → s.Set ∧ s.running = false
  gone : s.HasStarted → s.workers = 0 → s.running = false

section Workers

variable {A : Type*} [DecidableEq A] {hardware : ℕ} {s t : State A} {a : A} {pc : Pc} {l : Label A}

theorem stage_update (b : A) :
    (Function.update s.pc a pc b).stage = if b = a then pc.stage else (s.pc b).stage := by
  rw [Function.update_apply]
  split_ifs <;> rfl

theorem workerNumber_pos (hardware : ℕ) (configured : ℤ) : 0 < workerNumber hardware configured := by
  unfold workerNumber
  split_ifs <;> omega

/-- A thread leaves `Init` or `Shutdown`, or stays where it is in them. -/
theorem Started.quiet (h : Started s) (hpc : t.pc = Function.update s.pc a pc)
    (hstage : pc.stage = .out ∨ pc.stage = (s.pc a).stage) (hnumber : ∀ n, pc ≠ .storeRunning n ∧ pc ≠ .startWorkers n)
    (honce : t.initOnce = s.initOnce) (hrunning : t.running = s.running) (hinit : t.initialized = s.initialized)
    (hworkers : t.workers = s.workers) (hleft : pc.stage = .out → ¬(s.pc a).stage.Inits) : Started t := by
  obtain ⟨howner, hnum, hended, hends, hrun, hstops, hstopped, hgone⟩ := h
  constructor <;> simp only [State.HasStarted, State.Set, Stage.Inits, hpc, stage_update] at * <;> grind -linarith

/-- An access in `Init`. -/
theorem Started.initStep (h : Started s) (hpc : s.pc a = .init ∨ (s.pc a).stage.Inits)
    (hst : s.access hardware a (s.pc a) = some t) : Started t := by
  cases hat : s.pc a with
  | init =>
    rw [hat] at hst
    simp only [State.access] at hst
    split at hst
    · have hstage := congrArg Pc.stage hat
      cases hst
      obtain ⟨howner, hnum, hended, hends, hrun, hstops, hstopped, hgone⟩ := h
      constructor <;> simp only [State.HasStarted, State.Set, Stage.Inits, State.goto, stage_update] at * <;>
        grind -linarith [Pc.stage]
    · cases hst
    · cases hst
      exact h.quiet rfl (.inl rfl) (by simp) rfl rfl rfl rfl (by simp [hat, Pc.stage, Stage.Inits])
  | awaitReady =>
    rw [hat] at hst
    cases hst
    exact h.quiet rfl (.inr (by rw [hat]; rfl)) (by simp) rfl rfl rfl rfl (by simp [Pc.stage])
  | readConfigured =>
    have hstage := congrArg Pc.stage hat
    have hpos := workerNumber_pos hardware s.configured
    rw [hat] at hst
    cases hst
    obtain ⟨howner, hnum, hended, hends, hrun, hstops, hstopped, hgone⟩ := h
    constructor <;> simp only [State.HasStarted, State.Set, Stage.Inits, State.goto, stage_update] at * <;>
      grind -linarith [Pc.stage]
  | startWorkers n =>
    have hstage := congrArg Pc.stage hat
    have hpos := h.number a n (.inr hat)
    rw [hat] at hst
    cases hst
    obtain ⟨howner, hnum, hended, hends, hrun, hstops, hstopped, hgone⟩ := h
    constructor <;> simp only [State.HasStarted, State.Set, Stage.Inits, State.goto, stage_update] at * <;>
      grind -linarith [Pc.stage]
  | storeRunning n | storeInitialized | endInit =>
    have hstage := congrArg Pc.stage hat
    rw [hat] at hst
    cases hst
    obtain ⟨howner, hnum, hended, hends, hrun, hstops, hstopped, hgone⟩ := h
    constructor <;> simp only [State.HasStarted, State.Set, Stage.Inits, State.goto, stage_update] at * <;>
      grind -linarith [Pc.stage]
  | _ => simp [hat, Pc.stage, Stage.Inits] at hpc

/-- An access in `Shutdown`, up to the timer thread. -/
theorem Started.shutdownStep (h : Started s)
    (hpc : s.pc a = .load ∨ s.pc a = .store ∨ s.pc a = .stopWorkers ∨ s.pc a = .deleteWorkers ∨ s.pc a = .clear)
    (hst : s.access hardware a (s.pc a) = some t) : Started t := by
  rcases hpc with hat | hat | hat | hat | hat
  case inr.inr.inl | inr.inr.inr.inl =>
    rw [hat] at hst
    cases hst
    exact h.quiet rfl (.inr (by rw [hat]; rfl)) (by simp) rfl rfl rfl rfl (by simp [Pc.stage])
  all_goals
    have hstage := congrArg Pc.stage hat
    rw [hat] at hst
    cases hst
    obtain ⟨howner, hnum, hended, hends, hrun, hstops, hstopped, hgone⟩ := h
    constructor <;> simp only [State.HasStarted, State.Set, Stage.Inits, State.goto, stage_update] at * <;>
      grind -linarith [Pc.stage]

/-- A thread that is not in `Init` or `Shutdown` stays out of them. -/
theorem Started.out (h : Started s) (hat : (s.pc a).stage = .out) (hpc : pc.stage = .out)
    (hto : t.pc = Function.update s.pc a pc) (honce : t.initOnce = s.initOnce) (hrunning : t.running = s.running)
    (hinit : t.initialized = s.initialized) (hworkers : t.workers = s.workers) : Started t := by
  refine h.quiet hto (.inl hpc) (fun n => ⟨?_, ?_⟩) honce hrunning hinit hworkers (by simp [hat, Stage.Inits])
  · rintro rfl
    cases hpc
  · rintro rfl
    cases hpc

theorem Started.access (h : Started s) (hst : s.access hardware a (s.pc a) = some t) : Started t := by
  cases hat : s.pc a with
  | idle | crashed =>
    rw [hat] at hst
    cases hst
  | init => exact h.initStep (.inl hat) hst
  | readConfigured | storeRunning n | startWorkers n | awaitReady | storeInitialized | endInit =>
    exact h.initStep (.inr (by simp [hat, Pc.stage, Stage.Inits])) hst
  | load | store | stopWorkers | deleteWorkers | clear => exact h.shutdownStep (by simp [hat]) hst
  | storeCount | resetTimer | makeTimer | endTimer | get =>
    rw [hat] at hst
    cases hst
    exact h.out (by rw [hat]; rfl) rfl rfl rfl rfl rfl rfl
  | readTimer | joinTimer | testTimer | use found =>
    rw [hat] at hst
    cases hst
    exact h.out (by rw [hat]; rfl) (by split_ifs <;> rfl) rfl rfl rfl rfl rfl
  | stopTimer =>
    rw [hat] at hst
    simp only [State.access] at hst
    split at hst
    · cases hst
      exact h.out (by rw [hat]; rfl) rfl rfl rfl rfl rfl rfl
    · cases hst
      exact h.out (by rw [hat]; rfl) (by split_ifs <;> rfl) rfl rfl rfl rfl rfl
  | initTimer | startTimer =>
    rw [hat] at hst
    simp only [State.access] at hst
    split at hst
    all_goals
      cases hst
      exact h.out (by rw [hat]; rfl) rfl rfl rfl rfl rfl rfl
  | timer =>
    rw [hat] at hst
    simp only [State.access] at hst
    split at hst
    · cases hst
      exact h.out (by rw [hat]; rfl) rfl rfl rfl rfl rfl rfl
    · cases hst
    · cases hst
      exact h.out (by rw [hat]; rfl) rfl rfl rfl rfl rfl rfl

theorem Started.step (h : Started s) (hst : step hardware s l = some t) : Started t := by
  cases l with
  | setWorkerCount n =>
    cases hst
    split_ifs
    · exact h
    · exact { h with }
  | init a count =>
    obtain ⟨hat, hst⟩ := Option.ite_none_right_eq_some.mp hst
    cases hst
    exact h.out (by rw [hat]; rfl) rfl rfl rfl rfl rfl rfl
  | shutdown a | timer a =>
    obtain ⟨hat, hst⟩ := Option.ite_none_right_eq_some.mp hst
    cases hst
    exact h.out (by rw [hat]; rfl) rfl rfl rfl rfl rfl rfl
  | thread a => exact h.access hst

theorem reachable_started (hs : Reachable (system hardware A) s) : Started s := by
  refine hs.invariant (I := Started) (fun s h => ?_) fun s t l h _ hst => h.step hst
  cases h
  constructor <;> simp [State.start, Pc.stage, Stage.Inits, State.HasStarted, State.Set]

/-- The workers have been deleted. -/
structure Gone (s : State A) : Prop where
  initOnce : s.initOnce = .done
  workers : s.workers = 0
  running : s.running = false
  initialized : s.initialized = true

/-- **What one step preserves**: nobody is in the routine of `Init`, which alone starts workers. -/
theorem Gone.step (h : Gone s) (hstarted : Started s) (hst : Lifecycle.step hardware s l = some t) : Gone t := by
  obtain ⟨honce, hworkers, hrunning, hinitialized⟩ := h
  have hout (a : A) : ¬(s.pc a).stage.Inits := by
    intro ha
    have := hstarted.owner a ha
    rw [honce] at this
    cases this
  cases l with
  | setWorkerCount n =>
    cases hst
    split_ifs <;> exact ⟨honce, hworkers, hrunning, hinitialized⟩
  | init a count | shutdown a | timer a =>
    obtain ⟨-, hst⟩ := Option.ite_none_right_eq_some.mp hst
    cases hst
    exact ⟨honce, hworkers, hrunning, hinitialized⟩
  | thread a =>
    have ha := hout a
    simp only [Lifecycle.step] at hst
    cases hat : s.pc a with
    | idle | crashed =>
      rw [hat] at hst
      cases hst
    | readConfigured | storeRunning n | startWorkers n | awaitReady | storeInitialized | endInit =>
      simp [hat, Pc.stage, Stage.Inits] at ha
    | init =>
      simp only [hat, State.access, honce] at hst
      cases hst
      exact ⟨honce, hworkers, hrunning, hinitialized⟩
    | timer | stopTimer | initTimer | startTimer =>
      simp only [hat, State.access] at hst
      split at hst <;> cases hst <;> exact ⟨honce, hworkers, hrunning, hinitialized⟩
    | store =>
      rw [hat] at hst
      cases hst
      exact ⟨honce, hworkers, rfl, hinitialized⟩
    | clear =>
      rw [hat] at hst
      cases hst
      exact ⟨honce, rfl, hrunning, hinitialized⟩
    | _ =>
      rw [hat] at hst
      cases hst
      exact ⟨honce, hworkers, hrunning, hinitialized⟩

/-- **Never restarted.** When the scheduler has been started and a `Shutdown` has deleted its workers, there is no
worker in any later state, and `running_` is not set; whoever calls `Init` again finds that it is initialized. -/
theorem never_restarted {ls : List (Label A)} (hs : Reachable (system hardware A) s) (hdone : s.initOnce = .done)
    (hgone : s.workers = 0) (hrun : exec (system hardware A) s ls = some t) :
    t.workers = 0 ∧ t.running = false ∧ t.initialized = true := by
  have hstarted := reachable_started hs
  have hset : s.HasStarted := by
    refine ⟨⟨by simp [hdone], fun a ha => ?_⟩, fun a ha => ?_⟩
    · have := hstarted.owner a (.inl ha)
      simp [hdone] at this
    · have := hstarted.owner a (.inr (.inl ha))
      simp [hdone] at this
  have hall : Gone t := exec_invariant (fun u v l hu h hst => h.step (reachable_started hu) hst) hs
    ⟨hdone, hgone, hstarted.gone hset hgone, hstarted.ended hdone⟩ hrun
  exact ⟨hall.workers, hall.running, hall.initialized⟩

/-- `Init`. -/
def initRun : List (Label Unit) := .init () none :: List.replicate 7 (.thread ())

/-- `Shutdown`, with as many accesses: seven, or ten when there is a timer thread. -/
def shutdownRun (n : ℕ) : List (Label Unit) := .shutdown () :: List.replicate n (.thread ())

/-- Eight workers are started and deleted; then the number of workers is set, and `Init` is called again. -/
theorem never_restarted_eight : ∃ t : State Unit, t.configured = 2 ∧ t.pc () = .idle ∧ t.workers = 0 ∧
    t.running = false ∧ t.initialized = true := by
  have hrun : (exec (system 8 Unit) (.start Unit) (initRun ++ shutdownRun 7)).any (fun s =>
      decide (s.initOnce = .done ∧ s.workers = 0 ∧
        (exec (system 8 Unit) s [.setWorkerCount 2, .init () none, .thread ()]).any (fun t =>
          decide (t.configured = 2 ∧ t.pc () = .idle)) = true)) = true := by decide
  obtain ⟨s, hs, hdone, hgone, hcall⟩ := of_exec_any hrun
  obtain ⟨t, ht, hconfigured, hidle⟩ := of_exec_any hcall
  exact ⟨t, hconfigured, hidle, never_restarted (reachable_exec (.init rfl) hs) hdone hgone ht⟩

end Workers

/-! ## The timer thread -/

/-- What a thread has to do with the timer thread. -/
inductive Role
  | out
  | early  -- it is going to make it
  | makes  -- it has made it
  | uses
  | lost  -- it has no timer thread to use
  deriving DecidableEq

def Pc.role : Pc → Role
  | .testTimer | .makeTimer => .early
  | .initTimer | .startTimer | .endTimer => .makes
  | .get | .use true | .stopTimer | .joinTimer | .resetTimer => .uses
  | .use false | .crashed => .lost
  | _ => .out

/-- The timer thread is made once, and is there until it is deleted. -/
structure Timed {A : Type*} (s : State A) : Prop where
  owner : ∀ a, (s.pc a).role = .early ∨ (s.pc a).role = .makes → s.timerOnce = .running a
  fresh : s.timerOnce = .fresh → s.timer = none ∧ s.resets = 0
  early : ∀ a, (s.pc a).role = .early → s.timer = none ∧ s.resets = 0
  kept : s.timer ≠ none → s.resets = 0
  made : s.resets = 0 → s.timerOnce = .done → s.timer ≠ none
  used : s.resets = 0 → ∀ a, (s.pc a).role = .makes ∨ (s.pc a).role = .uses → s.timer ≠ none
  lost : s.resets = 0 → ∀ a, (s.pc a).role ≠ .lost

section Timer

variable {A : Type*} [DecidableEq A] {hardware : ℕ} {s t : State A} {a : A} {pc : Pc} {l : Label A}

theorem role_update (b : A) :
    (Function.update s.pc a pc b).role = if b = a then pc.role else (s.pc b).role := by
  rw [Function.update_apply]
  split_ifs <;> rfl

/-- A thread goes on, and the timer thread stays, or stays away. -/
theorem Timed.move (h : Timed s) (hpc : t.pc = Function.update s.pc a pc) (honce : t.timerOnce = s.timerOnce)
    (htimer : t.timer = none ↔ s.timer = none) (hresets : t.resets = s.resets)
    (hrole : pc.role = .early ∨ pc.role = .makes → pc.role = (s.pc a).role)
    (huse : pc.role = .uses → s.resets = 0 → s.timer ≠ none) (hlose : pc.role = .lost → s.resets ≠ 0) : Timed t := by
  obtain ⟨howner, hfresh, hearly, hkept, hmade, hused, hlost⟩ := h
  constructor <;> simp only [hpc, role_update, ne_eq, htimer] at * <;> grind -linarith

/-- A thread has no more to do with the timer thread than before. -/
theorem Timed.quiet (h : Timed s) (hpc : t.pc = Function.update s.pc a pc)
    (hrole : pc.role = .out ∨ pc.role = (s.pc a).role) (honce : t.timerOnce = s.timerOnce)
    (htimer : t.timer = none ↔ s.timer = none) (hresets : t.resets = s.resets) : Timed t := by
  refine h.move hpc honce htimer hresets (fun hp => ?_) (fun hp hr => ?_) fun hp hr => ?_
  · grind -linarith
  · exact h.used hr a (.inr (by grind -linarith))
  · exact h.lost hr a (by grind -linarith)

/-- A thread goes to the timer thread, and crashes when there is none. -/
theorem Timed.visit (h : Timed s) (hat : (s.pc a).role = .makes ∨ (s.pc a).role = .uses)
    (hpc : t.pc = Function.update s.pc a pc) (hnone : s.timer = none → pc.role = .lost)
    (hsome : s.timer ≠ none → pc.role = .out ∨ pc.role = (s.pc a).role) (honce : t.timerOnce = s.timerOnce)
    (htimer : t.timer = none ↔ s.timer = none) (hresets : t.resets = s.resets) : Timed t := by
  by_cases hthere : s.timer = none
  · refine h.move hpc honce htimer hresets (by simp [hnone hthere]) (by simp [hnone hthere]) fun _ hr => ?_
    exact h.used hr a hat hthere
  · exact h.quiet hpc (hsome hthere) honce htimer hresets

/-- The routine of `GetTimerThread` takes the flag, makes the timer thread or gives the flag back. -/
theorem Timed.change (h : Timed s)
    (hpc : s.pc a = .timer ∧ s.timerOnce = .fresh ∨ s.pc a = .makeTimer ∨ s.pc a = .endTimer)
    (hst : s.access hardware a (s.pc a) = some t) : Timed t := by
  obtain ⟨howner, hfresh, hearly, hkept, hmade, hused, hlost⟩ := h
  rcases hpc with ⟨hat, honce⟩ | hat | hat
  case inl =>
    have hrole := congrArg Pc.role hat
    simp only [hat, State.access, honce] at hst
    cases hst
    constructor <;> simp only [State.goto, role_update] at * <;> grind -linarith [Pc.role]
  all_goals
    have hrole := congrArg Pc.role hat
    rw [hat] at hst
    cases hst
    constructor <;> simp only [State.goto, role_update] at * <;> grind -linarith [Pc.role]

/-- The timer thread is deleted. -/
theorem Timed.reset (h : Timed s) (hat : s.pc a = .resetTimer) (hthere : s.timer ≠ none) :
    Timed ({ s with timer := none, resets := s.resets + 1 }.goto a .idle) := by
  have hrole := congrArg Pc.role hat
  obtain ⟨howner, hfresh, hearly, hkept, hmade, hused, hlost⟩ := h
  constructor <;> simp only [State.goto, role_update] at * <;> grind -linarith [Pc.role]

/-- An access of `GetTimerThread` before the flag is given back. -/
theorem Timed.routine (h : Timed s) (hpc : (s.pc a).role = .early ∨ (s.pc a).role = .makes)
    (hst : s.access hardware a (s.pc a) = some t) : Timed t := by
  cases hat : s.pc a with
  | testTimer =>
    have hnone := (h.early a (by rw [hat]; rfl)).1
    rw [hat] at hst
    simp only [State.access, hnone] at hst
    cases hst
    exact h.quiet rfl (.inr (by rw [hat]; rfl)) rfl Iff.rfl rfl
  | makeTimer => exact h.change (.inr (.inl hat)) hst
  | endTimer => exact h.change (.inr (.inr hat)) hst
  | initTimer | startTimer =>
    rw [hat] at hst
    simp only [State.access] at hst
    split at hst
    · next hnone =>
      cases hst
      exact h.visit (.inl (by rw [hat]; rfl)) rfl (fun _ => rfl) (absurd hnone) rfl Iff.rfl rfl
    · next t hsome =>
      cases hst
      exact h.quiet rfl (.inr (by rw [hat]; rfl)) rfl (by simp [State.goto, hsome]) rfl
  | use found => cases found <;> simp [hat, Pc.role] at hpc
  | _ => simp [hat, Pc.role] at hpc

/-- An access of a thread that has seen a timer thread, or has been through the flag. -/
theorem Timed.use (h : Timed s) (hpc : (s.pc a).role = .uses) (hst : s.access hardware a (s.pc a) = some t) :
    Timed t := by
  have hat := Or.inr (a := (s.pc a).role = .makes) hpc
  cases hp : s.pc a with
  | resetTimer =>
    cases htimer : s.timer with
    | none =>
      simp only [hp, State.access, htimer] at hst
      cases hst
      exact h.quiet rfl (.inl rfl) rfl (by simp [State.goto, htimer]) rfl
    | some u =>
      simp only [hp, State.access, htimer] at hst
      cases hst
      exact h.reset hp (by simp [htimer])
  | stopTimer =>
    rw [hp] at hst
    simp only [State.access] at hst
    split at hst
    · next hnone =>
      cases hst
      exact h.visit hat rfl (fun _ => rfl) (absurd hnone) rfl Iff.rfl rfl
    · next u hsome =>
      cases hst
      refine h.quiet rfl (.inr ?_) rfl (by simp [State.goto, hsome]) rfl
      rw [hp]
      split_ifs <;> rfl
  | joinTimer | get =>
    rw [hp] at hst
    cases hst
    refine h.visit hat rfl (fun hnone => ?_) (fun hsome => .inr ?_) rfl Iff.rfl rfl
    · simp [hnone, Pc.role]
    · simp [hp, Option.isSome_iff_ne_none.mpr hsome, Pc.role]
  | use found =>
    rw [hp] at hst
    cases hst
    cases found with
    | false => simp [hp, Pc.role] at hpc
    | true =>
      refine h.visit hat rfl (fun hnone => ?_) (fun hsome => .inl ?_) rfl Iff.rfl rfl
      · simp [hnone, Pc.role]
      · simp [Option.isSome_iff_ne_none.mpr hsome, Pc.role]
  | _ => simp [hp, Pc.role] at hpc

theorem Timed.access (h : Timed s) (hst : s.access hardware a (s.pc a) = some t) : Timed t := by
  cases hat : s.pc a with
  | idle | crashed =>
    rw [hat] at hst
    cases hst
  | init =>
    rw [hat] at hst
    simp only [State.access] at hst
    split at hst
    · cases hst
      exact h.quiet rfl (.inl rfl) rfl Iff.rfl rfl
    · cases hst
    · cases hst
      exact h.quiet rfl (.inl rfl) rfl Iff.rfl rfl
  | readConfigured | storeRunning n | startWorkers n | awaitReady | storeInitialized | endInit | store | stopWorkers |
    deleteWorkers | clear | storeCount =>
    rw [hat] at hst
    cases hst
    exact h.quiet rfl (.inl rfl) rfl Iff.rfl rfl
  | load =>
    rw [hat] at hst
    cases hst
    exact h.quiet rfl (.inl (by split_ifs <;> rfl)) rfl Iff.rfl rfl
  | readTimer =>
    rw [hat] at hst
    cases hst
    refine h.move rfl rfl Iff.rfl rfl ?_ ?_ ?_
    all_goals split_ifs with hsome
    all_goals simp_all [Pc.role, Option.isSome_iff_ne_none]
  | timer =>
    cases honce : s.timerOnce with
    | fresh => exact h.change (.inl ⟨hat, honce⟩) hst
    | running b =>
      simp only [hat, State.access, honce] at hst
      cases hst
    | done =>
      simp only [hat, State.access, honce] at hst
      cases hst
      exact h.move rfl rfl Iff.rfl rfl (by simp [Pc.role]) (fun _ hr => h.made hr honce) (by simp [Pc.role])
  | testTimer => exact h.routine (.inl (by rw [hat]; rfl)) hst
  | makeTimer => exact h.routine (.inl (by rw [hat]; rfl)) hst
  | initTimer | startTimer | endTimer => exact h.routine (.inr (by rw [hat]; rfl)) hst
  | stopTimer | joinTimer | resetTimer | get => exact h.use (by rw [hat]; rfl) hst
  | use found =>
    cases found with
    | true => exact h.use (by rw [hat]; rfl) hst
    | false =>
      rw [hat] at hst
      cases hst
      exact h.quiet rfl (.inr (by rw [hat]; rfl)) rfl Iff.rfl rfl

theorem Timed.step (h : Timed s) (hst : step hardware s l = some t) : Timed t := by
  cases l with
  | setWorkerCount n =>
    cases hst
    split_ifs
    · exact h
    · exact { h with }
  | init a count | shutdown a | timer a =>
    obtain ⟨-, hst⟩ := Option.ite_none_right_eq_some.mp hst
    cases hst
    exact h.quiet rfl (.inl rfl) rfl Iff.rfl rfl
  | thread a => exact h.access hst

theorem reachable_timed (hs : Reachable (system hardware A) s) : Timed s := by
  refine hs.invariant (I := Timed) (fun s h => ?_) fun s t l h _ hst => h.step hst
  cases h
  constructor <;> simp [State.start, Pc.role]

theorem found_update {b : A} (hpc : pc ≠ .use true) (hb : Function.update s.pc a pc b = .use true) :
    s.pc b = .use true := by
  rw [Function.update_apply] at hb
  split_ifs at hb
  · exact absurd hb hpc
  · exact hb

/-- **What one step preserves** when the timer thread has been deleted: nobody else is given one. -/
theorem Timed.deleted (h : Timed s) (hresets : 0 < s.resets) (hdone : s.timerOnce = .done)
    (hst : Lifecycle.step hardware s l = some t) :
    0 < t.resets ∧ t.timerOnce = .done ∧ ∀ b, t.pc b = .use true → s.pc b = .use true := by
  have hnone : s.timer = none := by
    by_contra hthere
    have := h.kept hthere
    omega
  cases l with
  | setWorkerCount n =>
    cases hst
    split_ifs <;> exact ⟨hresets, hdone, fun _ => id⟩
  | init a count | shutdown a | timer a =>
    obtain ⟨-, hst⟩ := Option.ite_none_right_eq_some.mp hst
    cases hst
    exact ⟨hresets, hdone, fun b => found_update (by simp)⟩
  | thread a =>
    simp only [Lifecycle.step] at hst
    cases hat : s.pc a with
    | idle | crashed =>
      rw [hat] at hst
      cases hst
    | init =>
      rw [hat] at hst
      simp only [State.access] at hst
      split at hst <;> cases hst <;> exact ⟨hresets, hdone, fun b => found_update (by simp)⟩
    | timer =>
      simp only [hat, State.access, hdone] at hst
      cases hst
      exact ⟨hresets, hdone, fun b => found_update (by simp)⟩
    | endTimer =>
      rw [hat] at hst
      cases hst
      exact ⟨hresets, rfl, fun b => found_update (by simp)⟩
    | load =>
      rw [hat] at hst
      cases hst
      exact ⟨hresets, hdone, fun b => found_update (by split_ifs <;> simp)⟩
    | readTimer | stopTimer | joinTimer | resetTimer | testTimer | initTimer | startTimer | get =>
      simp only [hat, State.access, hnone] at hst
      cases hst
      exact ⟨hresets, hdone, fun b => found_update (by simp)⟩
    | use found =>
      simp only [hat, State.access, hnone] at hst
      cases hst
      exact ⟨hresets, hdone, fun b => found_update (by simp)⟩
    | _ =>
      rw [hat] at hst
      cases hst
      exact ⟨hresets, hdone, fun b => found_update (by simp)⟩

/-- **The timer thread.** In every state of every run: as long as no `Shutdown` has deleted the timer thread, no caller
of `GetTimerThread` has been given null, and nothing has used a timer thread that is not there. When one has, and
`GetTimerThread` has returned before, then in every later state there is no timer thread, and who has been given one
has it from before; so every call that comes is given null. -/
theorem timerThread_null (hs : Reachable (system hardware A) s) :
    (s.resets = 0 → ∀ a, s.pc a ≠ .use false ∧ s.pc a ≠ .crashed) ∧
    (0 < s.resets → s.timerOnce = .done → ∀ ls t, exec (system hardware A) s ls = some t →
      t.timer = none ∧ ∀ a, t.pc a = .use true → s.pc a = .use true) := by
  constructor
  · intro hresets a
    have hlost := (reachable_timed hs).lost hresets a
    constructor
    · intro ha
      exact hlost (by rw [ha]; rfl)
    · intro ha
      exact hlost (by rw [ha]; rfl)
  · intro hresets hdone ls t hrun
    have hall := exec_invariant (I := fun u => 0 < u.resets ∧ u.timerOnce = .done ∧
      ∀ a, u.pc a = .use true → s.pc a = .use true) (fun u v l hu h hst => ?_) hs ⟨hresets, hdone, fun _ => id⟩ hrun
    · refine ⟨?_, hall.2.2⟩
      by_contra hthere
      have := (reachable_timed (reachable_exec hs hrun)).kept hthere
      omega
    · obtain ⟨hv, honce, hfound⟩ := (reachable_timed hu).deleted h.1 h.2.1 hst
      exact ⟨hv, honce, fun a ha => h.2.2 a (hfound a ha)⟩

/-- A timer thread is made, used and deleted; the next call of `GetTimerThread` is given null, which its caller
uses. -/
theorem timerThread_null_crashed : ∃ t : State Unit, t.timer = none ∧ t.pc () = .crashed := by
  have hrun : (exec (system 8 Unit) (.start Unit) (initRun ++ .timer () :: List.replicate 8 (.thread ()) ++
      shutdownRun 10)).any (fun s => decide (0 < s.resets ∧ s.timerOnce = .done ∧
        (exec (system 8 Unit) s (.timer () :: List.replicate 3 (.thread ()))).any (fun t =>
          decide (t.pc () = .crashed)) = true)) = true := by decide
  obtain ⟨s, hs, hresets, hdone, hcall⟩ := of_exec_any hrun
  obtain ⟨t, ht, hcrashed⟩ := of_exec_any hcall
  exact ⟨t, ((timerThread_null (reachable_exec (.init rfl) hs)).2 hresets hdone _ t ht).1, hcrashed⟩

end Timer

end Cothread.Lifecycle
