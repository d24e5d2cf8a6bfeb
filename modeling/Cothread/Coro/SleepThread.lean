import Cothread.Core.Basic
import Cothread.Lib.Multimap
import Cothread.Lib.Run

/-!
# `sleep` and the sleep thread

Any number of threads in which coroutines sleep, and which call `CoroutineScheduler::Shutdown`. A coroutine that sleeps
puts its meta in `sleep_queue_`, under `sleep_mutex`, notifies `sleep_cv`, and has the sleep thread started once. The
sleep thread submits the metas whose wake time has come, and waits for the next one. `Shutdown` stops it.

- one thread starts the sleep thread, once (`Begun`);
- the mutex has one owner (`Locked`).

Times are 64-bit counts of nanoseconds: the clock stays in their range, and what is added to it may overflow.

`call_once`, the accesses of `sleep_thread_` and the critical sections are steps of their own; the accesses of
`sleep_thread_`, which are not atomic in the program, are atomic here.
-/

namespace Cothread.SleepThread

open Run Multimap

/-- `std::chrono::milliseconds`, in the nanoseconds of `steady_clock`. -/
def milliseconds (n : ℤ) : ℤ := n * 1000000

/-- `now + duration_`. -/
def wakeTime (now duration : ℤ) : ℤ := wrap64 (now + wrap64 (milliseconds duration))

/-- A call of `SleepAwaiter::await_suspend`. -/
structure Sleep (M : Type*) where
  co : M  -- the meta of the coroutine
  duration : ℤ  -- `duration_`
  since : ℤ  -- the time of the call
  deriving DecidableEq

/-- An item of `sleep_queue_`. -/
structure Entry (M : Type*) where
  wake : ℤ
  sleep : Sleep M
  read : ℤ  -- what `await_suspend` read from the clock
  seq : ℕ  -- how many were put in before it
  deriving DecidableEq

/-- The next access of a thread in `await_suspend`, `StartSleepThread` or `Shutdown`. -/
inductive Pc (M : Type*)
  | idle
  | sleepFor (wake : ℤ)  -- `std::this_thread::sleep_for(duration_)`
  | storeSuspended (c : Sleep M)  -- `state.store(SUSPENDED)`
  | readClock (c : Sleep M)
  | lock (c : Sleep M) (read wake : ℤ)
  | emplace (c : Sleep M) (read wake : ℤ)
  | unlock
  | notify  -- `sleep_cv.notify_one()`
  | callOnce
  | exchange  -- `sleep_thread_running_.exchange(true)`
  | create  -- `std::thread(..)`
  | assign  -- `sleep_thread_ = ..`
  | endOnce
  | load  -- `sleep_thread_running_.load()`
  | store  -- `sleep_thread_running_.store(false)`
  | notifyAll
  | joinable
  | join
  deriving DecidableEq

/-- The next access of the sleep thread. -/
inductive ThreadPc (M : Type*)
  | none
  | test  -- `sleep_thread_running_.load()`
  | lock
  | look  -- `sleep_queue_.empty()`
  | readClock
  | scan (now : ℤ)  -- `it != sleep_queue_.end() && it->first <= now`
  | storeReady (now : ℤ) (e : Entry M)  -- `state.store(READY)`
  | submit (now : ℤ) (e : Entry M)
  | erase (now : ℤ)
  | rest (now : ℤ)  -- `sleep_queue_.begin()->first - now()`
  | wait (read duration : ℤ)  -- `wait_for`; `read`: the time when the duration was computed
  | blocked (read since wake : ℤ)  -- in `wait_for` since a time, and until another
  | relock
  | unlock
  | exited
  deriving DecidableEq

/-- `std::once_flag`. -/
inductive Once
  | fresh
  | running
  | done
  deriving DecidableEq

structure State (A M : Type*) where
  clock : ℤ  -- `steady_clock::now()`
  taskState : M → TaskState
  queue : List (Entry M)  -- `sleep_queue_`
  mutex : Option (Option A)  -- the owner of `sleep_mutex`; `some none` is the sleep thread
  running : Bool  -- `sleep_thread_running_`
  once : Once  -- `sleep_init_once_`
  joinable : Bool  -- `sleep_thread_.joinable()`
  thread : ThreadPc M
  actor : A → Pc M
  entries : List (Entry M)  -- all that have been put in the queue
  submitted : List (Entry M × ℤ)  -- those that have been submitted, with the time

inductive Label (A M : Type*)
  | tick (n : ℕ)
  | sleep (a : A) (co : Option M) (duration : ℤ)
  | shutdown (a : A)
  | actor (a : A)
  | thread
  | spurious
  deriving DecidableEq

/-- No coroutine has slept. -/
def State.start (A M : Type*) : State A M where
  clock := 0
  taskState _ := .running
  queue := []
  mutex := none
  running := false
  once := .fresh
  joinable := false
  thread := .none
  actor _ := .idle
  entries := []
  submitted := []

section Steps

variable {A M : Type*} [DecidableEq A] [DecidableEq M]

def State.goto (s : State A M) (a : A) (pc : Pc M) : State A M := { s with actor := Function.update s.actor a pc }

def State.setState (s : State A M) (m : M) (x : TaskState) : State A M :=
  { s with taskState := Function.update s.taskState m x }

/-- The sleep thread is woken if it waits. -/
def ThreadPc.notified : ThreadPc M → ThreadPc M
  | .blocked .. => .relock
  | pc => pc

/-- One access of a thread in a call; `none` while it has to wait. -/
def State.actorStep (s : State A M) (a : A) : Pc M → Option (State A M)
  | .idle => none
  | .sleepFor wake => if wake ≤ s.clock then some (s.goto a .idle) else none
  | .storeSuspended c => some ((s.setState c.co .suspended).goto a (.readClock c))
  | .readClock c => some (s.goto a (.lock c s.clock (wakeTime s.clock c.duration)))
  | .lock c read wake =>
    if s.mutex = none then some ({ s with mutex := some (some a) }.goto a (.emplace c read wake)) else none
  | .emplace c read wake =>
    let e : Entry M := ⟨wake, c, read, s.entries.length⟩
    some ({ s with queue := emplace Entry.wake e s.queue, entries := s.entries ++ [e] }.goto a .unlock)
  | .unlock => some ({ s with mutex := none }.goto a .notify)
  | .notify => some ({ s with thread := s.thread.notified }.goto a .callOnce)
  | .callOnce =>
    match s.once with
    | .fresh => some ({ s with once := .running }.goto a .exchange)
    | .running => none
    | .done => some (s.goto a .idle)
  | .exchange => some ({ s with running := true }.goto a (if s.running then .endOnce else .create))
  | .create => some ({ s with thread := .test }.goto a .assign)
  | .assign => some ({ s with joinable := true }.goto a .endOnce)
  | .endOnce => some ({ s with once := .done }.goto a .idle)
  | .load => some (s.goto a (if s.running then .store else .idle))
  | .store => some ({ s with running := false }.goto a .notifyAll)
  | .notifyAll => some ({ s with thread := s.thread.notified }.goto a .joinable)
  | .joinable => some (s.goto a (if s.joinable then .join else .idle))
  | .join => if s.thread = .exited then some ({ s with joinable := false }.goto a .idle) else none

/-- One access of the sleep thread; `none` while it has to wait. -/
def State.threadStep (s : State A M) : ThreadPc M → Option (State A M)
  | .none | .exited => none
  | .test => some { s with thread := if s.running then .lock else .exited }
  | .lock => if s.mutex = none then some { s with mutex := some none, thread := .look } else none
  | .look => some { s with thread := if s.queue = [] then .wait s.clock (milliseconds 100) else .readClock }
  | .readClock => some { s with thread := .scan s.clock }
  | .scan now =>
    match s.queue with
    | [] => some { s with thread := .rest now }
    | e :: _ => some { s with thread := if e.wake ≤ now then .storeReady now e else .rest now }
  | .storeReady now e => some { s.setState e.sleep.co .ready with thread := .submit now e }
  | .submit now e =>
    some { s.setState e.sleep.co .ready with submitted := s.submitted ++ [(e, s.clock)], thread := .erase now }
  | .erase now => some { s with queue := s.queue.tail, thread := .scan now }
  | .rest _ =>
    match s.queue with
    | [] => some { s with thread := .unlock }
    | e :: _ =>
      let duration := wrap64 (e.wake - s.clock)
      some { s with thread := if 0 < duration then .wait s.clock duration else .unlock }
  | .wait read duration => some { s with mutex := none, thread := .blocked read s.clock (wrap64 (s.clock + duration)) }
  | .blocked _ _ wake => if wake ≤ s.clock then some { s with thread := .relock } else none
  | .relock => if s.mutex = none then some { s with mutex := some none, thread := .unlock } else none
  | .unlock => some { s with mutex := none, thread := .test }

/-- One step: the clock goes on, within its range, a thread calls `await_suspend` (in a coroutine, or with no meta) or
`Shutdown`, or has an access, or the sleep thread does, or is woken without a reason. -/
def step (s : State A M) : Label A M → Option (State A M)
  | .tick n => if s.clock + n < 2 ^ 63 then some { s with clock := s.clock + n } else none
  | .sleep a co duration =>
    if s.actor a = .idle then
      some (s.goto a (match co with
        | none => .sleepFor (s.clock + milliseconds duration)
        | some m => .storeSuspended ⟨m, duration, s.clock⟩))
    else none
  | .shutdown a => if s.actor a = .idle then some (s.goto a .load) else none
  | .actor a => s.actorStep a (s.actor a)
  | .thread => s.threadStep s.thread
  | .spurious =>
    match s.thread with
    | .blocked .. => some { s with thread := .relock }
    | _ => none

variable (A M) in
/-- `sleep` and `Shutdown`, in any threads. -/
def system : System (State A M) (Label A M) where
  init s := s = .start A M
  step := step

/-! ## The start of the sleep thread -/

/-- Where a thread is in `StartSleepThread` or `Shutdown`. -/
inductive Stage
  | out
  | exchange
  | create
  | assign
  | endOnce
  | stops  -- it has found the sleep thread running
  | stopped  -- it has stored `false`
  deriving DecidableEq

def Pc.stage : Pc M → Stage
  | .exchange => .exchange
  | .create => .create
  | .assign => .assign
  | .endOnce => .endOnce
  | .store => .stops
  | .notifyAll | .joinable | .join => .stopped
  | _ => .out

/-- In `StartSleepThread`. -/
def Stage.Starts (x : Stage) : Prop := x = .exchange ∨ x = .create ∨ x = .assign ∨ x = .endOnce

/-- `sleep_thread_running_` is never set again. -/
def Exchanged (s : State A M) : Prop := s.once ≠ .fresh ∧ ∀ a, (s.actor a).stage ≠ .exchange

/-- One thread starts the sleep thread, once. -/
structure Begun (s : State A M) : Prop where
  alone : ∀ a b, (s.actor a).stage.Starts → (s.actor b).stage.Starts → a = b
  once : ∀ a, (s.actor a).stage.Starts → s.once = .running
  running : s.running = true → Exchanged s
  stops : ∀ a, (s.actor a).stage = .stops → Exchanged s
  stopped : ∀ a, (s.actor a).stage = .stopped → Exchanged s ∧ s.running = false
  thread : s.thread ≠ .none → Exchanged s ∧ ∀ a, (s.actor a).stage ≠ .create
  joinable : s.joinable = true → s.thread ≠ .none
  assign : ∀ a, (s.actor a).stage = .assign → s.thread ≠ .none

variable {s t : State A M} {a : A} {l : Label A M}

omit [DecidableEq M] in
theorem stage_update {pc : Pc M} (b : A) :
    (Function.update s.actor a pc b).stage = if b = a then pc.stage else (s.actor b).stage := by
  rw [Function.update_apply]
  split_ifs <;> rfl

omit [DecidableEq A] [DecidableEq M] in
/-- Threads leave `StartSleepThread` and `Shutdown`, or stay where they are in them. -/
theorem Begun.quiet (h : Begun s) (hactor : ∀ b, (t.actor b).stage = (s.actor b).stage ∨ (t.actor b).stage = .out)
    (honce : t.once = s.once) (hrunning : t.running = s.running) (hthread : t.thread = .none ↔ s.thread = .none)
    (hjoinable : t.joinable = true → s.joinable = true) : Begun t := by
  obtain ⟨halone, honce', hrunning', hstops, hstopped, hthread', hjoinable', hassign⟩ := h
  constructor <;> simp only [Exchanged, Stage.Starts] at * <;> grind -linarith

omit [DecidableEq M] in
theorem ThreadPc.notified_eq_none (pc : ThreadPc M) : pc.notified = .none ↔ pc = .none := by
  cases pc <;> simp [notified]

omit [DecidableEq M] in
/-- A thread leaves `StartSleepThread` or `Shutdown`, or stays where it is. -/
theorem stage_out {pc : Pc M} (hpc : pc.stage = .out ∨ pc.stage = (s.actor a).stage) (b : A) :
    ((s.goto a pc).actor b).stage = (s.actor b).stage ∨ ((s.goto a pc).actor b).stage = .out := by
  rw [State.goto, stage_update]
  grind

theorem Begun.actorStep (h : Begun s) (hst : s.actorStep a (s.actor a) = some t) : Begun t := by
  cases hpc : s.actor a with
  | idle =>
    rw [hpc] at hst
    cases hst
  | sleepFor wake | lock c read wake | join =>
    rw [hpc] at hst
    obtain ⟨-, hst⟩ := Option.ite_none_right_eq_some.mp hst
    cases hst
    exact h.quiet (stage_out (.inl rfl)) rfl rfl Iff.rfl (by simp [State.goto])
  | storeSuspended c | readClock c | emplace c read wake | unlock =>
    rw [hpc] at hst
    cases hst
    exact h.quiet (stage_out (.inl rfl)) rfl rfl Iff.rfl id
  | notify =>
    rw [hpc] at hst
    cases hst
    exact h.quiet (stage_out (.inl rfl)) rfl rfl s.thread.notified_eq_none id
  | notifyAll =>
    rw [hpc] at hst
    cases hst
    exact h.quiet (stage_out (.inr (by rw [hpc]; rfl))) rfl rfl s.thread.notified_eq_none id
  | joinable =>
    rw [hpc] at hst
    cases hst
    refine h.quiet (stage_out ?_) rfl rfl Iff.rfl id
    split_ifs
    · exact .inr (by rw [hpc]; rfl)
    · exact .inl rfl
  | callOnce =>
    rw [hpc] at hst
    simp only [State.actorStep] at hst
    split at hst
    · have hstage := congrArg Pc.stage hpc
      cases hst
      obtain ⟨halone, honce, hrunning, hstops, hstopped, hthread, hjoinable, hassign⟩ := h
      constructor <;> simp only [Exchanged, Stage.Starts, State.goto, stage_update] at * <;> grind -linarith [Pc.stage]
    · cases hst
    · cases hst
      exact h.quiet (stage_out (.inl rfl)) rfl rfl Iff.rfl id
  | exchange | create | assign | endOnce | load | store =>
    have hstage := congrArg Pc.stage hpc
    rw [hpc] at hst
    cases hst
    obtain ⟨halone, honce, hrunning, hstops, hstopped, hthread, hjoinable, hassign⟩ := h
    constructor <;> simp only [Exchanged, Stage.Starts, State.goto, stage_update] at * <;> grind -linarith [Pc.stage]

omit [DecidableEq A] in
theorem Begun.threadStep (h : Begun s) (hst : s.threadStep s.thread = some t) : Begun t := by
  have hquiet (hactor : t.actor = s.actor) (honce : t.once = s.once) (hrunning : t.running = s.running)
      (hjoinable : t.joinable = s.joinable) (hs : s.thread ≠ .none) (ht : t.thread ≠ .none) : Begun t :=
    h.quiet (fun b => .inl (by rw [hactor])) honce hrunning (iff_of_false ht hs) (by rw [hjoinable]; exact id)
  cases hpc : s.thread with
  | none | exited =>
    rw [hpc] at hst
    cases hst
  | lock | relock | blocked read since wake =>
    rw [hpc] at hst
    obtain ⟨-, hst⟩ := Option.ite_none_right_eq_some.mp hst
    cases hst
    exact hquiet rfl rfl rfl rfl (by simp [hpc]) (by simp)
  | scan now | rest now =>
    rw [hpc] at hst
    simp only [State.threadStep] at hst
    split at hst
    · cases hst
      exact hquiet rfl rfl rfl rfl (by simp [hpc]) (by simp)
    · cases hst
      exact hquiet rfl rfl rfl rfl (by simp [hpc]) (by split_ifs <;> simp)
  | test | look =>
    rw [hpc] at hst
    cases hst
    exact hquiet rfl rfl rfl rfl (by simp [hpc]) (by split_ifs <;> simp)
  | readClock | storeReady now e | submit now e | erase now | wait read duration | unlock =>
    rw [hpc] at hst
    cases hst
    exact hquiet rfl rfl rfl rfl (by simp [hpc]) (by simp)

theorem Begun.step (h : Begun s) (hst : step s l = some t) : Begun t := by
  cases l with
  | tick n =>
    obtain ⟨-, hst⟩ := Option.ite_none_right_eq_some.mp hst
    cases hst
    exact h.quiet (fun b => .inl rfl) rfl rfl Iff.rfl id
  | sleep a co duration =>
    obtain ⟨-, hst⟩ := Option.ite_none_right_eq_some.mp hst
    cases hst
    refine h.quiet (stage_out (.inl ?_)) rfl rfl Iff.rfl id
    cases co <;> rfl
  | shutdown a =>
    obtain ⟨-, hst⟩ := Option.ite_none_right_eq_some.mp hst
    cases hst
    exact h.quiet (stage_out (.inl rfl)) rfl rfl Iff.rfl id
  | actor a => exact h.actorStep hst
  | thread => exact h.threadStep hst
  | spurious =>
    simp only [SleepThread.step] at hst
    split at hst
    · next read since wake hpc =>
      cases hst
      exact h.quiet (fun b => .inl rfl) rfl rfl (by simp [hpc]) id
    · cases hst

theorem reachable_begun (hs : Reachable (system A M) s) : Begun s := by
  refine hs.invariant (fun s h => ?_) fun s t l h _ hst => h.step hst
  cases h
  constructor <;> simp [State.start, Pc.stage, Stage.Starts]

/-! ## The mutex -/

/-- The thread holds `sleep_mutex`. -/
def Pc.holds : Pc M → Bool
  | .emplace .. | .unlock => true
  | _ => false

/-- The sleep thread holds `sleep_mutex`. -/
def ThreadPc.holds : ThreadPc M → Bool
  | .look | .readClock | .scan _ | .storeReady .. | .submit .. | .erase _ | .rest _ | .wait .. | .unlock => true
  | _ => false

/-- `sleep_mutex` has the owner that it should have. -/
structure Locked (s : State A M) : Prop where
  thread : s.mutex = some none ↔ s.thread.holds = true
  actor : ∀ a, s.mutex = some (some a) ↔ (s.actor a).holds = true

omit [DecidableEq M] in
theorem ThreadPc.holds_notified (pc : ThreadPc M) : pc.notified.holds = pc.holds := by cases pc <;> rfl

omit [DecidableEq M] in
theorem holds_update {pc : Pc M} (b : A) :
    (Function.update s.actor a pc b).holds = if b = a then pc.holds else (s.actor b).holds := by
  rw [Function.update_apply]
  split_ifs <;> rfl

omit [DecidableEq A] [DecidableEq M] in
/-- Nobody takes the mutex or gives it back. -/
theorem Locked.quiet (h : Locked s) (hmutex : t.mutex = s.mutex) (hthread : t.thread.holds = s.thread.holds)
    (hactor : ∀ b, (t.actor b).holds = (s.actor b).holds) : Locked t := by
  constructor
  case thread =>
    rw [hmutex, hthread]
    exact h.thread
  case actor =>
    intro b
    rw [hmutex, hactor]
    exact h.actor b

omit [DecidableEq M] in
/-- A thread goes on without the mutex, or with it. -/
theorem Locked.goto (h : Locked s) {pc : Pc M} (hpc : pc.holds = (s.actor a).holds) (hmutex : t.mutex = s.mutex)
    (hthread : t.thread.holds = s.thread.holds) (hactor : t.actor = Function.update s.actor a pc) : Locked t := by
  refine h.quiet hmutex hthread fun b => ?_
  rw [hactor, holds_update]
  split_ifs with hb
  · rw [hb, hpc]
  · rfl

omit [DecidableEq A] [DecidableEq M] in
/-- Another thread than the one that takes the mutex, or that gives it back. -/
theorem Locked.actor_of_ne (h : Locked s) {o : Option A} {b : A} (ho : s.mutex = none ∨ s.mutex = some o)
    (hb : o ≠ some b) : (s.actor b).holds = false := by
  rw [← Bool.not_eq_true, ← h.actor b]
  obtain ho | ho := ho
  · simp [ho]
  · simpa [ho] using hb

theorem Locked.actorStep (h : Locked s) (hbegun : Begun s) (hst : s.actorStep a (s.actor a) = some t) : Locked t := by
  cases hpc : s.actor a with
  | idle =>
    rw [hpc] at hst
    cases hst
  | sleepFor wake | join =>
    rw [hpc] at hst
    obtain ⟨-, hst⟩ := Option.ite_none_right_eq_some.mp hst
    cases hst
    exact h.goto (by rw [hpc]; rfl) rfl rfl rfl
  | lock c read wake =>
    rw [hpc] at hst
    obtain ⟨hfree, hst⟩ := Option.ite_none_right_eq_some.mp hst
    cases hst
    have hthread := h.thread
    rw [hfree] at hthread
    constructor
    case thread => simpa [State.goto] using hthread
    case actor =>
      intro b
      simp only [State.goto, holds_update]
      split_ifs with hb
      · simp [hb, Pc.holds]
      · rw [h.actor_of_ne (o := some a) (.inl hfree) (by simpa using Ne.symm hb)]
        simpa using Ne.symm hb
  | unlock =>
    rw [hpc] at hst
    cases hst
    have hmine : s.mutex = some (some a) := (h.actor a).mpr (by rw [hpc]; rfl)
    have hthread := h.thread
    rw [hmine] at hthread
    constructor
    case thread => simpa [State.goto] using hthread
    case actor =>
      intro b
      simp only [State.goto, holds_update]
      split_ifs with hb
      · simp [Pc.holds]
      · rw [h.actor_of_ne (.inr hmine) (by simpa using Ne.symm hb)]
        simp
  | callOnce =>
    rw [hpc] at hst
    simp only [State.actorStep] at hst
    split at hst
    · cases hst
      exact h.goto (by rw [hpc]; rfl) rfl rfl rfl
    · cases hst
    · cases hst
      exact h.goto (by rw [hpc]; rfl) rfl rfl rfl
  | exchange | load | joinable =>
    rw [hpc] at hst
    cases hst
    refine h.goto ?_ rfl rfl rfl
    rw [hpc]
    split_ifs <;> rfl
  | create =>
    rw [hpc] at hst
    cases hst
    have hnone : s.thread = .none := by
      by_contra hne
      exact (hbegun.thread hne).2 a (by rw [hpc]; rfl)
    exact h.goto (by rw [hpc]; rfl) rfl (by rw [hnone]; rfl) rfl
  | storeSuspended c | readClock c | emplace c read wake | assign | endOnce | store =>
    rw [hpc] at hst
    cases hst
    exact h.goto (by rw [hpc]; rfl) rfl rfl rfl
  | notify | notifyAll =>
    rw [hpc] at hst
    cases hst
    exact h.goto (by rw [hpc]; rfl) rfl s.thread.holds_notified rfl

omit [DecidableEq A] in
theorem Locked.threadStep (h : Locked s) (hst : s.threadStep s.thread = some t) : Locked t := by
  have hquiet (hmutex : t.mutex = s.mutex) (hactor : t.actor = s.actor) (hthread : t.thread.holds = s.thread.holds) :
      Locked t :=
    h.quiet hmutex hthread fun b => by rw [hactor]
  cases hpc : s.thread with
  | none | exited =>
    rw [hpc] at hst
    cases hst
  | lock | relock =>
    rw [hpc] at hst
    obtain ⟨hfree, hst⟩ := Option.ite_none_right_eq_some.mp hst
    cases hst
    refine ⟨by simp [ThreadPc.holds], fun b => ?_⟩
    have hb : (s.actor b).holds = false := h.actor_of_ne (o := none) (.inl hfree) (by simp)
    simp [hb]
  | wait read duration | unlock =>
    rw [hpc] at hst
    cases hst
    have hmine : s.mutex = some none := h.thread.mpr (by rw [hpc]; rfl)
    refine ⟨by simp [ThreadPc.holds], fun b => ?_⟩
    have hb : (s.actor b).holds = false := h.actor_of_ne (.inr hmine) (by simp)
    simp [hb]
  | blocked read since wake =>
    rw [hpc] at hst
    obtain ⟨-, hst⟩ := Option.ite_none_right_eq_some.mp hst
    cases hst
    exact hquiet rfl rfl (by rw [hpc]; rfl)
  | scan now | rest now =>
    rw [hpc] at hst
    simp only [State.threadStep] at hst
    split at hst
    · cases hst
      exact hquiet rfl rfl (by rw [hpc]; rfl)
    · cases hst
      exact hquiet rfl rfl (by rw [hpc]; split_ifs <;> rfl)
  | test | look =>
    rw [hpc] at hst
    cases hst
    exact hquiet rfl rfl (by rw [hpc]; split_ifs <;> rfl)
  | readClock | storeReady now e | submit now e | erase now =>
    rw [hpc] at hst
    cases hst
    exact hquiet rfl rfl (by rw [hpc]; rfl)

theorem Locked.step (h : Locked s) (hbegun : Begun s) (hst : step s l = some t) : Locked t := by
  cases l with
  | tick n =>
    obtain ⟨-, hst⟩ := Option.ite_none_right_eq_some.mp hst
    cases hst
    exact h.quiet rfl rfl fun b => rfl
  | sleep a co duration =>
    obtain ⟨hidle, hst⟩ := Option.ite_none_right_eq_some.mp hst
    cases hst
    refine h.goto ?_ rfl rfl rfl
    cases co <;> rw [hidle] <;> rfl
  | shutdown a =>
    obtain ⟨hidle, hst⟩ := Option.ite_none_right_eq_some.mp hst
    cases hst
    exact h.goto (by rw [hidle]; rfl) rfl rfl rfl
  | actor a => exact h.actorStep hbegun hst
  | thread => exact h.threadStep hst
  | spurious =>
    simp only [SleepThread.step] at hst
    split at hst
    · next read since wake hpc =>
      cases hst
      exact h.quiet rfl (by rw [hpc]; rfl) fun b => rfl
    · cases hst

theorem reachable_locked (hs : Reachable (system A M) s) : Locked s := by
  refine hs.invariant_of (fun s => reachable_begun) (fun s h => ?_) fun s t l hbegun h _ hst => h.step hbegun hst
  cases h
  constructor <;> simp [State.start, Pc.holds, ThreadPc.holds]

end Steps

end Cothread.SleepThread
