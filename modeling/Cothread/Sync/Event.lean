import Cothread.Core.Basic
import Cothread.Lib.Run
import Mathlib.Logic.Function.Basic

/-!
# `Event`: `set` and the waiters

Any number of bthreads in `Event::wait` or `wait_for` and of coroutines in `wait_async`, and any number of calls of
`set`; nobody resets the event. The waiter queue is atomic. `wait` looks at the flag once, before it enqueues its task,
and `wait_async` twice, so a call of `set` between the last look and the enqueuing does not see the task
(`stranded_waiter`). While no task enqueues itself when the flag is set and no call of `set` is in progress, the queue
is empty whenever the event is set and no call of `set` is in progress (`set_strands_nobody`).
-/

namespace Cothread.Event

open Run

/-- Who waits: a bthread in `wait` or `wait_for`, or a coroutine in `wait_async`. -/
inductive Kind
  | bthread
  | coroutine
  deriving DecidableEq

/-- The next access of a waiter. -/
inductive WaitPc
  | load  -- `wait`, `wait_for`: `state_.load()`
  | resetFlag  -- `auto_reset_`: `state_.store(false)`
  | ready  -- `await_ready`: `is_set()`
  | recheck  -- `await_suspend`: `is_set()`
  | suspend (k : Kind)  -- `state.store(SUSPENDED)`
  | enqueue (k : Kind)  -- `enqueue_waiter`
  | swap  -- `SuspendCurrent()`
  | parked
  deriving DecidableEq

/-- The next access of a call of `set`. -/
inductive SetPc (T : Type*)
  | store  -- `state_.store(true)`
  | pop  -- `waiter_queue_.Pop()`
  | storeReady (t : T)  -- `state.store(READY)`
  | submit (t : T)  -- `Submit(waiter)`: `state.store(READY)`
  | push (t : T)  -- `Submit(waiter)`: the push
  deriving DecidableEq

structure State (T S : Type*) where
  flag : Bool  -- `state_`
  queue : List T
  taskState : T → TaskState
  ready : T → ℕ  -- how often the task is in a run queue
  wait : T → Option WaitPc
  setter : S → Option (SetPc T)

inductive Label (T S : Type*)
  | wait (t : T) (k : Kind)
  | waiter (t : T)
  | set (e : S)
  | setter (e : S)
  | run (t : T)
  deriving DecidableEq

/-- Nobody has called anything yet. -/
def State.start {T S : Type*} (flag : Bool) : State T S where
  flag := flag
  queue := []
  taskState _ := .running
  ready _ := 0
  wait _ := none
  setter _ := none

section Steps

variable {T S : Type*} [DecidableEq T] [DecidableEq S]

def State.goto (s : State T S) (t : T) (pc : Option WaitPc) : State T S :=
  { s with wait := Function.update s.wait t pc }

def State.setState (s : State T S) (t : T) (x : TaskState) : State T S :=
  { s with taskState := Function.update s.taskState t x }

/-- One access of a waiter; `none` while it is parked. -/
def State.waitStep (s : State T S) (autoReset : Bool) (t : T) : WaitPc → Option (State T S)
  | .load => some
      (s.goto t (if s.flag then (if autoReset then some .resetFlag else none) else some (.suspend .bthread)))
  | .resetFlag => some ({ s with flag := false }.goto t none)
  | .ready => some (s.goto t (if s.flag then none else some .recheck))
  | .recheck => some (s.goto t (if s.flag then none else some (.suspend .coroutine)))
  | .suspend k => some ((s.setState t .suspended).goto t (some (.enqueue k)))
  | .enqueue .bthread => some ({ s with queue := s.queue ++ [t] }.goto t (some .swap))
  | .enqueue .coroutine => some ({ s with queue := s.queue ++ [t] }.goto t (some .parked))
  | .swap => some (s.goto t (some .parked))
  | .parked => none

/-- One access of `set`. -/
def State.setStep (s : State T S) : SetPc T → State T S × Option (SetPc T)
  | .store => ({ s with flag := true }, some .pop)
  | .pop =>
    match s.queue with
    | [] => (s, none)
    | t :: q => ({ s with queue := q }, some (.storeReady t))
  | .storeReady t => (s.setState t .ready, some (.submit t))
  | .submit t => (s.setState t .ready, some (.push t))
  | .push t => ({ s with ready := Function.update s.ready t (s.ready t + 1) }, some .pop)

/-- A worker picks a parked task, and its call returns. -/
def State.run (s : State T S) (t : T) : State T S :=
  { (s.setState t .running).goto t none with ready := Function.update s.ready t (s.ready t - 1) }

/-- One step. -/
def step (autoReset : Bool) (s : State T S) : Label T S → Option (State T S)
  | .wait t k =>
    if s.wait t = none then some (s.goto t (some (match k with | .bthread => .load | .coroutine => .ready))) else none
  | .waiter t => (s.wait t).bind (s.waitStep autoReset t)
  | .set e => if s.setter e = none then some { s with setter := Function.update s.setter e (some .store) } else none
  | .setter e => (s.setter e).map fun pc =>
    { (s.setStep pc).1 with setter := Function.update s.setter e (s.setStep pc).2 }
  | .run t => if s.wait t = some .parked ∧ 0 < s.ready t then some (s.run t) else none

end Steps

/-- Any waiters and any calls of `set` on an event that starts set or not. -/
def system (T S : Type*) [DecidableEq T] [DecidableEq S] (autoReset : Bool) : System (State T S) (Label T S) where
  init s := ∃ flag, s = .start flag
  step := step autoReset

variable {T S : Type*}

/-- No call of `set` is in progress. -/
def State.NoSetter (s : State T S) : Prop := ∀ e, s.setter e = none

/-- A task enqueues itself although the event is set and no call of `set` is in progress. -/
def Late (s : State T S) : Label T S → Prop
  | .waiter t => (∃ k, s.wait t = some (.enqueue k)) ∧ s.flag = true ∧ s.NoSetter
  | _ => False

/-- When the event is set, a queued task has a call of `set` that is going to pop it. -/
def Covered (s : State T S) : Prop := s.flag = true → s.NoSetter → s.queue = []

section Strand

variable [DecidableEq T] [DecidableEq S] {s s' : State T S}

omit [DecidableEq S] in
/-- What a waiter's access does to the flag and the queue of a manual-reset event. -/
theorem waitStep_cases {t : T} {pc : WaitPc} (h : s.waitStep false t pc = some s') (hpc : pc ≠ .resetFlag) :
    s'.flag = s.flag ∧ s'.setter = s.setter ∧ (s'.queue = s.queue ∨ ∃ k, pc = .enqueue k) := by
  cases pc with
  | resetFlag => exact absurd rfl hpc
  | parked => cases h
  | enqueue k => cases k <;> cases h <;> exact ⟨rfl, rfl, Or.inr ⟨_, rfl⟩⟩
  | _ => cases h; exact ⟨rfl, rfl, Or.inl rfl⟩

/-- Waiters of a manual-reset event do not reset it. -/
def Manual (s : State T S) : Prop := ∀ t, s.wait t ≠ some .resetFlag

omit [DecidableEq S] in
theorem waitStep_manual {t : T} {pc : WaitPc} (h : s.waitStep false t pc = some s') (hm : Manual s) : Manual s' := by
  have hgoto : ∀ (r : State T S) (x : Option WaitPc), r.wait = s.wait → x ≠ some .resetFlag → Manual (r.goto t x) := by
    intro r x hr hx u
    by_cases hu : u = t
    · subst hu; simpa [State.goto] using hx
    · simpa [State.goto, hu, hr] using hm u
  cases pc with
  | load =>
    cases h
    exact hgoto _ _ rfl (by cases s.flag <;> simp)
  | ready | recheck =>
    cases h
    exact hgoto _ _ rfl (by split_ifs <;> simp)
  | enqueue k => cases k <;> cases h <;> exact hgoto _ _ rfl (by simp)
  | parked => cases h
  | _ => cases h; exact hgoto _ _ rfl (by simp)

omit [DecidableEq S] in
/-- What an access of `set` does. -/
theorem setStep_cases (s : State T S) (pc : SetPc T) :
    (s.setStep pc).1.wait = s.wait ∧ ((s.setStep pc).2 = none → (s.setStep pc).1.queue = []) := by
  cases pc with
  | pop =>
    simp only [State.setStep]
    split
    · next hq => exact ⟨rfl, fun _ => hq⟩
    · exact ⟨rfl, fun h => by cases h⟩
  | _ => exact ⟨rfl, fun h => by cases h⟩

/-- **What one step preserves.** -/
theorem covered_step {l : Label T S} (hm : Manual s) (h : Covered s) (hok : ¬Late s l)
    (hst : step false s l = some s') : Manual s' ∧ Covered s' := by
  cases l with
  | wait t k =>
    simp only [step] at hst
    split_ifs at hst with hw
    cases hst
    refine ⟨fun u => ?_, h⟩
    by_cases hu : u = t
    · subst hu; cases k <;> simp [State.goto]
    · simpa [State.goto, hu] using hm u
  | waiter t =>
    obtain ⟨pc, hpc, hst⟩ := Option.bind_eq_some_iff.mp hst
    refine ⟨waitStep_manual hst hm, fun hf hn => ?_⟩
    obtain ⟨hflag, hset, hq | ⟨k, hk⟩⟩ := waitStep_cases hst fun he => hm t (he ▸ hpc)
    · rw [hq]
      rw [hflag] at hf
      exact h hf fun e => hset ▸ hn e
    · subst hk
      exact absurd ⟨⟨k, hpc⟩, hflag ▸ hf, fun e => hset ▸ hn e⟩ hok
  | set e =>
    simp only [step] at hst
    split_ifs at hst with he
    cases hst
    refine ⟨hm, fun _ hn => ?_⟩
    have := hn e
    simp at this
  | setter e =>
    obtain ⟨pc, hpc, rfl⟩ := Option.map_eq_some_iff.mp hst
    obtain ⟨hwait, hend⟩ := setStep_cases s pc
    refine ⟨fun u => ?_, fun _ hn => hend ?_⟩
    · show (s.setStep pc).1.wait u ≠ _
      rw [hwait]
      exact hm u
    · have := hn e
      simpa using this
  | run t =>
    simp only [step] at hst
    split_ifs at hst with hw
    cases hst
    refine ⟨fun u => ?_, h⟩
    by_cases hu : u = t
    · subst hu; simp [State.run, State.goto]
    · simpa [State.run, State.goto, State.setState, hu] using hm u

/-- **A set event strands no waiter** in a run in which no task enqueues itself late: when no call of `set` is in
progress, no task is in the queue. -/
theorem set_strands_nobody (hs : Reach (system T S false) (fun s l => ¬Late s l) s) (hflag : s.flag = true)
    (hset : s.NoSetter) : s.queue = [] := by
  have hinv : Manual s ∧ Covered s := by
    refine hs.invariant (I := fun s => Manual s ∧ Covered s) ?_ fun s t l h hok hst => covered_step h.1 h.2 hok hst
    rintro s ⟨flag, rfl⟩
    exact ⟨fun t => by simp [State.start], fun _ _ => rfl⟩
  exact hinv.2 hflag hset

end Strand

/-- A bthread waits, the event is set, and the bthread is resumed. -/
theorem set_strands_nobody_resumed : ∃ s : State Unit Unit, s.flag = true ∧ s.wait () = none ∧
    s.taskState () = .running ∧
    s.queue = [] := by
  have himp : ∀ (s : State Unit Unit) (l : Label Unit Unit),
      (l = .waiter () → s.flag = false ∨ s.setter () ≠ none) → ¬Late s l := by
    intro s l h
    cases l with
    | waiter t =>
      rintro ⟨_, hflag, hno⟩
      rcases h rfl with h1 | h1
      · rw [hflag] at h1; cases h1
      · exact h1 (hno ())
    | _ => exact not_false
  exact ⟨_, rfl, rfl, rfl, set_strands_nobody (reach_exec himp (.init ⟨false, rfl⟩) (show exec _ _ [.wait () .bthread,
    .waiter (), .waiter (), .waiter (), .waiter (), .set (), .setter (), .setter (), .setter (), .setter (), .setter (),
    .setter (), .run ()] = some _ from rfl) (by decide)) rfl fun _ => rfl⟩

/-- **Stranded waiters**: a bthread and a coroutine have seen the event not set, `set` finds the queue empty, and then
both enqueue themselves. -/
theorem stranded_waiter : ∃ s : State Bool Unit, Reachable (system Bool Unit false) s ∧ s.flag = true ∧ s.NoSetter ∧
    (∀ t, s.wait t = some .parked) ∧ s.queue = [false, true] := by
  refine ⟨_, reachable_exec (.init ⟨false, rfl⟩) (show exec _ _ [.wait false .bthread, .wait true .coroutine,
    .waiter false, .waiter true, .waiter true, .set (), .setter (), .setter (), .waiter false, .waiter false,
    .waiter false, .waiter true, .waiter true] = some _ from rfl), rfl, fun _ => rfl, fun t => ?_, rfl⟩
  cases t <;> rfl

end Cothread.Event
