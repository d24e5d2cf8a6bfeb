import Cothread.Core.Worker
import Cothread.Lib.Once

/-!
# `Worker`: where a task can be found

- `State.claims s t`: the places from which the task `t` is going to be executed. It can be in a run queue, picked, or
  new (a *token*), or its current wait can be in the hand of whoever is going to make it ready: the wait queue of a
  `CondVar` or an `Event`, a waker that has popped it there, a call of `Wake` or a timeout callback that has found the
  task `SUSPENDED`. Earlier waits of the task do not count.
- `State.entries s t`: where the current wait of `t` is known to `Butex`, in a wait queue or in a batch of `Wake`.
- `Known`, `Books`: no wait is known before it begins.
-/

namespace Cothread.Worker

open Run Places
open Butex (Call WaitPc WakePc TimerPc Loop)

variable {W E T B C : Type*}

/-! ## What the parties hold -/

/-- The task that the worker has taken from a queue and not switched to yet. -/
def WorkerPc.picked : WorkerPc T B C → Option T
  | .setCurrent t | .setRunning t | .swapIn t => some t
  | _ => none

/-- The task that the worker executes, from `current_task_ = task` until its context is saved. -/
def WorkerPc.executing : WorkerPc T B C → Option T
  | .setRunning t | .swapIn t | .exec t _ => some t
  | _ => none

/-- The code of a waker that the worker runs. -/
def WorkerPc.waker : WorkerPc T B C → Option (WakerPc T B C)
  | .exec _ (.wake pc) | .finishing pc => some pc
  | _ => none

/-- The new task that the waker is going to push. -/
def WakerPc.new : WakerPc T B C → Option T
  | .submitNew t | .pushNew t => some t
  | _ => none

/-- The wait that the waker has taken from a `CondVar` or an `Event`. -/
def WakerPc.popped : WakerPc T B C → Option (T × ℕ)
  | .storeReady _ _ x | .submit _ _ x | .push _ _ x => some x
  | _ => none

/-- The wait whose task `Wake` has found `SUSPENDED`. -/
def WakerPc.found : WakerPc T B C → Option (T × ℕ)
  | .butex _ (.storeReady _ x _) | .butex _ (.submit _ x _) | .butex _ (.push _ x _) => some x
  | _ => none

/-- The wait whose task has been made `READY`. -/
def WakerPc.stored : WakerPc T B C → Option (T × ℕ)
  | .butex _ (.submit _ x _) | .butex _ (.push _ x _) | .submit _ _ x | .push _ _ x => some x
  | _ => none

/-- What `Wake` has popped and not finished. -/
def WakerPc.batch : WakerPc T B C → List (T × ℕ)
  | .butex _ (.pop _ batch) => batch
  | .butex _ (.clearWaiting _ x rest) | .butex _ (.bump _ x rest) | .butex _ (.cancel _ x rest)
  | .butex _ (.loadState _ x rest) | .butex _ (.storeReady _ x rest) | .butex _ (.submit _ x rest)
  | .butex _ (.push _ x rest) => x :: rest
  | _ => []

/-- The wait whose task's state `Wake` is loading. -/
def WakerPc.finding : WakerPc T B C → Option (T × ℕ)
  | .butex _ (.loadState _ x _) => some x
  | _ => none

/-- The wait whose task the waker is pushing. -/
def WakerPc.pushing : WakerPc T B C → Option (T × ℕ)
  | .butex _ (.push _ x _) | .push _ _ x => some x
  | _ => none

/-- The callback has found the task `SUSPENDED` and has not pushed it yet. -/
def TimerFound : TimerPc → Bool
  | .remove | .setClaimed | .storeReady | .submit | .push => true
  | _ => false

/-- The callback has made the task `READY` and has not pushed it yet. -/
def TimerStored : TimerPc → Bool
  | .submit | .push => true
  | _ => false

/-! ## How far a task's code is -/

/-- The timer of the current wait is set between stages 0 and 1, the wait is queued between 1 and 2, and the task is
suspended between 2 and 3. -/
def TaskPc.stage : TaskPc T B C → ℕ
  | .wait _ _ .load | .wait _ _ .setWaiting | .wait _ _ .prepare | .wait _ _ .recheck | .wait _ _ .schedule => 0
  | .loadFlag _ _ | .park _ | .publish _ => 0
  | .wait _ _ .enqueue => 1
  | .wait _ _ .recheckQueued | .wait _ _ .sample | .wait _ _ (.suspend _) => 2
  | _ => 3

/-- The task's state may be `SUSPENDED`. -/
def TaskPc.Asleep : TaskPc T B C → Prop
  | .wait _ _ (.resample _) | .wait _ _ .takeBack | .publish _ | .swap _ => True
  | _ => False

/-- Where a task goes on after `SuspendCurrent`. -/
def TaskPc.Saved : TaskPc T B C → Prop
  | .user | .wait _ _ .resumed | .exit => True
  | _ => False

theorem TaskPc.Saved.stage {c : TaskPc T B C} (h : c.Saved) : c.stage = 3 := by
  cases c with
  | user | exit => rfl
  | wait b call pc => cases pc <;> first | rfl | cases h
  | _ => cases h

/-! ## The places of a task -/

/-- A place from which a task is going to be executed. -/
inductive Loc (W E C : Type*)
  | place (p : Place W)
  | picked (w : W)
  | new (a : W ⊕ E)
  | parked (c : C)
  | popped (a : W ⊕ E)
  | found (a : W ⊕ E)
  | timer

/-- The task is out of its wait. -/
def Loc.Token : Loc W E C → Prop
  | .place _ | .picked _ | .new _ => True
  | _ => False

/-- The wait is one of a `CondVar` or an `Event`. -/
def Loc.Sync : Loc W E C → Prop
  | .parked _ | .popped _ => True
  | _ => False

/-- A place where `Butex` knows a wait. -/
inductive Slot (W E B : Type*)
  | queue (b : B)
  | batch (a : W ⊕ E)

section Places

variable [DecidableEq T]

/-- How often the task is in each place; `pk` is what the workers have picked, `wk` is where the wakers are. -/
def Mem.claims (m : Mem W T B C) (pk : W → Option T) (wk : W ⊕ E → Option (WakerPc T B C)) (t : T) : Loc W E C → ℕ
  | .place p => (m.ready p).count t
  | .picked w => if pk w = some t then 1 else 0
  | .new a => if (wk a).bind WakerPc.new = some t then 1 else 0
  | .parked c => (m.waiters c).count (t, m.epoch t)
  | .popped a => if (wk a).bind WakerPc.popped = some (t, m.epoch t) then 1 else 0
  | .found a => if (wk a).bind WakerPc.found = some (t, m.epoch t) then 1 else 0
  | .timer => if (m.timer t (m.epoch t)).any TimerFound then 1 else 0

/-- How often the current wait of the task is in each slot. -/
def Mem.entries (m : Mem W T B C) (wk : W ⊕ E → Option (WakerPc T B C)) (t : T) : Slot W E B → ℕ
  | .queue b => (m.queue b).count (t, m.epoch t)
  | .batch a => ((wk a).elim [] WakerPc.batch).count (t, m.epoch t)

variable (s : State W E T B C)

def State.picked (w : W) : Option T := (s.worker w).picked

/-- Where the wakers are, on workers and on other threads. -/
def State.waker : W ⊕ E → Option (WakerPc T B C)
  | .inl w => (s.worker w).waker
  | .inr e => s.thread e

def State.claims (t : T) : Loc W E C → ℕ := s.mem.claims s.picked s.waker t

def State.entries (t : T) : Slot W E B → ℕ := s.mem.entries s.waker t

/-- Some worker executes the task. -/
def State.Executing (t : T) : Prop := ∃ w, (s.worker w).executing = some t

/-- The waker holds the wait. -/
def WakerPc.Knows (pc : WakerPc T B C) (x : T × ℕ) : Prop := x ∈ pc.batch ∨ pc.popped = some x

/-- The wait is in a wait queue, or has a timer. -/
def Mem.Knows (m : Mem W T B C) (x : T × ℕ) : Prop :=
  (∃ b, x ∈ m.queue b) ∨ (∃ c, x ∈ m.waiters c) ∨ m.timer x.1 x.2 ≠ none

/-- The wait is known to somebody. -/
def Known (x : T × ℕ) : Prop := s.mem.Knows x ∨ ∃ a pc, s.waker a = some pc ∧ pc.Knows x

end Places

/-! ## One worker or one thread goes on -/

section Goto

variable [DecidableEq W] {s : State W E T B C} {m : Mem W T B C} {w v : W} {pc : WorkerPc T B C}

@[simp] theorem goto_mem : (s.goto m w pc).mem = m := rfl

theorem goto_worker : (s.goto m w pc).worker v = if v = w then pc else s.worker v := by
  simp [State.goto, Function.update_apply]

theorem goto_picked : (s.goto m w pc).picked = Function.update s.picked w pc.picked := by
  funext v
  by_cases h : v = w
  · subst h; simp [State.picked, goto_worker]
  · simp [State.picked, goto_worker, h]

variable [DecidableEq E] {e : E}

theorem goto_waker : (s.goto m w pc).waker = Function.update s.waker (.inl w) pc.waker := by
  funext a
  cases a with
  | inl v =>
    by_cases h : v = w
    · subst h; simp [State.waker, goto_worker]
    · simp [State.waker, goto_worker, h]
  | inr e => simp [State.waker, State.goto]

omit [DecidableEq E] in
/-- The worker still has picked what it had. -/
theorem goto_picked_eq (h : pc.picked = (s.worker w).picked) : (s.goto m w pc).picked = s.picked := by
  rw [goto_picked, h]
  exact Function.update_eq_self w s.picked

/-- The worker runs the same waker. -/
theorem goto_waker_eq (h : pc.waker = (s.worker w).waker) : (s.goto m w pc).waker = s.waker := by
  rw [goto_waker, h]
  exact Function.update_eq_self (Sum.inl w) s.waker

theorem thread_waker {r : Option (WakerPc T B C)} :
    ({ s with mem := m, thread := Function.update s.thread e r } : State W E T B C).waker =
      Function.update s.waker (.inr e) r := by
  funext a
  cases a with
  | inl w => simp [State.waker]
  | inr d =>
    by_cases h : d = e
    · subst h; simp [State.waker]
    · simp [State.waker, h]

end Goto

/-! ## What one access does -/

section Access

variable [DecidableEq W] [DecidableEq T] [DecidableEq B] [DecidableEq C]
variable {m m' : Mem W T B C} {p : Place W} {w : W} {t : T} {n : ℕ} {c : TaskPc T B C} {r : Mem W T B C × TaskPc T B C}

/-- The tasks are the same, and their waits have the same numbers. -/
structure Mem.SameTasks (m m' : Mem W T B C) : Prop where
  epoch : m'.epoch = m.epoch
  born : m'.born = m.born
  context : m'.context = m.context

omit [DecidableEq W] [DecidableEq C] in
theorem addWaiter_same (t : T) (b : B) (prepend : Bool) : m.SameTasks (m.addWaiter t b prepend) := by
  unfold Mem.addWaiter
  split_ifs <;> exact ⟨rfl, rfl, rfl⟩

omit [DecidableEq C] in
theorem butexStep_same (b : B) (pc : WakePc (T × ℕ)) : m.SameTasks (m.butexStep p b pc).1 := by
  cases pc with
  | pop l batch =>
    simp only [Mem.butexStep]
    split <;> exact ⟨rfl, rfl, rfl⟩
  | cancel l x rest =>
    simp only [Mem.butexStep]
    split_ifs <;> exact ⟨rfl, rfl, rfl⟩
  | _ => exact ⟨rfl, rfl, rfl⟩

theorem wakerStep_same (pc : WakerPc T B C) : m.SameTasks (m.wakerStep p pc).1 := by
  cases pc with
  | butex b pc => exact butexStep_same b pc
  | popWaiter c all =>
    simp only [Mem.wakerStep]
    split <;> exact ⟨rfl, rfl, rfl⟩
  | _ => exact ⟨rfl, rfl, rfl⟩

omit [DecidableEq C] in
theorem waitStep_same (t : T) (b : B) (call : Call) (pc : WaitPc) : m.SameTasks (m.waitStep p t b call pc).1 := by
  cases pc with
  | setWaiting | suspend | takeBack =>
    simp only [Mem.waitStep]
    split_ifs <;> exact ⟨rfl, rfl, rfl⟩
  | enqueue =>
    have h := addWaiter_same (m := m.setButex t true) t b call.prepend
    exact ⟨h.epoch, h.born, h.context⟩
  | _ => exact ⟨rfl, rfl, rfl⟩

omit [DecidableEq T] [DecidableEq B] [DecidableEq C] in
theorem flush_same : m.SameTasks (m.flush w) := by
  unfold Mem.flush
  split_ifs <;> exact ⟨rfl, rfl, rfl⟩

theorem taskStep_same (h : m.taskStep w t c = some r) : m.SameTasks r.1 := by
  cases c with
  | user | swap => cases h
  | wait b call pc => cases h; exact waitStep_same t b call pc
  | yieldFlush => cases h; exact flush_same
  | wake pc => cases h; exact wakerStep_same pc
  | _ => cases h; exact ⟨rfl, rfl, rfl⟩

omit [DecidableEq B] [DecidableEq C] in
theorem timerStep_same {pc : TimerPc} (h : m.timerStep t n pc = some m') : m.SameTasks m' := by
  cases pc with
  | claim | remove =>
    simp only [Mem.timerStep] at h
    split_ifs at h <;> cases h <;> exact ⟨rfl, rfl, rfl⟩
  | _ => cases h <;> exact ⟨rfl, rfl, rfl⟩

/-- What a waker's access changes in the run queues, in the wait queues of `CondVar` and `Event`, and in its hand. -/
inductive Woke (m : Mem W T B C) (p : Place W) (pc : WakerPc T B C) (m' : Mem W T B C) (r : Option (WakerPc T B C)) :
    Prop
  | idle (ready : m'.ready = m.ready) (waiters : m'.waiters = m.waiters)
      (new : ∀ t, r.bind WakerPc.new = some t → pc.new = some t)
      (popped : ∀ x, r.bind WakerPc.popped = some x → pc.popped = some x)
      (found : ∀ x, r.bind WakerPc.found = some x → pc.found = some x)
  | pop (c : C) (x : T × ℕ) (q : List (T × ℕ)) (ready : m'.ready = m.ready) (queue : m.waiters c = x :: q)
      (waiters : m'.waiters = Function.update m.waiters c q) (new : r.bind WakerPc.new = none)
      (popped : r.bind WakerPc.popped = some x) (found : r.bind WakerPc.found = none)
  | find (x : T × ℕ) (ready : m'.ready = m.ready) (waiters : m'.waiters = m.waiters) (finding : pc.finding = some x)
      (suspended : m.taskState x.1 = .suspended) (new : r.bind WakerPc.new = none)
      (popped : r.bind WakerPc.popped = none) (found : r.bind WakerPc.found = some x)
  | push (t : T) (ready : m'.ready = Function.update m.ready p (m.ready p ++ [t])) (waiters : m'.waiters = m.waiters)
      (pushed : pc.new = some t ∨ ∃ n, pc.pushing = some (t, n)) (new : r.bind WakerPc.new = none)
      (popped : r.bind WakerPc.popped = none) (found : r.bind WakerPc.found = none)

omit [DecidableEq W] [DecidableEq T] [DecidableEq B] [DecidableEq C] in
/-- After a waiter, or a batch, the waker has nothing in its hand. -/
theorem next_hand {r : Option (WakePc (T × ℕ))} {b : B} (h : (∃ l batch, r = Butex.afterBatch l batch) ∨
    (∃ l rest, r = Butex.afterWaiter l rest) ∨ ∃ l batch, r = some (.pop l batch)) :
    (r.map (WakerPc.butex (C := C) b)).bind WakerPc.new = none ∧
      (r.map (WakerPc.butex (C := C) b)).bind WakerPc.popped = none ∧
      (r.map (WakerPc.butex (C := C) b)).bind WakerPc.found = none := by
  obtain ⟨l, batch, rfl⟩ | ⟨l, rest, rfl⟩ | ⟨l, batch, rfl⟩ := h
  · cases batch <;> exact ⟨rfl, rfl, rfl⟩
  · cases rest with
    | nil =>
      simp only [Butex.afterWaiter, Butex.nextBatch]
      split_ifs <;> exact ⟨rfl, rfl, rfl⟩
    | cons x rest => exact ⟨rfl, rfl, rfl⟩
  · exact ⟨rfl, rfl, rfl⟩

theorem woke_butex (m : Mem W T B C) (p : Place W) (b : B) (pc : WakePc (T × ℕ)) :
    Woke m p (.butex b pc) (m.butexStep p b pc).1 ((m.butexStep p b pc).2.map (.butex b)) := by
  have hnone : ∀ {r : Option (WakePc (T × ℕ))} {m' : Mem W T B C} {pc : WakerPc T B C}, m'.ready = m.ready →
      m'.waiters = m.waiters → ((∃ l batch, r = Butex.afterBatch l batch) ∨
        (∃ l rest, r = Butex.afterWaiter l rest) ∨ ∃ l batch, r = some (.pop l batch)) →
      Woke m p pc m' (r.map (.butex b)) := by
    intro r m' pc hr hw h
    obtain ⟨h1, h2, h3⟩ := next_hand (C := C) (b := b) h
    exact .idle hr hw (by simp [h1]) (by simp [h2]) (by simp [h3])
  cases pc with
  | setValue v count | clearWaiting l y rest | bump l y rest =>
    exact .idle rfl rfl (fun _ h => by cases h) (fun _ h => by cases h) (fun _ h => by cases h)
  | storeReady l y rest | submit l y rest =>
    exact .idle rfl rfl (fun _ h => by cases h) (fun _ h => by cases h) (fun _ h => h)
  | futexWake count =>
    refine .idle rfl rfl ?_ ?_ ?_ <;>
    · simp only [Mem.butexStep, Butex.nextBatch]
      split_ifs <;> intro _ h <;> cases h
  | cancel l y rest =>
    have hm : (m.butexStep p b (.cancel l y rest)).1.ready = m.ready ∧
        (m.butexStep p b (.cancel l y rest)).1.waiters = m.waiters := by
      simp only [Mem.butexStep]
      split_ifs <;> exact ⟨rfl, rfl⟩
    exact .idle hm.1 hm.2 (fun _ h => by cases h) (fun _ h => by cases h) (fun _ h => by cases h)
  | pop l batch =>
    simp only [Mem.butexStep]
    split
    · exact hnone rfl rfl (.inl ⟨_, _, rfl⟩)
    · split_ifs
      · exact hnone rfl rfl (.inr (.inr ⟨_, _, rfl⟩))
      · exact hnone rfl rfl (.inl ⟨_, _, rfl⟩)
  | loadState l y rest =>
    simp only [Mem.butexStep]
    split_ifs with hs
    · exact .find y rfl rfl rfl hs rfl rfl rfl
    · exact hnone rfl rfl (.inr (.inl ⟨_, _, rfl⟩))
  | push l y rest =>
    obtain ⟨h1, h2, h3⟩ := next_hand (T := T) (C := C) (b := b) (.inr (.inl ⟨l, rest, rfl⟩))
    exact .push y.1 rfl rfl (.inr ⟨y.2, rfl⟩) h1 h2 h3

theorem woke (m : Mem W T B C) (p : Place W) (pc : WakerPc T B C) :
    Woke m p pc (m.wakerStep p pc).1 (m.wakerStep p pc).2 := by
  cases pc with
  | butex b pc => exact woke_butex m p b pc
  | setFlag c => exact .idle rfl rfl (fun _ h => by cases h) (fun _ h => by cases h) (fun _ h => by cases h)
  | popWaiter c all =>
    simp only [Mem.wakerStep]
    split
    · exact .idle rfl rfl (fun _ h => by cases h) (fun _ h => by cases h) (fun _ h => by cases h)
    · next x q hq => exact .pop c x q rfl hq rfl rfl rfl rfl
  | storeReady c all x | submit c all x =>
    exact .idle rfl rfl (fun _ h => by cases h) (fun _ h => h) (fun _ h => by cases h)
  | push c all x =>
    refine .push x.1 rfl rfl (.inr ⟨x.2, rfl⟩) ?_ ?_ ?_ <;> simp only [Mem.wakerStep, afterNotify] <;> split_ifs <;> rfl
  | submitNew t => exact .idle rfl rfl (fun _ h => h) (fun _ h => by cases h) (fun _ h => by cases h)
  | pushNew t => exact .push t rfl rfl (.inl rfl) rfl rfl rfl

/-- A waker only cancels timers that are armed. -/
theorem wakerStep_timer (m : Mem W T B C) (p : Place W) (pc : WakerPc T B C) (t : T) (n : ℕ) :
    (m.wakerStep p pc).1.timer t n = m.timer t n ∨
      m.timer t n = some .armed ∧ (m.wakerStep p pc).1.timer t n = some .over := by
  cases pc with
  | butex b pc =>
    cases pc with
    | pop l batch =>
      simp only [Mem.wakerStep, Mem.butexStep]
      split <;> exact Or.inl rfl
    | cancel l x rest =>
      simp only [Mem.wakerStep, Mem.butexStep]
      split_ifs with h
      · by_cases ht : t = x.1
        · subst ht
          by_cases hn : n = m.lastTimer x.1
          · subst hn; exact Or.inr ⟨h.2, by simp [Mem.setTimer]⟩
          · exact Or.inl (by simp [Mem.setTimer, hn])
        · exact Or.inl (by simp [Mem.setTimer, ht])
      · exact Or.inl rfl
    | _ => exact Or.inl rfl
  | popWaiter c all =>
    simp only [Mem.wakerStep]
    split <;> exact Or.inl rfl
  | _ => exact Or.inl rfl

/-- The task puts itself into a run queue and goes on. -/
def TaskPc.SelfPush : TaskPc T B C → Prop
  | .wait _ _ .push | .yieldBatch => True
  | _ => False

/-- What an access of a task's code changes in the queues and the timers. -/
inductive Coded (m : Mem W T B C) (w : W) (t : T) (c : TaskPc T B C) (m' : Mem W T B C) (c' : TaskPc T B C) : Prop
  | idle (ready : m'.ready = m.ready) (waiters : m'.waiters = m.waiters) (queue : m'.queue = m.queue)
      (timer : m'.timer = m.timer)
  | arm (ready : m'.ready = m.ready) (waiters : m'.waiters = m.waiters) (queue : m'.queue = m.queue)
      (timer : m'.timer = (m.setTimer t (m.epoch t) .armed).timer) (before : c.stage = 0) (after : c'.stage = 1)
  | enqueue (b : B) (q : List (T × ℕ)) (ready : m'.ready = m.ready) (waiters : m'.waiters = m.waiters)
      (queue : m'.queue = Function.update m.queue b q)
      (count : ∀ x, q.count x = (m.queue b).count x + [(t, m.epoch t)].count x) (timer : m'.timer = m.timer)
      (before : c.stage = 1) (after : c'.stage = 2)
  | publish (d : C) (ready : m'.ready = m.ready)
      (waiters : m'.waiters = Function.update m.waiters d (m.waiters d ++ [(t, m.epoch t)]))
        (queue : m'.queue = m.queue)
      (timer : m'.timer = m.timer) (before : c.stage = 0) (after : c'.stage = 3)
  | push (p : Place W) (ready : m'.ready = Function.update m.ready p (m.ready p ++ [t]))
      (waiters : m'.waiters = m.waiters)
      (queue : m'.queue = m.queue) (timer : m'.timer = m.timer) (self : c.SelfPush)
  | flush (ready : m'.ready = (m.flush w).ready) (waiters : m'.waiters = m.waiters) (queue : m'.queue = m.queue)
      (timer : m'.timer = m.timer)

theorem coded {c' : TaskPc T B C} (h : m.taskStep w t c = some (m', c')) (hw : ∀ k, c ≠ .wake k) :
    Coded m w t c m' c' := by
  cases c with
  | user | swap => cases h
  | wake k => exact absurd rfl (hw k)
  | yieldBatch => cases h; exact .push (.batch w) rfl rfl rfl rfl trivial
  | publish d => cases h; exact .publish d rfl rfl rfl rfl rfl rfl
  | yieldFlush =>
    cases h
    refine .flush rfl ?_ ?_ ?_ <;> simp only [Mem.flush] <;> split_ifs <;> rfl
  | wait b call pc =>
    cases pc with
    | push => cases h; exact .push (.localQueue w) rfl rfl rfl rfl trivial
    | schedule => cases h; exact .arm rfl rfl rfl rfl rfl rfl
    | enqueue =>
      cases h
      simp only [Mem.addWaiter]
      split_ifs with h1 h2
      · exact .idle rfl rfl rfl rfl
      · refine .enqueue b _ rfl rfl rfl (fun x => ?_) rfl rfl rfl
        simp [Mem.setButex, List.count_cons]
      · refine .enqueue b _ rfl rfl rfl (fun x => ?_) rfl rfl rfl
        simp [Mem.setButex]
    | setWaiting | suspend | takeBack =>
      simp only [Mem.taskStep, Mem.waitStep, Option.some.injEq] at h
      split_ifs at h <;> cases h <;> exact .idle rfl rfl rfl rfl
    | _ => cases h; exact .idle rfl rfl rfl rfl
  | _ => cases h; exact .idle rfl rfl rfl rfl

/-- The code of a task goes forward. -/
theorem taskStep_stage {c' : TaskPc T B C} (h : m.taskStep w t c = some (m', c')) : c.stage ≤ c'.stage := by
  cases c with
  | user | swap => cases h
  | wait b call pc =>
    cases pc with
    | load | recheck | recheckQueued | resample =>
      cases h
      split_ifs <;> simp [TaskPc.stage]
    | setWaiting | suspend | takeBack =>
      simp only [Mem.taskStep, Mem.waitStep, Option.some.injEq] at h
      split_ifs at h <;> cases h <;> simp [TaskPc.stage]
    | _ => cases h; simp [TaskPc.stage]
  | loadFlag d autoReset => exact Nat.zero_le _
  | park d | publish d => exact Nat.zero_le _
  | yield =>
    cases h
    split_ifs <;> exact le_refl _
  | wake k =>
    cases h
    cases (m.wakerStep (.localQueue w) k).2 <;> exact le_refl _
  | _ => cases h; exact le_refl _

/-- A task's code makes only itself `SUSPENDED`, and only before stage 3. -/
theorem taskStep_state {c' : TaskPc T B C} (h : m.taskStep w t c = some (m', c')) (hw : ∀ k, c ≠ .wake k) :
    (∀ u, m'.taskState u = .suspended → m.taskState u = .suspended ∨ u = t ∧ c.stage ≤ 2) ∧
      (m'.taskState t = .suspended → ¬c'.Asleep → m.taskState t = .suspended ∧ ¬c.Asleep) := by
  have hset : ∀ x : TaskState, ∀ u, (m.setState t x).taskState u = if u = t then x else m.taskState u := fun x u => by
    simp [Mem.setState, Function.update_apply]
  have hready : ∀ x : TaskState, x ≠ .suspended → ∀ u, (m.setState t x).taskState u = .suspended →
      m.taskState u = .suspended := by
    intro x hx u hu
    rw [hset] at hu
    split_ifs at hu with h1
    · exact absurd hu hx
    · exact hu
  have hnot : ∀ x : TaskState, x ≠ .suspended → (m.setState t x).taskState t ≠ .suspended := fun x hx hu => by
    rw [hset, if_pos rfl] at hu
    exact hx hu
  cases c with
  | user | swap => cases h
  | wake k => exact absurd rfl (hw k)
  | yieldReady | exit =>
    cases h
    exact ⟨fun u hu => Or.inl (hready _ (by decide) u hu), fun hu => absurd hu (hnot _ (by decide))⟩
  | park d =>
    cases h
    refine ⟨fun u hu => ?_, fun _ hc => absurd trivial hc⟩
    by_cases hut : u = t
    · exact Or.inr ⟨hut, Nat.zero_le _⟩
    · rw [hset, if_neg hut] at hu
      exact Or.inl hu
  | publish d => cases h; exact ⟨fun u hu => Or.inl hu, fun _ hc => absurd trivial hc⟩
  | yieldFlush =>
    cases h
    refine ⟨fun u hu => Or.inl ?_, fun _ hc => absurd trivial hc⟩
    simp only [Mem.flush] at hu
    split_ifs at hu <;> exact hu
  | wait b call pc =>
    cases pc with
    | submit =>
      cases h
      exact ⟨fun u hu => Or.inl (hready _ (by decide) u hu), fun hu => absurd hu (hnot _ (by decide))⟩
    | suspend saved =>
      simp only [Mem.taskStep, Mem.waitStep, Option.some.injEq] at h
      split_ifs at h with hr
      · cases h
        refine ⟨fun u hu => ?_, fun _ hc => absurd trivial hc⟩
        by_cases hut : u = t
        · exact Or.inr ⟨hut, le_refl _⟩
        · rw [hset, if_neg hut] at hu
          exact Or.inl hu
      · cases h
        exact ⟨fun u hu => Or.inl hu, fun hu _ => ⟨hu, id⟩⟩
    | takeBack =>
      simp only [Mem.taskStep, Mem.waitStep, Option.some.injEq] at h
      split_ifs at h with hr
      · cases h
        exact ⟨fun u hu => Or.inl (hready _ (by decide) u hu), fun hu => absurd hu (hnot _ (by decide))⟩
      · cases h
        exact ⟨fun u hu => Or.inl hu, fun hu => absurd hu hr⟩
    | setWaiting =>
      simp only [Mem.taskStep, Mem.waitStep, Option.some.injEq] at h
      split_ifs at h <;> cases h <;> exact ⟨fun u hu => Or.inl hu, fun hu _ => ⟨hu, id⟩⟩
    | enqueue =>
      cases h
      have hst : ((m.setButex t true).addWaiter t b call.prepend).taskState = m.taskState := by
        simp only [Mem.addWaiter]
        split_ifs <;> rfl
      exact ⟨fun u hu => Or.inl (hst ▸ hu), fun hu _ => ⟨hst ▸ hu, id⟩⟩
    | resample saved =>
      cases h
      refine ⟨fun u hu => Or.inl hu, fun _ hc => absurd ?_ hc⟩
      split_ifs <;> trivial
    | _ => cases h; exact ⟨fun u hu => Or.inl hu, fun hu _ => ⟨hu, id⟩⟩
  | _ => cases h; exact ⟨fun u hu => Or.inl hu, fun hu _ => ⟨hu, id⟩⟩

/-- A waker makes tasks `READY` and nothing `SUSPENDED`. -/
theorem wakerStep_state (m : Mem W T B C) (p : Place W) (pc : WakerPc T B C) :
    (∀ u, (m.wakerStep p pc).1.taskState u = .suspended → m.taskState u = .suspended) ∧
      ∀ x, (m.wakerStep p pc).2.bind WakerPc.stored = some x → pc.stored = some x ∨
        (m.wakerStep p pc).1.taskState x.1 ≠ .suspended := by
  have hset : ∀ t : T, (∀ u, (m.setState t .ready).taskState u = .suspended → m.taskState u = .suspended) ∧
      (m.setState t .ready).taskState t ≠ .suspended := by
    intro t
    refine ⟨fun u hu => ?_, by simp [Mem.setState]⟩
    by_cases hut : u = t
    · simp [Mem.setState, hut] at hu
    · simpa [Mem.setState, hut] using hu
  have hnext : ∀ {b : B} {r : Option (WakePc (T × ℕ))} {x}, ((∃ l batch, r = Butex.afterBatch l batch) ∨
      (∃ l rest, r = Butex.afterWaiter l rest) ∨ ∃ l batch, r = some (.pop l batch)) →
      (r.map (WakerPc.butex (C := C) b)).bind WakerPc.stored ≠ some x := by
    rintro b r x (⟨l, batch, rfl⟩ | ⟨l, rest, rfl⟩ | ⟨l, batch, rfl⟩) h
    · cases batch <;> cases h
    · cases rest with
      | nil =>
        simp only [Butex.afterWaiter, Butex.nextBatch] at h
        split_ifs at h <;> cases h
      | cons y rest => cases h
    · cases h
  cases pc with
  | butex b pc =>
    cases pc with
    | setValue v count | clearWaiting l y rest | bump l y rest => exact ⟨fun u hu => hu, fun x h => by cases h⟩
    | futexWake count =>
      refine ⟨fun u hu => hu, fun x h => ?_⟩
      simp only [Mem.wakerStep, Mem.butexStep, Butex.nextBatch] at h
      split_ifs at h <;> cases h
    | cancel l y rest =>
      refine ⟨fun u hu => ?_, fun x h => by cases h⟩
      simp only [Mem.wakerStep, Mem.butexStep] at hu
      split_ifs at hu <;> exact hu
    | pop l batch =>
      refine ⟨fun u hu => ?_, fun x h => ?_⟩
      · simp only [Mem.wakerStep, Mem.butexStep] at hu
        split at hu <;> exact hu
      · simp only [Mem.wakerStep, Mem.butexStep] at h
        split at h
        · exact absurd h (hnext (.inl ⟨_, _, rfl⟩))
        · split_ifs at h
          · cases h
          · exact absurd h (hnext (.inl ⟨_, _, rfl⟩))
    | loadState l y rest =>
      refine ⟨fun u hu => hu, fun x h => ?_⟩
      simp only [Mem.wakerStep, Mem.butexStep] at h
      split_ifs at h
      · cases h
      · exact absurd h (hnext (.inr (.inl ⟨_, _, rfl⟩)))
    | storeReady l y rest =>
      refine ⟨(hset y.1).1, fun x h => ?_⟩
      cases h
      exact Or.inr (hset _).2
    | submit l y rest => exact ⟨(hset y.1).1, fun x h => Or.inl h⟩
    | push l y rest => exact ⟨fun u hu => hu, fun x h => absurd h (hnext (.inr (.inl ⟨_, _, rfl⟩)))⟩
  | popWaiter c all =>
    simp only [Mem.wakerStep]
    split <;> exact ⟨fun u hu => hu, fun x h => by cases h⟩
  | storeReady c all y =>
    refine ⟨(hset y.1).1, fun x h => ?_⟩
    cases h
    exact Or.inr (hset _).2
  | submit c all y => exact ⟨(hset y.1).1, fun x h => Or.inl h⟩
  | push c all y =>
    refine ⟨fun u hu => hu, fun x h => ?_⟩
    simp only [Mem.wakerStep, afterNotify] at h
    split_ifs at h <;> cases h
  | submitNew t => exact ⟨(hset t).1, fun x h => by cases h⟩
  | setFlag c | pushNew t => exact ⟨fun u hu => hu, fun x h => by cases h⟩

/-- What an access of a timeout callback changes. -/
inductive Ticked (m : Mem W T B C) (t : T) (n : ℕ) (pc : TimerPc) (m' : Mem W T B C) : Prop
  | idle (pc' : TimerPc) (timer : m'.timer = (m.setTimer t n pc').timer) (ready : m'.ready = m.ready)
      (waiters : m'.waiters = m.waiters) (queue : m'.queue = m.queue) (found : TimerFound pc' = TimerFound pc)
      (stored : TimerStored pc' = true → m'.taskState t = .suspended → TimerStored pc = true)
      (state : ∀ u, m'.taskState u = .suspended → m.taskState u = .suspended)
  | find (timer : m'.timer = (m.setTimer t n .remove).timer) (ready : m'.ready = m.ready)
      (waiters : m'.waiters = m.waiters) (queue : m'.queue = m.queue) (state : m'.taskState = m.taskState)
      (loads : pc = .loadState) (suspended : m.taskState t = .suspended)
  | push (timer : m'.timer = (m.setTimer t n .over).timer)
      (ready : m'.ready = Function.update m.ready .global (m.ready .global ++ [t])) (waiters : m'.waiters = m.waiters)
      (queue : m'.queue = m.queue) (state : m'.taskState = m.taskState) (pushes : pc = .push)

omit [DecidableEq B] [DecidableEq C] in
theorem ticked {pc : TimerPc} (h : m.timerStep t n pc = some m') : Ticked m t n pc m' := by
  have hset : ∀ u, (m.setState t .ready).taskState u = .suspended → m.taskState u = .suspended := by
    intro u hu
    by_cases hut : u = t
    · simp [Mem.setState, hut] at hu
    · simpa [Mem.setState, hut] using hu
  cases pc with
  | claim | remove =>
    simp only [Mem.timerStep, Option.some.injEq] at h
    split_ifs at h <;> cases h <;> exact .idle _ rfl rfl rfl rfl rfl (fun h _ => by cases h) fun u hu => hu
  | mark | setClaimed => cases h; exact .idle _ rfl rfl rfl rfl rfl (fun h _ => by cases h) fun u hu => hu
  | loadState =>
    cases h
    split_ifs with hs
    · exact .find rfl rfl rfl rfl rfl rfl hs
    · exact .idle _ rfl rfl rfl rfl rfl (fun h _ => by cases h) fun u hu => hu
  | storeReady =>
    cases h
    exact .idle _ rfl rfl rfl rfl rfl (fun _ hs => by simp [Mem.setState, Mem.setTimer] at hs) hset
  | submit => cases h; exact .idle _ rfl rfl rfl rfl rfl (fun h _ => h) hset
  | push => cases h; exact .push rfl rfl rfl rfl rfl rfl
  | _ => cases h

/-! ## No wait is known before it begins -/

omit [DecidableEq T] in
/-- `PopFromHead` takes nothing from elsewhere. -/
theorem popFromHead_sublist (claimed : T × ℕ → Bool) (q : List (T × ℕ)) :
    ((Butex.popFromHead claimed q).1.toList ++ (Butex.popFromHead claimed q).2).Sublist q := by
  induction q with
  | nil => exact List.Sublist.refl _
  | cons x q ih =>
    by_cases hx : claimed x = true
    · simp only [Butex.popFromHead, hx, if_true]
      exact ih.cons x
    · simp only [Butex.popFromHead, hx]
      exact List.Sublist.refl _

omit [DecidableEq W] [DecidableEq T] [DecidableEq B] [DecidableEq C] in
theorem afterBatch_batch {l : Loop} {batch : List (T × ℕ)} {b : B} :
    ((Butex.afterBatch l batch).map (WakerPc.butex (C := C) b)).elim [] WakerPc.batch = batch := by
  cases batch <;> rfl

omit [DecidableEq W] [DecidableEq T] [DecidableEq B] [DecidableEq C] in
theorem afterWaiter_batch {l : Loop} {rest : List (T × ℕ)} {b : B} :
    ((Butex.afterWaiter l rest).map (WakerPc.butex (C := C) b)).elim [] WakerPc.batch = rest := by
  cases rest with
  | nil =>
    simp only [Butex.afterWaiter, Butex.nextBatch]
    split_ifs <;> rfl
  | cons x rest => rfl

/-- A waker takes a wait from a queue into its batch, or what it holds gets less. -/
theorem wakerStep_batch (m : Mem W T B C) (p : Place W) (pc : WakerPc T B C) :
    ((m.wakerStep p pc).1.queue = m.queue ∧ ((m.wakerStep p pc).2.elim [] WakerPc.batch).Sublist pc.batch) ∨
      ∃ b q, (m.wakerStep p pc).1.queue = Function.update m.queue b q ∧ q.Sublist (m.queue b) ∧
        ∀ x, q.count x + ((m.wakerStep p pc).2.elim [] WakerPc.batch).count x ≤
          (m.queue b).count x + pc.batch.count x := by
  cases pc with
  | butex b pc =>
    cases pc with
    | setValue v count | clearWaiting l y rest | bump l y rest | storeReady l y rest | submit l y rest =>
      exact Or.inl ⟨rfl, List.Sublist.refl _⟩
    | futexWake count =>
      refine Or.inl ⟨rfl, ?_⟩
      simp only [Mem.wakerStep, Mem.butexStep, Butex.nextBatch]
      split_ifs <;> exact List.nil_sublist _
    | cancel l y rest =>
      refine Or.inl ⟨?_, List.Sublist.refl _⟩
      simp only [Mem.wakerStep, Mem.butexStep]
      split_ifs <;> rfl
    | loadState l y rest =>
      refine Or.inl ⟨rfl, ?_⟩
      simp only [Mem.wakerStep, Mem.butexStep]
      split_ifs
      · exact List.Sublist.refl _
      · rw [afterWaiter_batch]
        exact List.sublist_cons_self y rest
    | push l y rest =>
      refine Or.inl ⟨rfl, ?_⟩
      simp only [Mem.wakerStep, Mem.butexStep]
      rw [afterWaiter_batch]
      exact List.sublist_cons_self y rest
    | pop l batch =>
      have hq := popFromHead_sublist (fun x => m.claimed x.1) (m.queue b)
      simp only [Mem.wakerStep, Mem.butexStep]
      cases hpop : Butex.popFromHead (fun x => m.claimed x.1) (m.queue b) with
      | mk o q =>
        rw [hpop] at hq
        refine Or.inr ⟨b, q, ?_, (List.sublist_append_right _ _).trans hq, fun x => ?_⟩
        · cases o <;> rfl
        · have hx := hq.count_le x
          cases o with
          | none =>
            simp only [afterBatch_batch]
            simp only [Option.toList_none, List.nil_append] at hx
            exact Nat.add_le_add_right hx _
          | some y =>
            simp only [Option.toList_some, List.singleton_append, List.count_cons] at hx
            have hb : ∀ r, r = some (WakePc.pop l (batch ++ [y])) ∨ r = Butex.afterBatch l (batch ++ [y]) →
                (r.map (WakerPc.butex (C := C) b)).elim [] WakerPc.batch = batch ++ [y] := by
              rintro r (rfl | rfl)
              · rfl
              · exact afterBatch_batch
            simp only
            rw [hb _ (by split_ifs <;> simp)]
            simp only [List.count_append, List.count_singleton, WakerPc.batch]
            omega
  | popWaiter c all =>
    left
    simp only [Mem.wakerStep]
    split <;> exact ⟨rfl, List.nil_sublist _⟩
  | push c all y =>
    left
    simp only [Mem.wakerStep, afterNotify]
    split_ifs <;> exact ⟨rfl, List.nil_sublist _⟩
  | _ => exact Or.inl ⟨rfl, List.nil_sublist _⟩

end Access

end Cothread.Worker
