import Cothread.Lib.Once
import Cothread.Sync.ButexLost

/-!
# `Butex`: how often a wait is answered

`Wait`, `Wake` and the timeout callback may each pass the task to `EnqueueTask`. A `Wait` that has set its state to
`SUSPENDED` and then finds `wake_count` changed enqueues the task, or leaves that to the waker, and returns without
suspending; and a waker and the callback can both find the task `SUSPENDED` before one of them stores `READY`. In runs
without these two a task is enqueued at most once, and when its `Wait` has returned as often as it has suspended
(`answering_step`). That it is enqueued at all is shown in `ButexSettled`.
-/

namespace Cothread.Butex

open Run Places

variable {T W : Type*}

/-- How often each task has been passed to `EnqueueTask`, and how often its `Wait` has suspended. -/
structure Record (T : Type*) where
  enqueues : T → ℕ
  suspends : T → ℕ

def Record.empty : Record T where
  enqueues _ := 0
  suspends _ := 0

/-- The task that the step enqueues. -/
def State.enqueues (s : State T W) : Label T W → Option T
  | .waiter t => if s.wait t = some .push then some t else none
  | .waker w => match s.waker w with
    | some (.push _ t _) => some t
    | _ => none
  | .timer t => if s.timer t = some .push then some t else none
  | _ => none

/-- The task that the step suspends. -/
def State.suspends (s : State T W) : Label T W → Option T
  | .waiter t => if s.wait t = some .swap then some t else none
  | _ => none

/-- One more for the task of a step. -/
def bump [DecidableEq T] (n : T → ℕ) : Option T → T → ℕ
  | some t => Function.update n t (n t + 1)
  | none => n

/-- The record of a step. -/
def State.note [DecidableEq T] (s : State T W) (l : Label T W) (r : Record T) : Record T where
  enqueues := bump r.enqueues (s.enqueues l)
  suspends := bump r.suspends (s.suspends l)

/-- The system with its record. -/
def recorded [DecidableEq T] [DecidableEq W] (call : T → Call) : System (State T W × Record T) (Label T W) :=
  (system call).recording Record.empty State.note

/-! ## Who enqueues a task -/

/-- The tasks that this waker has found `SUSPENDED`, and is going to set to `READY`. -/
def WakePc.finding : WakePc T → List T
  | .storeReady _ t _ => [t]
  | _ => []

/-- The tasks that this waker has set to `READY`, and is going to enqueue. -/
def WakePc.storing : WakePc T → List T
  | .submit _ t _ | .push _ t _ => [t]
  | _ => []

/-- The callback has found the task `SUSPENDED`, and is going to set it to `READY`. -/
def TimerPc.finding : TimerPc → ℕ
  | .remove | .setClaimed | .storeReady => 1
  | _ => 0

/-- The callback has set the task to `READY`, and is going to enqueue it. -/
def TimerPc.storing : TimerPc → ℕ
  | .submit | .push => 1
  | _ => 0

/-- Where an answer to a wait can be. -/
inductive Place (W : Type*)
  | done  -- the task has been enqueued
  | waker (w : W)
  | timer
  deriving DecidableEq

def State.finding [DecidableEq T] (s : State T W) (x : T) : Place W → ℕ
  | .done => 0
  | .waker w => ((s.waker w).elim [] WakePc.finding).count x
  | .timer => (s.timer x).elim 0 TimerPc.finding

def State.storing [DecidableEq T] (s : State T W) (r : Record T) (x : T) : Place W → ℕ
  | .done => r.enqueues x
  | .waker w => ((s.waker w).elim [] WakePc.storing).count x
  | .timer => (s.timer x).elim 0 TimerPc.storing

/-- Somebody has found the task `SUSPENDED` and has not set it to `READY` yet. -/
def Found [DecidableEq T] (s : State T W) (x : T) : Prop := ∃ a, 0 < s.finding x a

/-- A `Wait` finds `wake_count` changed after it has set its state to `SUSPENDED`; or a waker or a callback finds a task
`SUSPENDED` that somebody else has already found so. -/
def Astray [DecidableEq T] (s : State T W) : Label T W → Prop
  | .waiter t => ∃ saved, s.wait t = some (.resample saved) ∧ s.wakeCount t ≠ saved
  | .waker w => ∃ l t rest, s.waker w = some (.loadState l t rest) ∧ s.taskState t = .suspended ∧ Found s t
  | .timer t => s.timer t = some .loadState ∧ s.taskState t = .suspended ∧ Found s t
  | _ => False

/-! ## Wakers between two tasks -/

@[simp] theorem afterBatch_finding (l : Loop) (b : List T) : (afterBatch l b).elim [] WakePc.finding = [] := by
  cases b <;> rfl

@[simp] theorem afterBatch_storing (l : Loop) (b : List T) : (afterBatch l b).elim [] WakePc.storing = [] := by
  cases b <;> rfl

@[simp] theorem nextBatch_finding (l : Loop) : (nextBatch l : Option (WakePc T)).elim [] WakePc.finding = [] := by
  unfold nextBatch
  split_ifs <;> rfl

@[simp] theorem nextBatch_storing (l : Loop) : (nextBatch l : Option (WakePc T)).elim [] WakePc.storing = [] := by
  unfold nextBatch
  split_ifs <;> rfl

@[simp] theorem afterWaiter_finding (l : Loop) (b : List T) : (afterWaiter l b).elim [] WakePc.finding = [] := by
  cases b
  · exact nextBatch_finding l
  · rfl

@[simp] theorem afterWaiter_storing (l : Loop) (b : List T) : (afterWaiter l b).elim [] WakePc.storing = [] := by
  cases b
  · exact nextBatch_storing l
  · rfl

/-! ## The invariant of one task -/

section Task

variable [DecidableEq T] {s t : State T W} {r r' : Record T} {x : T}

/-- Nobody is answering the task's wait, or has answered it. -/
def Silent (s : State T W) (r : Record T) (x : T) : Prop := ∀ a, s.finding x a = 0 ∧ s.storing r x a = 0

/-- The task has not touched its state. -/
structure Quiet (s : State T W) (r : Record T) (x : T) : Prop where
  running : s.taskState x = .running
  silent : Silent s r x
  suspends : r.suspends x = 0

/-- What holds of a task at the next access of its `Wait`. -/
def PcOk (s : State T W) (r : Record T) (x : T) : Option WaitPc → Prop
  | some (.resample _) | some .swap => r.suspends x = 0
  | some .suspended => r.suspends x = 1
  | some .resumed => r.suspends x = 1 ∧ r.enqueues x = 1
  | some (.returned _) => Quiet s r x ∨ r.suspends x = 1 ∧ r.enqueues x = 1
  | some .takeBack | some .submit | some .push => False
  | _ => Quiet s r x

/-- There is at most one answer, and nobody has stored `READY` while the task is still `SUSPENDED`. -/
structure Answering (s : State T W) (r : Record T) (x : T) : Prop where
  once : Once fun a => s.finding x a + s.storing r x a
  ready : s.ready x ≤ r.enqueues x
  stored : s.taskState x = .suspended → ∀ a, s.storing r x a = 0
  pc : PcOk s r x (s.wait x)

theorem Answering.suspends_le (h : Answering s r x) : r.suspends x ≤ 1 := by
  have hpc := h.pc
  cases hw : s.wait x with
  | none => rw [hw] at hpc; exact hpc.suspends.trans_le (Nat.zero_le 1)
  | some pc =>
    rw [hw] at hpc
    cases pc with
    | resample saved | swap => exact (Nat.le_of_eq hpc).trans (Nat.zero_le 1)
    | suspended => exact Nat.le_of_eq hpc
    | resumed => exact Nat.le_of_eq hpc.1
    | returned b => exact hpc.elim (fun hq => hq.suspends.trans_le (Nat.zero_le 1)) fun hb => Nat.le_of_eq hb.1
    | takeBack | submit | push => exact hpc.elim
    | _ => exact hpc.suspends.trans_le (Nat.zero_le 1)

theorem Answering.enqueues_le (h : Answering s r x) : r.enqueues x ≤ 1 :=
  (Nat.le_add_left _ _).trans (h.once.le_one .done)

/-- A `Wait` that has returned has been enqueued as often as it has suspended. -/
theorem Answering.returned (h : Answering s r x) {b : Bool} (hb : s.wait x = some (.returned b)) :
    r.enqueues x = r.suspends x := by
  have hpc := h.pc
  rw [hb] at hpc
  rcases hpc with hq | ⟨h1, h2⟩
  · exact (hq.silent .done).2.trans hq.suspends.symm
  · exact h2.trans h1.symm

theorem Silent.answering (h : Silent s r x) (hready : s.ready x ≤ r.enqueues x) (hpc : PcOk s r x (s.wait x)) :
    Answering s r x where
  once _ := (Finset.sum_eq_zero fun a _ => Nat.add_eq_zero_iff.mpr (h a)).trans_le (Nat.zero_le 1)
  ready := hready
  stored _ a := (h a).2
  pc := hpc

/-- Nothing that concerns the task changes. -/
theorem Answering.keep (h : Answering s r x) (hf : ∀ a, t.finding x a = s.finding x a)
    (hs : ∀ a, t.storing r' x a = s.storing r x a) (hready : t.ready x = s.ready x)
    (hstate : t.taskState x = s.taskState x) (hsusp : r'.suspends x = r.suspends x) (hwait : t.wait x = s.wait x) :
    Answering t r' x := by
  have henq : r'.enqueues x = r.enqueues x := hs .done
  have hquiet : Quiet s r x → Quiet t r' x := fun hq =>
    ⟨hstate.trans hq.running, fun a => ⟨(hf a).trans (hq.silent a).1, (hs a).trans (hq.silent a).2⟩,
      hsusp.trans hq.suspends⟩
  refine ⟨by simp only [hf, hs]; exact h.once, by rw [hready, henq]; exact h.ready, fun hx a => ?_, ?_⟩
  · exact (hs a).trans (h.stored (hstate ▸ hx) a)
  · have hpc := h.pc
    rw [hwait]
    cases hw : s.wait x with
    | none => rw [hw] at hpc; exact hquiet hpc
    | some pc =>
      rw [hw] at hpc
      cases pc with
      | resample saved | swap | suspended => exact hsusp.trans hpc
      | resumed => exact ⟨hsusp.trans hpc.1, henq.trans hpc.2⟩
      | returned b => exact hpc.imp hquiet fun hb => ⟨hsusp.trans hb.1, henq.trans hb.2⟩
      | takeBack | submit | push => exact hpc
      | _ => exact hquiet hpc

/-- A task that somebody answers has suspended, or is about to. -/
theorem PcOk.late {pc : Option WaitPc} (h : PcOk s r x pc) (hq : ¬Quiet s r x) (hsusp : r'.suspends x = r.suspends x)
    (henq : r.enqueues x = 1 → r'.enqueues x = 1) : PcOk t r' x pc := by
  cases pc with
  | none => exact absurd h hq
  | some pc => cases pc with
    | resample saved | swap | suspended => exact hsusp.trans h
    | resumed => exact ⟨hsusp.trans h.1, henq h.2⟩
    | returned b => exact Or.inr ((h.resolve_left hq).imp hsusp.trans henq)
    | takeBack | submit | push => exact h
    | _ => exact absurd h hq

/-- Somebody finds the task `SUSPENDED`, which nobody else has found so. -/
theorem Answering.find (h : Answering s r x) {a : Place W} (hx : s.taskState x = .suspended)
    (hnone : ∀ b, s.finding x b = 0) (hfa : t.finding x a = 1) (hf : ∀ b, b ≠ a → t.finding x b = s.finding x b)
    (hs : ∀ b, t.storing r x b = s.storing r x b) (hready : t.ready x = s.ready x) (hwait : t.wait x = s.wait x) :
    Answering t r x := by
  have hzero := h.stored hx
  refine ⟨Once.insert (b := a) (c := fun _ => 0) (fun _ => rfl) ?_ fun b hb => ?_, hready ▸ h.ready, fun _ b => ?_, ?_⟩
  · simp only [hfa, hs, hzero, Nat.add_zero, Nat.le_refl]
  · simp only [hf b hb, hnone b, hs, hzero, Nat.add_zero, Nat.le_refl]
  · rw [hs, hzero]
  · rw [hwait]
    refine h.pc.late (fun hq => ?_) rfl id
    have := hq.running
    rw [hx] at this
    cases this

/-- Whoever has found the task `SUSPENDED` sets it to `READY`. -/
theorem Answering.store (h : Answering s r x) {a : Place W} (hpos : 0 < s.finding x a + s.storing r x a)
    (hsum : ∀ b, t.finding x b + t.storing r x b = s.finding x b + s.storing r x b) (hready : t.ready x = s.ready x)
    (hstate : t.taskState x = .ready) (hwait : t.wait x = s.wait x) : Answering t r x := by
  refine ⟨by simp only [hsum]; exact h.once, hready ▸ h.ready, fun hx => ?_, ?_⟩
  · rw [hstate] at hx
    cases hx
  · rw [hwait]
    refine h.pc.late (fun hq => ?_) rfl id
    have := hq.silent a
    omega

/-- Whoever has set the task to `READY` enqueues it. -/
theorem Answering.push (h : Answering s r x) {a : Place W} (ha : a ≠ .done) (hpos : 0 < s.storing r x a)
    (hta : t.finding x a + t.storing r' x a = 0) (henq : r'.enqueues x = r.enqueues x + 1)
    (hother : ∀ b, b ≠ a → b ≠ .done → t.finding x b + t.storing r' x b = s.finding x b + s.storing r x b)
    (hready : t.ready x = s.ready x + 1) (hstate : t.taskState x = s.taskState x)
    (hsusp : r'.suspends x = r.suspends x) (hwait : t.wait x = s.wait x) : Answering t r' x := by
  have hdone : r.enqueues x = 0 := by
    have h0 : s.finding x .done + s.storing r x .done = 0 :=
      h.once.eq_zero (show 0 < s.finding x a + s.storing r x a by omega) ha.symm
    simpa [State.finding, State.storing] using h0
  refine ⟨h.once.move (a := a) (b := .done) ha ?_ fun b hb hd => Nat.le_of_eq (hother b hb hd), ?_, fun hx => ?_, ?_⟩
  · show t.finding x a + t.storing r' x a + (0 + r'.enqueues x) ≤ s.finding x a + s.storing r x a + (0 + r.enqueues x)
    omega
  · rw [hready, henq]
    exact Nat.succ_le_succ h.ready
  · have := h.stored (hstate ▸ hx) a
    omega
  · rw [hwait]
    refine h.pc.late (fun hq => ?_) hsusp fun he => ?_
    · have := hq.silent a
      omega
    · omega

/-! ## The accesses of the task itself -/

/-- An access that neither enqueues nor suspends the task. -/
theorem note_waiter {pc : WaitPc} (hpc : s.wait x = some pc) (hp : pc ≠ .push) (hs : pc ≠ .swap) :
    s.note (.waiter x) r = r := by
  have h1 : some pc ≠ some WaitPc.push := fun he => hp (Option.some.inj he)
  have h2 : some pc ≠ some WaitPc.swap := fun he => hs (Option.some.inj he)
  simp only [State.note, State.enqueues, State.suspends, hpc, if_neg h1, if_neg h2, bump]

/-- The task goes on before it has touched its state. -/
theorem Quiet.goto {k : WaitPc} (hq : Quiet t r x) (hready : t.ready x ≤ r.enqueues x)
    (hk : Quiet t r x → PcOk t r x (some k)) : Answering (t.goto x k) r x := by
  refine Silent.answering hq.silent hready ?_
  have hpc : (t.goto x k).wait x = some k := by simp [State.goto]
  rw [hpc]
  have hok := hk hq
  cases k with
  | returned b => exact hok.imp (fun hq => ⟨hq.running, hq.silent, hq.suspends⟩) id
  | resample saved | swap | suspended | resumed | takeBack | submit | push => exact hok
  | _ => exact ⟨hq.running, hq.silent, hq.suspends⟩

/-- **An access of the task itself**, which finds `wake_count` as it was. -/
theorem Answering.waiter (h : Answering s r x) {c : Call} {pc : WaitPc} (hpc : s.wait x = some pc)
    (hok : ¬Astray s (.waiter x)) (hst : s.waitStep c x pc = some t) : Answering t (s.note (.waiter x) r) x := by
  have hp := h.pc
  rw [hpc] at hp
  have hquiet : Quiet s r x → ∀ b, Quiet (s.setWaiting x b) r x ∧ Quiet (s.setClaimed x b) r x ∧
      Quiet (s.addWaiter x b) r x ∧ (s.addWaiter x b).ready x = s.ready x := by
    intro hq b
    refine ⟨⟨hq.running, hq.silent, hq.suspends⟩, ⟨hq.running, hq.silent, hq.suspends⟩, ?_⟩
    unfold State.addWaiter
    split_ifs <;> exact ⟨⟨hq.running, hq.silent, hq.suspends⟩, rfl⟩
  cases pc with
  | suspended | returned b => cases hst
  | takeBack | submit | push => exact hp.elim
  | swap =>
    cases hst
    have henq : (s.note (.waiter x) r).enqueues = r.enqueues := by simp [State.note, State.enqueues, hpc, bump]
    have hsusp : (s.note (.waiter x) r).suspends x = 1 := by
      have h0 : r.suspends x = 0 := hp
      simp [State.note, State.suspends, hpc, bump, h0]
    have hst : ∀ a, (s.goto x .suspended).storing (s.note (.waiter x) r) x a = s.storing r x a := by
      intro a
      cases a with
      | done => exact congrFun henq x
      | _ => rfl
    refine ⟨?_, ?_, fun hx a => (hst a).trans (h.stored hx a), ?_⟩
    · simp only [hst]
      exact h.once
    · rw [henq]
      exact h.ready
    · rw [show (s.goto x .suspended).wait x = some .suspended by simp [State.goto]]
      exact hsusp
  | resample saved =>
    cases hst
    rw [note_waiter hpc (by simp) (by simp), if_pos (by_contra fun hne => hok ⟨saved, hpc, hne⟩)]
    refine ⟨h.once, h.ready, h.stored, ?_⟩
    rw [show (s.goto x .swap).wait x = some .swap by simp [State.goto]]
    exact hp
  | resumed =>
    cases hst
    rw [note_waiter hpc (by simp) (by simp)]
    refine ⟨h.once, h.ready, h.stored, ?_⟩
    rw [show (s.goto x (.returned (s.timedOut x))).wait x = some (.returned (s.timedOut x)) by simp [State.goto]]
    exact Or.inr hp
  | suspend saved =>
    cases hst
    rw [note_waiter hpc (by simp) (by simp), if_pos hp.running]
    refine Silent.answering hp.silent h.ready ?_
    rw [show ((s.setState x .suspended).goto x (.resample saved)).wait x = some (.resample saved) by simp [State.goto]]
    exact hp.suspends
  | schedule =>
    cases hst
    rw [note_waiter hpc (by simp) (by simp)]
    have hq : Quiet (s.setTimer x .armed) r x := by
      refine ⟨hp.running, fun a => ?_, hp.suspends⟩
      cases a with
      | timer => simp [State.setTimer, State.finding, State.storing, TimerPc.finding, TimerPc.storing]
      | done => exact hp.silent .done
      | waker w => exact hp.silent (.waker w)
    exact hq.goto h.ready id
  | enqueue =>
    cases hst
    rw [note_waiter hpc (by simp) (by simp)]
    obtain ⟨-, -, hq, hready⟩ := hquiet hp c.prepend
    exact hq.goto (hready ▸ h.ready) id
  | prepare | abandon =>
    cases hst
    rw [note_waiter hpc (by simp) (by simp)]
    exact (hquiet hp _).2.1.goto h.ready id
  | withdraw =>
    cases hst
    rw [note_waiter hpc (by simp) (by simp)]
    exact (hquiet hp _).1.goto h.ready Or.inl
  | setWaiting =>
    cases hst
    rw [note_waiter hpc (by simp) (by simp)]
    split_ifs
    · exact hp.goto h.ready Or.inl
    · exact (hquiet hp _).1.goto h.ready id
  | load | recheck | recheckQueued | sample =>
    cases hst
    rw [note_waiter hpc (by simp) (by simp)]
    refine hp.goto h.ready fun hq => ?_
    (repeat' split) <;> first | exact hq | exact Or.inl hq

/-- A worker picks the task. -/
theorem Answering.run (h : Answering s r x) (hpos : 0 < s.ready x) : Answering (s.run x) r x := by
  have henq : r.enqueues x = 1 := by
    have hle := h.enqueues_le
    have hready := h.ready
    omega
  have hquiet : ¬Quiet s r x := fun hq => by
    have h0 : r.enqueues x = 0 := (hq.silent .done).2
    omega
  refine ⟨h.once, ?_, fun hx => ?_, ?_⟩
  · have hready := h.ready
    simp only [State.run, Function.update_self]
    omega
  · simp [State.run, State.setState] at hx
  · rw [run_wait]
    split_ifs with hw
    · have hp := h.pc
      rw [hw] at hp
      exact ⟨hp, henq⟩
    · exact h.pc.late hquiet rfl id

/-! ## The callback of the task's timer -/

/-- An access of the callback that does not enqueue the task. -/
theorem note_timer {k : TimerPc} (hk : s.timer x = some k) (hne : k ≠ .push) : s.note (.timer x) r = r := by
  have hne' : ¬some k = some TimerPc.push := fun he => hne (Option.some.inj he)
  simp only [State.note, State.enqueues, State.suspends, hk, if_neg hne', bump]

variable [DecidableEq W]

theorem finding_setTimer {k : TimerPc} {a : Place W} :
    (s.setTimer x k).finding x a = if a = .timer then k.finding else s.finding x a := by
  cases a <;> simp [State.finding, State.setTimer]

theorem storing_setTimer {k : TimerPc} {a : Place W} :
    (s.setTimer x k).storing r x a = if a = .timer then k.storing else s.storing r x a := by
  cases a <;> simp [State.storing, State.setTimer]

/-- The callback goes on, and answers as before. -/
theorem places_setTimer {k k' : TimerPc} (hk : s.timer x = some k) {u : State T W}
    (hu : ∀ a, u.finding x a = s.finding x a ∧ u.storing r x a = s.storing r x a) (hf : k'.finding = k.finding)
    (hs : k'.storing = k.storing) (a : Place W) :
    (u.setTimer x k').finding x a = s.finding x a ∧ (u.setTimer x k').storing r x a = s.storing r x a := by
  rw [finding_setTimer, storing_setTimer]
  split_ifs with ha
  · subst ha
    simp [State.finding, State.storing, hk, hf, hs]
  · exact hu a

theorem Answering.setTimer (h : Answering s r x) {k k' : TimerPc} (hk : s.timer x = some k) {u : State T W}
    (hu : ∀ a, u.finding x a = s.finding x a ∧ u.storing r x a = s.storing r x a) (hready : u.ready x = s.ready x)
    (hstate : u.taskState x = s.taskState x) (hwait : u.wait x = s.wait x) (hf : k'.finding = k.finding)
    (hs : k'.storing = k.storing) : Answering (u.setTimer x k') r x :=
  h.keep (fun a => (places_setTimer hk hu hf hs a).1) (fun a => (places_setTimer hk hu hf hs a).2) hready hstate rfl
    hwait

/-- **An access of the callback**, which is the only one to find the task `SUSPENDED`. -/
theorem Answering.timer (h : Answering s r x) {k : TimerPc} (hk : s.timer x = some k) (hok : ¬Astray s (.timer x))
    (hst : s.timerStep x k = some t) : Answering t (s.note (.timer x) r) x := by
  have hnote := note_timer (r := r) hk
  have hsame : ∀ a, s.finding x a = s.finding x a ∧ s.storing r x a = s.storing r x a := fun _ => ⟨rfl, rfl⟩
  cases k with
  | claim =>
    cases hst
    rw [hnote (by simp)]
    split_ifs
    · exact h.setTimer hk hsame rfl rfl rfl rfl rfl
    · exact h.setTimer hk (u := { s with wakeup := Function.update s.wakeup x true }) hsame rfl rfl rfl rfl rfl
  | mark =>
    cases hst
    rw [hnote (by simp)]
    exact h.setTimer hk (u := { s with timedOut := Function.update s.timedOut x true }) hsame rfl rfl rfl rfl rfl
  | remove =>
    cases hst
    rw [hnote (by simp)]
    split_ifs
    · exact h.setTimer hk (u := s.setWaiting x false) hsame rfl rfl rfl rfl rfl
    · exact h.setTimer hk hsame rfl rfl rfl rfl rfl
  | setClaimed =>
    cases hst
    rw [hnote (by simp)]
    exact h.setTimer hk (u := s.setClaimed x true) hsame rfl rfl rfl rfl rfl
  | loadState =>
    cases hst
    rw [hnote (by simp)]
    split_ifs with hx
    · refine h.find (a := .timer) hx (fun b => ?_) ?_ (fun b hb => ?_) (fun b => ?_) rfl rfl
      · by_contra hne
        exact hok ⟨hk, hx, b, Nat.pos_of_ne_zero hne⟩
      · simp [finding_setTimer, TimerPc.finding]
      · rw [finding_setTimer, if_neg hb]
      · rw [storing_setTimer]
        split_ifs with hb
        · subst hb
          simp [State.storing, hk, TimerPc.storing]
        · rfl
    · exact h.setTimer hk hsame rfl rfl rfl rfl rfl
  | storeReady | submit =>
    cases hst
    rw [hnote (by simp)]
    refine h.store (a := .timer) ?_ (fun b => ?_) rfl (by simp [State.setTimer, State.setState]) rfl
    · simp [State.finding, State.storing, hk, TimerPc.finding, TimerPc.storing]
    · rw [finding_setTimer, storing_setTimer]
      split_ifs with hb
      · subst hb
        simp [State.finding, State.storing, hk, TimerPc.finding, TimerPc.storing]
      · rfl
  | push =>
    cases hst
    refine h.push (a := .timer) (by simp) ?_ ?_ ?_ (fun b hb hd => ?_) ?_ rfl rfl rfl
    · simp [State.storing, hk, TimerPc.storing]
    · simp [State.setTimer, State.finding, State.storing, TimerPc.finding, TimerPc.storing]
    · simp [State.note, State.enqueues, hk, bump]
    · cases b with
      | done => exact absurd rfl hd
      | timer => exact absurd rfl hb
      | waker w => rfl
    · simp [State.setTimer, State.pushReady]
  | _ => cases hst

/-- The timer fires. -/
theorem Answering.fire (h : Answering s r x) (hk : s.timer x = some .armed) : Answering (s.setTimer x .claim) r x :=
  h.setTimer hk (fun _ => ⟨rfl, rfl⟩) rfl rfl rfl rfl rfl

/-! ## Wakers -/

variable {w : W}

theorem finding_setWaker {n : Option (WakePc T)} {a : Place W} : (s.setWaker w n).finding x a =
    if a = .waker w then (n.elim [] WakePc.finding).count x else s.finding x a := by
  cases a with
  | waker v => by_cases hv : v = w <;> simp [State.finding, State.setWaker, hv]
  | _ => rfl

theorem storing_setWaker {n : Option (WakePc T)} {a : Place W} : (s.setWaker w n).storing r x a =
    if a = .waker w then (n.elim [] WakePc.storing).count x else s.storing r x a := by
  cases a with
  | waker v => by_cases hv : v = w <;> simp [State.storing, State.setWaker, hv]
  | _ => rfl

/-- A waker goes on, and answers as before. -/
theorem Answering.setWaker (h : Answering s r x) {pc : WakePc T} (hw : s.waker w = some pc) {u : State T W}
    (hu : ∀ a, u.finding x a = s.finding x a ∧ u.storing r x a = s.storing r x a) (hready : u.ready x = s.ready x)
    (hstate : u.taskState x = s.taskState x) (hwait : u.wait x = s.wait x) {n : Option (WakePc T)}
    (hf : (n.elim [] WakePc.finding).count x = pc.finding.count x)
    (hs : (n.elim [] WakePc.storing).count x = pc.storing.count x) : Answering (u.setWaker w n) r x := by
  refine h.keep (fun a => ?_) (fun a => ?_) hready hstate rfl hwait
  · rw [finding_setWaker]
    split_ifs with ha
    · subst ha
      simp [State.finding, hw, hf]
    · exact (hu a).1
  · rw [storing_setWaker]
    split_ifs with ha
    · subst ha
      simp [State.storing, hw, hs]
    · exact (hu a).2

omit [DecidableEq W] in
/-- Only the access that puts a task in a queue is noted. -/
theorem note_waker {pc : WakePc T} (r : Record T) (hw : s.waker w = some pc) (hne : ∀ l y rest, pc ≠ .push l y rest) :
    s.note (.waker w) r = r := by
  simp only [State.note, State.enqueues, State.suspends, hw, bump]
  split
  · next heq =>
    split at heq
    · next he => exact absurd (Option.some.inj he) (hne _ _ _)
    · cases heq
  · rfl

/-- `Wake` cancels the timer of `y`. -/
theorem Answering.wakerCancel (h : Answering s r x) {call : T → Call} {l : Loop} {y : T} {rest : List T}
    (hw : s.waker w = some (.cancel l y rest)) : Answering (s.wakeStep call w (.cancel l y rest)) r x := by
  have hsame : ∀ a, s.finding x a = s.finding x a ∧ s.storing r x a = s.storing r x a := fun _ => ⟨rfl, rfl⟩
  simp only [State.wakeStep]
  split_ifs with hc
  · refine h.setWaker hw (u := s.setTimer y .over) (fun a => ?_) rfl rfl rfl rfl rfl
    by_cases hyx : x = y
    · subst hyx
      rw [finding_setTimer, storing_setTimer]
      split_ifs with ha
      · subst ha
        simp [State.finding, State.storing, hc.2, TimerPc.finding, TimerPc.storing]
      · exact ⟨rfl, rfl⟩
    · cases a with
      | timer => simp [State.finding, State.storing, State.setTimer, hyx]
      | _ => exact ⟨rfl, rfl⟩
  · exact h.setWaker hw hsame rfl rfl rfl rfl rfl

/-- `Wake` looks at the state of `y`. -/
theorem Answering.wakerLoadState (h : Answering s r x) {call : T → Call} {l : Loop} {y : T} {rest : List T}
    (hw : s.waker w = some (.loadState l y rest)) (hok : ¬Astray s (.waker w)) :
    Answering (s.wakeStep call w (.loadState l y rest)) r x := by
  have hsame : ∀ a, s.finding x a = s.finding x a ∧ s.storing r x a = s.storing r x a := fun _ => ⟨rfl, rfl⟩
  simp only [State.wakeStep]
  split_ifs with hy
  · by_cases hyx : y = x
    · subst hyx
      refine h.find (a := .waker w) hy (fun b => ?_) ?_ (fun b hb => ?_) (fun b => ?_) rfl rfl
      · by_contra hne
        exact hok ⟨l, y, rest, hw, hy, b, Nat.pos_of_ne_zero hne⟩
      · simp [finding_setWaker, WakePc.finding]
      · rw [finding_setWaker, if_neg hb]
      · rw [storing_setWaker]
        split_ifs with hb
        · subst hb
          simp [State.storing, hw, WakePc.storing]
        · rfl
    · exact h.setWaker hw hsame rfl rfl rfl (by simp [WakePc.finding, hyx]) rfl
  · exact h.setWaker hw hsame rfl rfl rfl (by simp [WakePc.finding]) (by simp [WakePc.storing])

/-- `Wake` stores the state of `y`, itself or in `EnqueueTask`. -/
theorem Answering.wakerStore (h : Answering s r x) {call : T → Call} {pc : WakePc T} {l : Loop} {y : T}
    {rest : List T} (hw : s.waker w = some pc) (hpc : pc = .storeReady l y rest ∨ pc = .submit l y rest) :
    Answering (s.wakeStep call w pc) r x := by
  have hsame : ∀ a, s.finding x a = s.finding x a ∧ s.storing r x a = s.storing r x a := fun _ => ⟨rfl, rfl⟩
  by_cases hyx : y = x
  · subst hyx
    obtain rfl | rfl := hpc
    all_goals
      refine h.store (a := .waker w) ?_ (fun b => ?_) rfl (by simp [State.wakeStep, State.setWaker, State.setState]) rfl
      · simp [State.finding, State.storing, hw, WakePc.finding, WakePc.storing]
      · simp only [State.wakeStep]
        rw [finding_setWaker, storing_setWaker]
        split_ifs with hb
        · subst hb
          simp [State.finding, State.storing, hw, WakePc.finding, WakePc.storing]
        · rfl
  · obtain rfl | rfl := hpc
    all_goals
      refine h.setWaker hw (u := s.setState y .ready) hsame rfl ?_ rfl ?_ ?_
      · simp [State.setState, Ne.symm hyx]
      · simp [WakePc.finding, hyx]
      · simp [WakePc.storing, hyx]

/-- **`Wake` puts `y` in a queue.** -/
theorem Answering.wakerPush (h : Answering s r x) {call : T → Call} {l : Loop} {y : T} {rest : List T}
    (hw : s.waker w = some (.push l y rest)) :
    Answering (s.wakeStep call w (.push l y rest)) (s.note (.waker w) r) x := by
  by_cases hyx : y = x
  · subst hyx
    refine h.push (a := .waker w) (by simp) ?_ ?_ ?_ (fun b hb hd => ?_) ?_ rfl rfl rfl
    · simp [State.storing, hw, WakePc.storing]
    · simp [State.wakeStep, finding_setWaker, storing_setWaker]
    · simp [State.note, State.enqueues, hw, bump]
    · simp only [State.wakeStep]
      rw [finding_setWaker, storing_setWaker, if_neg hb, if_neg hb]
      cases b with
      | done => exact absurd rfl hd
      | _ => rfl
    · simp [State.wakeStep, State.setWaker, State.pushReady]
  · have hnote : (s.note (.waker w) r).enqueues x = r.enqueues x := by
      simp [State.note, State.enqueues, hw, bump, Ne.symm hyx]
    refine h.keep (fun a => ?_) (fun a => ?_) (by simp [State.wakeStep, State.setWaker, State.pushReady, Ne.symm hyx])
      rfl rfl rfl
    · simp only [State.wakeStep]
      rw [finding_setWaker]
      split_ifs with ha
      · subst ha
        simp [State.finding, hw, WakePc.finding]
      · rfl
    · simp only [State.wakeStep]
      rw [storing_setWaker]
      split_ifs with ha
      · subst ha
        simp [State.storing, hw, WakePc.storing, hyx]
      · cases a with
        | done => exact hnote
        | _ => rfl

/-- **An access of a waker**, which is the only one to find the task `SUSPENDED`. -/
theorem Answering.waker (h : Answering s r x) {call : T → Call} {pc : WakePc T} (hw : s.waker w = some pc)
    (hok : ¬Astray s (.waker w)) : Answering (s.wakeStep call w pc) (s.note (.waker w) r) x := by
  have hsame : ∀ a, s.finding x a = s.finding x a ∧ s.storing r x a = s.storing r x a := fun _ => ⟨rfl, rfl⟩
  cases pc with
  | setValue v count =>
    rw [note_waker r hw (by simp)]
    exact h.setWaker hw (u := { s with value := v }) hsame rfl rfl rfl rfl rfl
  | futexWake count =>
    rw [note_waker r hw (by simp)]
    exact h.setWaker hw hsame rfl rfl rfl (by simp [WakePc.finding]) (by simp [WakePc.storing])
  | pop l batch =>
    rw [note_waker r hw (by simp)]
    simp only [State.wakeStep]
    split
    · next q hq =>
      exact h.setWaker hw (u := { s with queue := q }) hsame rfl rfl rfl (by simp [WakePc.finding])
        (by simp [WakePc.storing])
    · next y q hq =>
      refine h.setWaker hw (u := { s with queue := q }.setClaimed y true) hsame rfl rfl rfl ?_ ?_ <;>
        split_ifs <;> simp [WakePc.finding, WakePc.storing]
  | clearWaiting l y rest =>
    rw [note_waker r hw (by simp)]
    exact h.setWaker hw (u := s.setWaiting y false) hsame rfl rfl rfl rfl rfl
  | bump l y rest =>
    rw [note_waker r hw (by simp)]
    exact h.setWaker hw (u := { s with wakeCount := Function.update s.wakeCount y (wrap32 (s.wakeCount y + 1)) }) hsame
      rfl rfl rfl rfl rfl
  | cancel l y rest =>
    rw [note_waker r hw (by simp)]
    exact h.wakerCancel hw
  | loadState l y rest =>
    rw [note_waker r hw (by simp)]
    exact h.wakerLoadState hw hok
  | storeReady l y rest =>
    rw [note_waker r hw (by simp)]
    exact h.wakerStore hw (.inl rfl)
  | submit l y rest =>
    rw [note_waker r hw (by simp)]
    exact h.wakerStore hw (.inr rfl)
  | push l y rest => exact h.wakerPush hw

/-! ## Every step -/

omit [DecidableEq W] in
/-- What a step of another task records. -/
theorem note_apart {l : Label T W} {y : T} (hl : l.task = some y) (hxy : x ≠ y) :
    (s.note l r).enqueues x = r.enqueues x ∧ (s.note l r).suspends x = r.suspends x := by
  cases l with
  | wake w v count | waker w => cases hl
  | wait z | fire z | run z => exact ⟨rfl, rfl⟩
  | waiter z | timer z =>
    cases hl
    constructor <;> simp only [State.note, State.enqueues, State.suspends] <;> (try split_ifs) <;> simp [bump, hxy]

omit [DecidableEq W] in
/-- A step of another task answers nothing. -/
theorem places_apart {l : Label T W} {y : T} (hl : l.task = some y) (hxy : x ≠ y) (ha : Apart s t y) (a : Place W) :
    t.finding x a = s.finding x a ∧ t.storing (s.note l r) x a = s.storing r x a := by
  cases a with
  | done => exact ⟨rfl, (note_apart hl hxy).1⟩
  | waker w => simp only [State.finding, State.storing, ha.waker, and_self]
  | timer => simp only [State.finding, State.storing, ha.timer x hxy, and_self]

omit [DecidableEq W] in
/-- A step of another task. -/
theorem Answering.apart (h : Answering s r x) {l : Label T W} {y : T} (hl : l.task = some y) (hxy : x ≠ y)
    (ha : Apart s t y) : Answering t (s.note l r) x :=
  h.keep (fun a => (places_apart (r := r) hl hxy ha a).1) (fun a => (places_apart hl hxy ha a).2) (ha.ready x hxy)
    (ha.taskState x hxy) (note_apart hl hxy).2 (ha.wait x hxy)

/-- **What one step preserves.** -/
theorem answering_step {call : T → Call} {l : Label T W} (h : Answering s r x) (hok : ¬Astray s l)
    (hst : step call s l = some t) : Answering t (s.note l r) x := by
  by_cases hl : ∃ y, l.task = some y ∧ x ≠ y
  · obtain ⟨y, hy, hxy⟩ := hl
    exact h.apart hy hxy (step_apart hst hy)
  have hown : ∀ y, l.task = some y → x = y := fun y hy => by_contra fun hxy => hl ⟨y, hy, hxy⟩
  cases l with
  | wait y =>
    obtain rfl := hown y rfl
    obtain ⟨hnone, hst⟩ := Option.ite_none_right_eq_some.mp hst
    cases hst
    have hp := h.pc
    rw [Option.isNone_iff_eq_none.mp hnone] at hp
    exact Quiet.goto hp h.ready id
  | waiter y =>
    obtain rfl := hown y rfl
    obtain ⟨pc, hpc, hst⟩ := Option.bind_eq_some_iff.mp hst
    exact h.waiter hpc hok hst
  | wake w v count =>
    obtain ⟨hnone, hst⟩ := Option.ite_none_right_eq_some.mp hst
    cases hst
    have hw : s.waker w = none := Option.isNone_iff_eq_none.mp hnone
    refine h.keep (fun a => ?_) (fun a => ?_) rfl rfl rfl rfl
    · rw [finding_setWaker]
      split_ifs with ha
      · subst ha
        simp [State.finding, hw, WakePc.finding]
      · rfl
    · rw [storing_setWaker]
      split_ifs with ha
      · subst ha
        simp [State.storing, hw, WakePc.storing]
      · rfl
  | waker w =>
    obtain ⟨pc, hw, rfl⟩ := Option.map_eq_some_iff.mp hst
    exact h.waker hw hok
  | fire y =>
    obtain rfl := hown y rfl
    obtain ⟨hk, hst⟩ := Option.ite_none_right_eq_some.mp hst
    cases hst
    exact h.fire hk
  | timer y =>
    obtain rfl := hown y rfl
    obtain ⟨k, hk, hst⟩ := Option.bind_eq_some_iff.mp hst
    exact h.timer hk hok hst
  | run y =>
    obtain rfl := hown y rfl
    obtain ⟨hpos, hst⟩ := Option.ite_none_right_eq_some.mp hst
    cases hst
    exact h.run hpos

end Task

end Cothread.Butex
