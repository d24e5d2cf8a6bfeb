import Cothread.Core.Finish
import Cothread.Core.WorkerMoves

/-!
# Each bthread comes to its end once

`HandleTaskAfterRun` decides what has happened to a task by loading its state after the worker has given the task up.
When another worker has resumed the task and ended it in between, both find `FINISHED`; when a waker has stored `READY`
over `FINISHED`, nobody does. `Misled` are the steps that lead there. Without them the end of a bthread is in one place
(`State.ends`): with the worker that has stored `FINISHED`, with the same worker after it has switched away, and then in
`HandleFinishedBthread`.

- `changed`: what a step of the workers does to the tasks that they run, have left, and have ended;
- `Inv.base`: what is known of the end of a bthread stays true.
-/

namespace Cothread.Finish

open Run Places
open Worker (TaskPc WorkerPc WakerPc Waking Mem)
open Butex (TimerPc)

variable {W E T B C : Type*}

/-! ## The steps that mislead a worker -/

/-- The task's code has come to its end. -/
def exits : TaskPc T B C → Bool
  | .exit => true
  | _ => false

/-- The task whose code the worker runs, and whether it switches away from it next, at its end. -/
def runs : WorkerPc T B C → Option (T × Bool)
  | .exec t (.swap next) => some (t, exits next)
  | .exec t _ => some (t, false)
  | _ => none

/-- The task whose state the waker sets to `READY` next. -/
def readies : WakerPc T B C → Option T
  | .butex _ (.storeReady _ x _) | .butex _ (.submit _ x _) | .storeReady _ _ x | .submit _ _ x => some x.1
  | .submitNew t => some t
  | _ => none

/-- The timeout callback sets the task's state to `READY` next. -/
def TimerReadies : TimerPc → Bool
  | .storeReady | .submit => true
  | _ => false

/-- The task whose state the step sets to `READY` (a waker, a timeout callback) or to `RUNNING` (a worker). -/
def restarts (s : Worker.State W E T B C) : Worker.Label W E T B C → Option T
  | .worker w =>
    match s.worker w with
    | .setRunning t => some t
    | pc => pc.waker.bind readies
  | .thread e => (s.thread e).bind readies
  | .timer t n => if (s.mem.timer t n).any TimerReadies then some t else none
  | _ => none

/-- The task that the worker switches to next. -/
def switches : WorkerPc T B C → Option T
  | .swapIn t => some t
  | _ => none

/-- The task whose state `HandleTaskAfterRun` loads next. -/
def handles : WorkerPc T B C → Option T
  | .handle t => some t
  | _ => none

/-- The steps that lead to a bthread being finished twice, or not at all. -/
def Misled (s : State W E T B C) : Label W E T B C → Prop
  | .base l =>
    -- a worker switches to a task that another worker still runs, or that is over
    (∃ w t, reader l = some w ∧ switches (s.base.worker w) = some t ∧
      ((∃ v x, runs (s.base.worker v) = some (t, x)) ∨ exits (s.base.mem.context t) = true)) ∨
    -- `READY` or `RUNNING` is stored over `FINISHED`
    (∃ t, restarts s.base l = some t ∧ s.base.mem.taskState t = .finished) ∨
    -- a worker finds `FINISHED` after another one has switched to the task
    ∃ w t, reader l = some w ∧ handles (s.base.worker w) = some t ∧ s.resumed w = true ∧
      s.base.mem.taskState t = .finished
  | _ => False

instance [Fintype W] [Fintype T] [DecidableEq W] [DecidableEq T] (s : State W E T B C) :
    ∀ l : Label W E T B C, Decidable (Misled s l)
  | .base _ => inferInstanceAs (Decidable (_ ∨ _ ∨ _))
  | .finish _ | .join _ | .detach _ | .joiner _ => inferInstanceAs (Decidable False)

/-! ## What a step of the workers changes -/

section Changes

variable [DecidableEq W] [DecidableEq E] [DecidableEq T] [DecidableEq B] [DecidableEq C]

omit [DecidableEq W] [DecidableEq B] [DecidableEq C] in
/-- The state of one task is stored. -/
theorem setState_cases (m : Mem W T B C) (u : T) (x : TaskState) (t : T) :
    (m.setState u x).taskState t = m.taskState t ∨ (m.setState u x).taskState t = x ∧ u = t := by
  by_cases hu : t = u
  · exact Or.inr ⟨by simp [Mem.setState, hu], hu.symm⟩
  · exact Or.inl (by simp [Mem.setState, hu])

omit [DecidableEq W] [DecidableEq B] [DecidableEq C] in
theorem setState_unfinished (m : Mem W T B C) (t : T) {x : TaskState} (hx : x ≠ .finished) (u : T) :
    (m.setState t x).taskState u = m.taskState u ∨ (m.setState t x).taskState u ≠ .finished ∧ u = t := by
  obtain hs | ⟨hs, rfl⟩ := setState_cases m t x u
  · exact Or.inl hs
  · exact Or.inr ⟨hs.trans_ne hx, rfl⟩

theorem wakerStep_state (m : Mem W T B C) (p : Worker.Place W) (pc : WakerPc T B C) (t : T) :
    (m.wakerStep p pc).1.taskState t = m.taskState t ∨
      (m.wakerStep p pc).1.taskState t = .ready ∧ readies pc = some t := by
  have hset : ∀ u, (m.setState u .ready).taskState t = m.taskState t ∨
      (m.setState u .ready).taskState t = .ready ∧ u = t := fun u => setState_cases m u .ready t
  cases pc with
  | storeReady c all x | submit c all x => exact (hset x.1).imp_right fun h => ⟨h.1, congrArg some h.2⟩
  | submitNew u => exact (hset u).imp_right fun h => ⟨h.1, congrArg some h.2⟩
  | popWaiter c all =>
    left
    simp only [Mem.wakerStep]
    split <;> rfl
  | setFlag | push | pushNew => exact Or.inl rfl
  | butex b pc =>
    cases pc with
    | storeReady l x rest | submit l x rest => exact (hset x.1).imp_right fun h => ⟨h.1, congrArg some h.2⟩
    | pop l batch =>
      left
      simp only [Mem.wakerStep, Mem.butexStep]
      split <;> rfl
    | cancel l x rest =>
      left
      simp only [Mem.wakerStep, Mem.butexStep]
      split_ifs <;> rfl
    | _ => exact Or.inl rfl

omit [DecidableEq B] [DecidableEq C] in
theorem timerStep_state {m m' : Mem W T B C} {u : T} {n : ℕ} {pc : TimerPc} (h : m.timerStep u n pc = some m') (t : T) :
    m'.taskState t = m.taskState t ∨ m'.taskState t = .ready ∧ TimerReadies pc = true ∧ u = t := by
  have hset : ∀ pc', ((m.setState u .ready).setTimer u n pc').taskState t = m.taskState t ∨
      ((m.setState u .ready).setTimer u n pc').taskState t = .ready ∧ u = t := fun _ => setState_cases m u .ready t
  cases pc with
  | storeReady | submit =>
    cases h
    exact (hset _).imp_right fun h => ⟨h.1, rfl, h.2⟩
  | claim | remove =>
    left
    simp only [Mem.timerStep] at h
    split_ifs at h <;> cases h <;> rfl
  | _ => cases h <;> exact Or.inl rfl

omit [DecidableEq C] in
theorem waitStep_state (m : Mem W T B C) (p : Worker.Place W) (t : T) (b : B) (call : Butex.Call) (pc : Butex.WaitPc)
    (u : T) :
    (m.waitStep p t b call pc).1.taskState u = m.taskState u ∨
      (m.waitStep p t b call pc).1.taskState u ≠ .finished ∧ u = t := by
  cases pc with
  | submit => exact setState_unfinished m t (by decide) u
  | suspend saved | takeBack =>
    simp only [Mem.waitStep]
    split_ifs
    · exact setState_unfinished m t (by decide) u
    · exact Or.inl rfl
  | setWaiting =>
    left
    simp only [Mem.waitStep]
    split_ifs <;> rfl
  | enqueue =>
    left
    simp only [Mem.waitStep, Mem.addWaiter]
    split_ifs <;> rfl
  | _ => exact Or.inl rfl

/-- What a task's own code does to the states of the tasks, short of its end. -/
theorem taskStep_state {m m' : Mem W T B C} {w : W} {t : T} {c c' : TaskPc T B C}
    (h : m.taskStep w t c = some (m', c')) (hexit : c ≠ .exit) (hwake : ∀ k, c ≠ .wake k) (u : T) :
    m'.taskState u = m.taskState u ∨ m'.taskState u ≠ .finished ∧ u = t := by
  cases c with
  | user | swap => cases h
  | exit => exact absurd rfl hexit
  | wake k => exact absurd rfl (hwake k)
  | wait b call pc =>
    obtain rfl : (m.waitStep (.localQueue w) t b call pc).1 = m' := congrArg Prod.fst (Option.some.inj h)
    exact waitStep_state m _ t b call pc u
  | park | yieldReady =>
    cases h
    exact setState_unfinished m t (by decide) u
  | yieldFlush =>
    cases h
    left
    simp only [Mem.flush]
    split_ifs <;> rfl
  | _ =>
    cases h
    exact Or.inl rfl

/-- Only the end of a task switches away from it for good. -/
theorem taskStep_over {m m' : Mem W T B C} {w : W} {t : T} {c next : TaskPc T B C}
    (h : m.taskStep w t c = some (m', .swap next)) (hexit : c ≠ .exit) : exits next = false := by
  obtain ⟨b, call, rfl⟩ | rfl | ⟨hc, -⟩ := Worker.taskStep_swap h
  · rfl
  · rfl
  · exact absurd hc hexit

/-- `PickTask`, or what is left of `HandleFinishedBthread` before it. -/
def Idle : WorkerPc T B C → Prop
  | .pick | .finishing _ => True
  | _ => False

/-- The next access of the worker is no switch and not `HandleTaskAfterRun`. -/
def Plain : WorkerPc T B C → Prop
  | .swapIn _ | .exec _ (.swap _) | .handle _ => False
  | _ => True

/-- What a step of the workers does to the tasks that they run, have left, and have ended. -/
inductive Changed (s : Worker.State W E T B C) : Worker.Label W E T B C → Worker.State W E T B C → Prop
  | quiet (l : Worker.Label W E T B C) (s' : Worker.State W E T B C)
      (same_runs : ∀ v, runs (s'.worker v) = runs (s.worker v))
      (same_away : ∀ v, away (s'.worker v) = away (s.worker v))
      (context : s'.mem.context = s.mem.context)
      (state : ∀ t, s'.mem.taskState t = s.mem.taskState t ∨ s'.mem.taskState t ≠ .finished ∧
        (restarts s l = some t ∨ ∃ v, runs (s.worker v) = some (t, false)))
      (plain : ∀ w, reader l = some w → Plain (s.worker w))
      (idle : ∀ v, picker l ≠ some v → Idle (s.worker v) → Idle (s'.worker v)) : Changed s l s'
  | swapIn (w : W) (t : T) (at_ : s.worker w = .swapIn t) :
      Changed s (.worker w) (s.goto s.mem w (.exec t (s.mem.context t)))
  | swap (w : W) (t : T) (next : TaskPc T B C) (at_ : s.worker w = .exec t (.swap next)) :
      Changed s (.worker w) (s.goto { s.mem with context := Function.update s.mem.context t next } w (.swapped t))
  | ends (w : W) (t : T) (at_ : s.worker w = .exec t .exit) :
      Changed s (.worker w) (s.goto (s.mem.setState t .finished) w (.exec t (.swap .exit)))
  | handled (l : Worker.Label W E T B C) (w : W) (t : T) (pc : WorkerPc T B C) (at_ : s.worker w = .handle t)
      (reads : reader l = some w) (idle : Idle pc) : Changed s l (s.goto s.mem w pc)

variable {s s' : Worker.State W E T B C} {l : Worker.Label W E T B C}

omit [DecidableEq E] [DecidableEq B] [DecidableEq C] in
/-- A worker goes on with what it does. -/
theorem quiet_goto {m : Mem W T B C} {w : W} {pc pc' : WorkerPc T B C} (hw : s.worker w = pc) (hplain : Plain pc)
    (hl : ∀ v, reader l = some v → v = w) (hruns : runs pc' = runs pc) (haway : away pc' = away pc)
    (hidle : picker l = some w ∨ (Idle pc → Idle pc')) (hc : m.context = s.mem.context)
    (hst : ∀ t, m.taskState t = s.mem.taskState t ∨ m.taskState t ≠ .finished ∧
      (restarts s l = some t ∨ ∃ v, runs (s.worker v) = some (t, false))) : Changed s l (s.goto m w pc') := by
  have hother : ∀ v, v ≠ w → (s.goto m w pc').worker v = s.worker v := fun v hv => by rw [Worker.goto_worker, if_neg hv]
  have hself : (s.goto m w pc').worker w = pc' := by rw [Worker.goto_worker, if_pos rfl]
  refine .quiet l _ (fun v => ?_) (fun v => ?_) hc hst (fun v hv => ?_) fun v hpick hv => ?_
  · by_cases h : v = w
    · rw [h, hself, hw, hruns]
    · rw [hother v h]
  · by_cases h : v = w
    · rw [h, hself, hw, haway]
    · rw [hother v h]
  · rw [hl v hv, hw]
    exact hplain
  · by_cases h : v = w
    · subst h
      rw [hself]
      exact hidle.resolve_left hpick (hw ▸ hv)
    · rwa [hother v h]

omit [DecidableEq E] [DecidableEq B] [DecidableEq C] in
/-- The workers stay where they are. -/
theorem quiet_same (hw : s'.worker = s.worker) (hl : reader l = none) (hc : s'.mem.context = s.mem.context)
    (hst : ∀ t, s'.mem.taskState t = s.mem.taskState t ∨ s'.mem.taskState t ≠ .finished ∧ restarts s l = some t) :
    Changed s l s' := by
  refine .quiet l _ (fun v => by rw [hw]) (fun v => by rw [hw]) hc (fun t => ?_) (fun v hv => ?_) fun v _ hv => ?_
  · exact (hst t).imp_right fun h => ⟨h.1, Or.inl h.2⟩
  · rw [hl] at hv
    cases hv
  · rwa [hw]

omit [DecidableEq W] [DecidableEq B] [DecidableEq C] in
theorem startWaking_state {m m' : Mem W T B C} {k : Waking T B C} (h : m.startWaking k = some m') :
    m'.taskState = m.taskState := by
  cases k with
  | create t =>
    simp only [Mem.startWaking] at h
    split_ifs at h
    cases h
    rfl
  | _ => cases h; rfl

omit [DecidableEq W] [DecidableEq B] [DecidableEq C] in
theorem startWaiting_state (m : Mem W T B C) (t : T) (k : Worker.Waiting B C) :
    (m.startWaiting t k).1.taskState = m.taskState ∧ (m.startWaiting t k).1.context = m.context ∧
      runs (WorkerPc.exec t (m.startWaiting t k).2) = some (t, false) := by
  cases k <;> exact ⟨rfl, rfl, rfl⟩

omit [DecidableEq E] [DecidableEq B] [DecidableEq C] in
/-- `PickTask` returns a task. -/
theorem pickLast_changed {w : W} {m : Mem W T B C} {q : List T} (h : s.pickLast m w q = some s')
    (hw : s.worker w = .pick) (hl : picker l = some w) (hr : reader l = none) (hc : m.context = s.mem.context)
    (hst : m.taskState = s.mem.taskState) : Changed s l s' := by
  obtain ⟨t, _, rfl⟩ := Option.map_eq_some_iff.mp h
  refine quiet_goto hw trivial ?_ rfl rfl (Or.inl hl) hc fun u => Or.inl (congrFun hst u)
  intro v hv
  rw [hr] at hv
  cases hv

omit [DecidableEq W] [DecidableEq E] [DecidableEq T] [DecidableEq B] [DecidableEq C] in
theorem restarts_waker {a : W ⊕ E} {pc : WakerPc T B C} (ha : s.waker a = some pc) :
    restarts s (a.elim .worker .thread) = readies pc := by
  cases a with
  | inl w =>
    simp only [Worker.State.waker] at ha
    simp only [Sum.elim_inl, restarts]
    split
    · next hw =>
      rw [hw] at ha
      cases ha
    · rw [ha]
      rfl
  | inr e =>
    simp only [Worker.State.waker] at ha
    simp only [Sum.elim_inr, restarts, ha]
    rfl

omit [DecidableEq E] in
/-- A waker stores nothing but `READY`. -/
theorem waker_changed {a : W ⊕ E} {pc : WakerPc T B C} (ha : s.waker a = some pc) (p : Worker.Place W) (t : T) :
    (s.mem.wakerStep p pc).1.taskState t = s.mem.taskState t ∨ (s.mem.wakerStep p pc).1.taskState t ≠ .finished ∧
      restarts s (a.elim .worker .thread) = some t := by
  refine (wakerStep_state s.mem p pc t).imp_right fun h => ⟨?_, (restarts_waker ha).trans h.2⟩
  rw [h.1]
  decide

omit [DecidableEq E] in
/-- The access of a worker. -/
theorem access_changed {w : W} (h : s.access w (s.worker w) = some s') : Changed s (.worker w) s' := by
  have hl : ∀ v, reader (.worker w : Worker.Label W E T B C) = some v → v = w := fun v hv => by cases hv; rfl
  cases hw : s.worker w with
  | pick => rw [hw] at h; cases h
  | setCurrent t | swapped t =>
    rw [hw] at h
    cases h
    exact quiet_goto hw trivial hl rfl rfl (Or.inr fun hi => by cases hi) rfl fun u => Or.inl rfl
  | setRunning t =>
    rw [hw] at h
    cases h
    refine quiet_goto hw trivial hl rfl rfl (Or.inr fun hi => by cases hi) rfl fun u => ?_
    by_cases hu : u = t
    · subst hu
      exact Or.inr ⟨by simp [Mem.setState], Or.inl (by simp [restarts, hw])⟩
    · exact Or.inl (by simp [Mem.setState, hu])
  | swapIn t => rw [hw] at h; cases h; exact .swapIn w t hw
  | handle t => rw [hw] at h; cases h; exact .handled _ w t .pick hw rfl trivial
  | finishing pc =>
    rw [hw] at h
    cases h
    have hsame := Worker.wakerStep_same (m := s.mem) (p := .localQueue w) pc
    have hwaker : s.waker (.inl w) = some pc := by simp [Worker.State.waker, hw, WorkerPc.waker]
    have hst := waker_changed hwaker
    refine quiet_goto hw trivial hl ?_ ?_ (Or.inr fun _ => ?_) hsame.context
      fun u => (hst _ u).imp_right fun h => ⟨h.1, Or.inl h.2⟩
    · cases (s.mem.wakerStep (.localQueue w) pc).2 <;> rfl
    · cases (s.mem.wakerStep (.localQueue w) pc).2 <;> rfl
    · cases (s.mem.wakerStep (.localQueue w) pc).2 <;> trivial
  | exec t c =>
    rw [hw] at h
    cases hc : c with
    | swap next => subst hc; cases h; exact .swap w t next hw
    | exit => subst hc; cases h; exact .ends w t hw
    | wake k =>
      subst hc
      cases h
      have hsame := Worker.wakerStep_same (m := s.mem) (p := .localQueue w) k
      have hwaker : s.waker (.inl w) = some k := by simp [Worker.State.waker, hw, WorkerPc.waker]
      have hst := waker_changed hwaker
      refine quiet_goto hw trivial hl ?_ ?_ (Or.inr fun hi => by cases hi) hsame.context
        fun u => (hst _ u).imp_right fun h => ⟨h.1, Or.inl h.2⟩
      · cases (s.mem.wakerStep (.localQueue w) k).2 <;> rfl
      · cases (s.mem.wakerStep (.localQueue w) k).2 <;> rfl
    | _ =>
      subst hc
      simp only [Worker.State.access] at h
      obtain ⟨⟨m, c'⟩, hr, rfl⟩ := Option.map_eq_some_iff.mp h
      have hst := taskStep_state hr (by simp) (by simp)
      refine quiet_goto hw trivial hl ?_ rfl (Or.inr fun hi => by cases hi) (Worker.taskStep_same hr).context
        fun u => (hst u).imp_right fun h => ⟨h.1, Or.inr ⟨w, ?_⟩⟩
      · cases hc' : c' with
        | swap next =>
          subst hc'
          simp [runs, taskStep_over hr (by simp)]
        | _ => rfl
      · rw [hw, h.2]
        rfl

/-- **What a step of the workers changes.** -/
theorem changed (h : Worker.step s l = some s') : Changed s l s' := by
  cases l with
  | pickBatch w =>
    simp only [Worker.step] at h
    split at h
    · next hw => exact pickLast_changed h hw rfl rfl rfl rfl
    · cases h
  | pickLocal w =>
    simp only [Worker.step] at h
    split at h
    · next hw _ => exact pickLast_changed h hw rfl rfl rfl rfl
    · cases h
  | pickGlobal w t =>
    simp only [Worker.step] at h
    split at h
    · next hw =>
      split_ifs at h
      cases h
      exact quiet_goto hw trivial (fun v hv => by cases hv) rfl rfl (Or.inl rfl) rfl fun u => Or.inl rfl
    · cases h
  | steal w v =>
    simp only [Worker.step] at h
    split at h
    · next hw _ =>
      split_ifs at h
      cases h
      exact quiet_goto hw trivial (fun v hv => by cases hv) rfl rfl (Or.inl rfl) rfl fun u => Or.inl rfl
    · cases h
  | worker w => exact access_changed h
  | call w k =>
    simp only [Worker.step] at h
    split at h
    · next t hw =>
      cases h
      obtain ⟨hst, hc, hr⟩ := startWaiting_state s.mem t k
      exact quiet_goto hw trivial (fun v hv => by cases hv) hr rfl (Or.inr fun hi => by cases hi) hc
        fun u => Or.inl (congrFun hst u)
    · cases h
  | wake w k =>
    simp only [Worker.step] at h
    split at h
    · next t hw =>
      obtain ⟨m, hm, rfl⟩ := Option.map_eq_some_iff.mp h
      exact quiet_goto hw trivial (fun v hv => by cases hv) rfl rfl (Or.inr fun hi => by cases hi)
        (Worker.startWaking_same hm).2.1 fun u => Or.inl (congrFun (startWaking_state hm) u)
    · cases h
  | joined w b v count =>
    simp only [Worker.step] at h
    split at h
    · next t hw =>
      split_ifs at h
      cases h
      exact .handled _ w t _ hw rfl trivial
    · cases h
  | threadWake e k =>
    simp only [Worker.step] at h
    split at h
    · obtain ⟨m, hm, rfl⟩ := Option.map_eq_some_iff.mp h
      exact quiet_same rfl rfl (Worker.startWaking_same hm).2.1 fun u => Or.inl (congrFun (startWaking_state hm) u)
    · cases h
  | thread e =>
    obtain ⟨pc, he, rfl⟩ := Option.map_eq_some_iff.mp h
    exact quiet_same rfl rfl (Worker.wakerStep_same pc).context (waker_changed (a := .inr e) he .global)
  | fire t n =>
    simp only [Worker.step] at h
    split_ifs at h
    cases h
    exact quiet_same rfl rfl rfl fun u => Or.inl rfl
  | timer t n =>
    obtain ⟨m, hm, rfl⟩ := Option.map_eq_some_iff.mp h
    obtain ⟨pc, hpc, ha⟩ := Option.bind_eq_some_iff.mp hm
    refine quiet_same rfl rfl (Worker.timerStep_same ha).context fun u => (timerStep_state ha u).imp_right fun h => ?_
    obtain ⟨hready, htimer, rfl⟩ := h
    exact ⟨by simp only [hready]; decide, by simp [restarts, hpc, htimer]⟩

end Changes

/-! ## Where the end of a bthread is -/

/-- A place where the end of a bthread is, from the store of `FINISHED` on. -/
inductive End (W : Type*)
  | running (w : W)  -- the worker is going to switch away from it
  | left (w : W)  -- the worker has switched away, and nobody has switched to it since
  | done  -- `HandleFinishedBthread`

section Ends

variable [DecidableEq T]

def State.ends (s : State W E T B C) (t : T) : End W → ℕ
  | .running w => if runs (s.base.worker w) = some (t, true) then 1 else 0
  | .left w =>
    if (away (s.base.worker w) = some t ∧ s.resumed w = false) ∧ exits (s.base.mem.context t) = true then 1 else 0
  | .done => s.finished t

/-- A bthread has at most one end, its state is `FINISHED` from then on, and it has been left for good only then. -/
structure Inv (s : State W E T B C) (t : T) : Prop where
  once : Once (s.ends t)
  alone : ∀ v w x y, runs (s.base.worker v) = some (t, x) → runs (s.base.worker w) = some (t, y) → v = w
  code : ∀ w, runs (s.base.worker w) = some (t, false) → ∀ e, s.ends t e = 0
  saved : 0 < s.finished t → exits (s.base.mem.context t) = true
  exited : exits (s.base.mem.context t) = true → ∃ e, 0 < s.ends t e
  marked : s.base.mem.taskState t = .finished ↔ ∃ e, 0 < s.ends t e
  apart : ∀ v w x, away (s.base.worker v) = some t → s.resumed v = false → runs (s.base.worker w) ≠ some (t, x)

variable {s s' : State W E T B C} {t : T}

theorem ends_running {w : W} (h : runs (s.base.worker w) = some (t, true)) : 0 < s.ends t (.running w) := by
  simp [State.ends, h]

theorem ends_left {w : W} (ha : away (s.base.worker w) = some t) (hr : s.resumed w = false)
    (ho : exits (s.base.mem.context t) = true) : 0 < s.ends t (.left w) := by
  simp [State.ends, ha, hr, ho]

theorem running_zero {w : W} (h : runs (s.base.worker w) ≠ some (t, true)) : s.ends t (.running w) = 0 := if_neg h

theorem left_zero {w : W} (h : exits (s.base.mem.context t) = false) : s.ends t (.left w) = 0 :=
  if_neg fun hw => by rw [h] at hw; cases hw.2

theorem runs_of_ends {w : W} (h : 0 < s.ends t (.running w)) : runs (s.base.worker w) = some (t, true) := by
  by_contra hn
  exact h.ne' (running_zero hn)

theorem exits_of_ends {w : W} (h : 0 < s.ends t (.left w)) : exits (s.base.mem.context t) = true := by
  by_contra hn
  exact h.ne' (left_zero (Bool.eq_false_of_not_eq_true hn))

theorem left_le_one {w : W} : s.ends t (.left w) ≤ 1 := by
  simp only [State.ends]
  split_ifs <;> omega

/-- The bthread is run, left and ended by the same workers. -/
structure Same (s s' : State W E T B C) (t : T) : Prop where
  runs : ∀ v x, runs (s'.base.worker v) = some (t, x) ↔ runs (s.base.worker v) = some (t, x)
  left : ∀ v, away (s'.base.worker v) = some t ∧ s'.resumed v = false ↔
    away (s.base.worker v) = some t ∧ s.resumed v = false
  context : s'.base.mem.context t = s.base.mem.context t
  finished : s'.finished t = s.finished t

theorem Same.ends (h : Same s s' t) : s'.ends t = s.ends t := by
  funext e
  cases e with
  | running w => simp only [State.ends, h.runs]
  | left w => simp only [State.ends, h.left, h.context]
  | done => exact h.finished

theorem Inv.same (h : Inv s t) (hsame : Same s s' t)
    (hst : s'.base.mem.taskState t = .finished ↔ s.base.mem.taskState t = .finished) : Inv s' t := by
  refine ⟨?_, ?_, ?_, ?_, ?_, ?_, ?_⟩
  · rw [hsame.ends]
    exact h.once
  · intro v w x y hv hw
    exact h.alone v w x y ((hsame.runs v x).mp hv) ((hsame.runs w y).mp hw)
  · intro w hw
    rw [hsame.ends]
    exact h.code w ((hsame.runs w false).mp hw)
  · rw [hsame.finished, hsame.context]
    exact h.saved
  · rw [hsame.ends, hsame.context]
    exact h.exited
  · rw [hsame.ends, hst]
    exact h.marked
  · intro v w x ha hr hw
    obtain ⟨ha', hr'⟩ := (hsame.left v).mp ⟨ha, hr⟩
    exact h.apart v w x ha' hr' ((hsame.runs w x).mp hw)

/-- A bthread that has no end. -/
theorem inv_none (hzero : ∀ e, s.ends t e = 0)
    (halone : ∀ v w x y, runs (s.base.worker v) = some (t, x) → runs (s.base.worker w) = some (t, y) → v = w)
    (hover : exits (s.base.mem.context t) = false) (hst : s.base.mem.taskState t ≠ .finished)
    (hapart : ∀ v w x, away (s.base.worker v) = some t → s.resumed v = false →
      runs (s.base.worker w) ≠ some (t, x)) : Inv s t where
  once := Once.insert (b := .done) hzero (by rw [hzero]; omega) fun e _ => le_rfl
  alone := halone
  code _ _ := hzero
  saved hf := absurd (hzero .done) hf.ne'
  exited ho := by rw [hover] at ho; cases ho
  marked := iff_of_false hst fun ⟨e, he⟩ => he.ne' (hzero e)
  apart := hapart

/-- A bthread that has one. -/
theorem inv_some {e : End W} (he : 0 < s.ends t e) (honce : Once (s.ends t))
    (halone : ∀ v w x y, runs (s.base.worker v) = some (t, x) → runs (s.base.worker w) = some (t, y) → v = w)
    (hcode : ∀ w, runs (s.base.worker w) ≠ some (t, false))
    (hsaved : 0 < s.finished t → exits (s.base.mem.context t) = true) (hst : s.base.mem.taskState t = .finished)
    (hapart : ∀ v w x, away (s.base.worker v) = some t → s.resumed v = false →
      runs (s.base.worker w) ≠ some (t, x)) : Inv s t where
  once := honce
  alone := halone
  code w hw := absurd hw (hcode w)
  saved := hsaved
  exited _ := ⟨e, he⟩
  marked := iff_of_true hst ⟨e, he⟩
  apart := hapart

/-- The worker has nothing to do with the bthread. -/
def Off (pc : WorkerPc T B C) (t : T) : Prop := (∀ x, runs pc ≠ some (t, x)) ∧ away pc ≠ some t

omit [DecidableEq T] in
/-- A worker goes on that has nothing to do with the bthread. -/
theorem same_off [DecidableEq W] {w : W} {pc' : WorkerPc T B C}
    (hb : s'.base.worker = Function.update s.base.worker w pc') (hpc : Off (s.base.worker w) t) (hpc' : Off pc' t)
    (hres : ∀ v, v ≠ w → away (s.base.worker v) = some t → s'.resumed v = s.resumed v)
    (hc : s'.base.mem.context t = s.base.mem.context t) (hf : s'.finished t = s.finished t) : Same s s' t := by
  refine ⟨fun v x => ?_, fun v => ?_, hc, hf⟩
  · rw [hb]
    by_cases hv : v = w
    · subst hv
      rw [Function.update_self]
      exact iff_of_false (hpc'.1 x) (hpc.1 x)
    · rw [Function.update_of_ne hv]
  · rw [hb]
    by_cases hv : v = w
    · subst hv
      rw [Function.update_self]
      exact iff_of_false (fun h => hpc'.2 h.1) fun h => hpc.2 h.1
    · rw [Function.update_of_ne hv]
      exact and_congr_right fun ha => by rw [hres v hv ha]

end Ends

/-! ## What a step does to the end of a bthread -/

section Kept

variable [DecidableEq W] [DecidableEq E] [DecidableEq T] [DecidableEq B] [DecidableEq C]
variable {s s' : State W E T B C} {t u : T} {w : W}

omit [DecidableEq E] [DecidableEq B] [DecidableEq C] in
/-- A switch to the bthread's context, which nobody else runs and which is not over. -/
theorem Inv.swapIn (h : Inv s t) (hw : s.base.worker w = .swapIn u) (hok : ¬Misled s (.base (.worker w)))
    (hsaved : (s.base.mem.context u).Saved) :
    Inv { s.note w with base := s.base.goto s.base.mem w (.exec u (s.base.mem.context u)) } t := by
  have hexec : runs (WorkerPc.exec u (s.base.mem.context u)) = some (u, false) := by
    cases hc : s.base.mem.context u with
    | swap next => rw [hc] at hsaved; cases hsaved
    | _ => rfl
  have hfree : ∀ v x, runs (s.base.worker v) ≠ some (u, x) := fun v x hv =>
    hok (Or.inl ⟨w, u, rfl, by rw [hw]; rfl, Or.inl ⟨v, x, hv⟩⟩)
  have hover : exits (s.base.mem.context u) = false := by
    by_contra ho
    exact hok (Or.inl ⟨w, u, rfl, by rw [hw]; rfl, Or.inr (Bool.eq_true_of_not_eq_false ho)⟩)
  simp only [State.note, hw]
  by_cases hut : u = t
  · subst hut
    -- nobody ran the bthread, and it had no end
    have hnotdone : s.finished u = 0 := by
      by_contra hne
      rw [h.saved (Nat.pos_of_ne_zero hne)] at hover
      cases hover
    have hnoend : ∀ e, s.ends u e = 0 := by
      intro e
      cases e with
      | running v => exact running_zero (hfree v true)
      | left v => exact left_zero hover
      | done => exact hnotdone
    have honly : ∀ v x, runs ((s.base.goto s.base.mem w (.exec u (s.base.mem.context u))).worker v) = some (u, x) →
        v = w ∧ x = false := by
      intro v x hv
      rw [Worker.goto_worker] at hv
      split_ifs at hv with hvw
      · rw [hexec] at hv
        cases hv
        exact ⟨hvw, rfl⟩
      · exact absurd hv (hfree v x)
    refine inv_none (fun e => ?_) (fun v v' x y hv hv' => ?_) hover (fun hst => ?_) fun v v' x ha hr hv' => ?_
    · cases e with
      | running v => exact running_zero fun hv => by cases (honly v true hv).2
      | left v => exact left_zero hover
      | done => exact hnotdone
    · exact (honly v x hv).1.trans (honly v' y hv').1.symm
    · obtain ⟨e, he⟩ := h.marked.mp hst
      exact he.ne' (hnoend e)
    · -- who has left the bthread before finds that it is resumed now
      rw [Worker.goto_worker] at ha
      split_ifs at ha with hvw
      · cases ha
      · simp [hvw, ha] at hr
  · refine h.same (same_off rfl ?_ ?_ ?_ rfl rfl) Iff.rfl
    · rw [hw]
      exact ⟨fun x hx => (by cases hx), fun hx => by cases hx⟩
    · exact ⟨fun x hx => hut (by rw [hexec] at hx; cases hx; rfl), fun hx => by cases hx⟩
    · intro v _ ha
      simp [ha, Ne.symm hut]

omit [DecidableEq E] [DecidableEq B] [DecidableEq C] in
/-- A switch away from the bthread, at its end or before. -/
theorem Inv.swap {next : TaskPc T B C} (h : Inv s t) (hw : s.base.worker w = .exec u (.swap next)) :
    Inv { s.note w with
      base := s.base.goto { s.base.mem with context := Function.update s.base.mem.context u next } w (.swapped u) }
      t := by
  simp only [State.note, hw]
  by_cases hut : u = t
  · subst hut
    have hrun : runs (s.base.worker w) = some (u, exits next) := by rw [hw]; rfl
    have hgone : ∀ v x, runs ((s.base.goto { s.base.mem with context := Function.update s.base.mem.context u next } w
        (.swapped u)).worker v) ≠ some (u, x) := by
      intro v x hv
      rw [Worker.goto_worker] at hv
      split_ifs at hv with hvw
      · cases hv
      · exact hvw (h.alone v w x _ hv hrun)
    cases ho : exits next with
    | false =>
      rw [ho] at hrun
      have hnoend := h.code w hrun
      refine inv_none (fun e => ?_) (fun v v' x y hv _ => absurd hv (hgone v x)) ?_ (fun hst => ?_)
        fun v v' x _ _ => hgone v' x
      · cases e with
        | running v => exact running_zero (hgone v true)
        | left v => exact left_zero (by simpa using ho)
        | done => exact hnoend .done
      · simpa using ho
      · obtain ⟨e, he⟩ := h.marked.mp hst
        exact he.ne' (hnoend e)
    | true =>
      rw [ho] at hrun
      have hpos := ends_running hrun
      -- the end goes from `running w` to `left w`
      have hleft : ∀ v, v ≠ w → away (s.base.worker v) = some u → s.resumed v = true := by
        intro v _ ha
        by_contra hr
        exact h.apart v w true ha (Bool.eq_false_of_not_eq_true hr) hrun
      have hself : exits (Function.update s.base.mem.context u next u) = true := by rwa [Function.update_self]
      refine inv_some (e := .left w) (ends_left ?_ (Function.update_self ..) hself)
        (h.once.move (a := .running w) (b := .left w) (by simp) ?_ fun e he he' => ?_)
        (fun v v' x y hv _ => absurd hv (hgone v x)) (fun v => hgone v false) (fun _ => hself)
        (h.marked.mpr ⟨_, hpos⟩) fun v v' x _ _ => hgone v' x
      · rw [Worker.goto_worker, if_pos rfl]
        rfl
      · rw [running_zero (hgone w true), Nat.zero_add]
        exact left_le_one.trans (le_add_right hpos)
      · cases e with
        | running v => exact (running_zero (hgone v true)).trans_le (Nat.zero_le _)
        | left v =>
          have hv : v ≠ w := fun hv => he' (by rw [hv])
          simp only [State.ends, Worker.goto_worker, if_neg hv, Function.update_of_ne hv]
          rw [if_neg fun ha => by rw [hleft v hv ha.1.1] at ha; cases ha.1.2]
          exact Nat.zero_le _
        | done => exact le_rfl
  · refine h.same (same_off rfl ?_ ?_ ?_ ?_ rfl) Iff.rfl
    · rw [hw]
      exact ⟨fun x hx => hut (by cases hx; rfl), fun hx => by cases hx⟩
    · exact ⟨fun x hx => (by cases hx), fun hx => hut (by cases hx; rfl)⟩
    · intro v hv _
      exact Function.update_of_ne hv _ _
    · exact Function.update_of_ne (Ne.symm hut) _ _

omit [DecidableEq E] [DecidableEq B] [DecidableEq C] in
/-- The store of `FINISHED`. -/
theorem Inv.ends (h : Inv s t) (hw : s.base.worker w = .exec u .exit) :
    Inv { s.note w with base := s.base.goto (s.base.mem.setState u .finished) w (.exec u (.swap .exit)) } t := by
  simp only [State.note, hw]
  by_cases hut : u = t
  · subst hut
    have hrun : runs (s.base.worker w) = some (u, false) := by rw [hw]; rfl
    have hnoend := h.code w hrun
    have honly : ∀ v x, runs ((s.base.goto (s.base.mem.setState u .finished) w (.exec u (.swap .exit))).worker v) =
        some (u, x) → v = w ∧ x = true := by
      intro v x hv
      rw [Worker.goto_worker] at hv
      split_ifs at hv with hvw
      · cases hv
        exact ⟨hvw, rfl⟩
      · exact absurd (h.alone v w x _ hv hrun) hvw
    have hrun' : runs ((s.base.goto (s.base.mem.setState u .finished) w (.exec u (.swap .exit))).worker w) =
        some (u, true) := by
      rw [Worker.goto_worker, if_pos rfl]
      rfl
    -- nobody has left the bthread for good
    have hnotleft : ∀ v, away ((s.base.goto (s.base.mem.setState u .finished) w (.exec u (.swap .exit))).worker v) =
        some u → s.resumed v ≠ false := by
      intro v ha hr
      rw [Worker.goto_worker] at ha
      split_ifs at ha
      · cases ha
      · exact h.apart v w false ha hr hrun
    refine inv_some (e := .running w) (ends_running hrun') (Once.insert hnoend (b := .running w) ?_ fun e he => ?_)
      (fun v v' x y hv hv' => (honly v x hv).1.trans (honly v' y hv').1.symm) (fun v hv => by cases (honly v _ hv).2)
      h.saved (by simp [Mem.setState]) fun v v' x ha hr _ => hnotleft v ha hr
    · exact (if_pos hrun').le
    · cases e with
      | running v =>
        rw [running_zero fun hv => he (by rw [(honly v true hv).1])]
        exact Nat.zero_le _
      | left v => exact (if_neg fun ha => hnotleft v ha.1.1 ha.1.2).trans_le (Nat.zero_le _)
      | done => exact le_rfl
  · refine h.same (same_off rfl ?_ ?_ (fun _ _ _ => rfl) rfl rfl) ?_
    · rw [hw]
      exact ⟨fun x hx => hut (by cases hx; rfl), fun hx => by cases hx⟩
    · exact ⟨fun x hx => hut (by cases hx; rfl), fun hx => by cases hx⟩
    · simp [Mem.setState, Ne.symm hut]

omit [DecidableEq W] [DecidableEq E] [DecidableEq T] [DecidableEq B] [DecidableEq C] in
theorem Idle.nothing {pc : WorkerPc T B C} (h : Idle pc) : runs pc = none ∧ away pc = none := by
  cases pc <;> first | exact ⟨rfl, rfl⟩ | cases h

omit [DecidableEq E] [DecidableEq T] [DecidableEq B] [DecidableEq C] in
theorem handled_runs {pc : WorkerPc T B C} (hw : s.base.worker w = .handle u) (hpc : Idle pc) (v : W) :
    runs ((s.base.goto s.base.mem w pc).worker v) = runs (s.base.worker v) := by
  rw [Worker.goto_worker]
  split_ifs with hv
  · rw [hv, hw, hpc.nothing.1]
    rfl
  · rfl

omit [DecidableEq E] [DecidableEq T] [DecidableEq B] [DecidableEq C] in
theorem handled_away {pc : WorkerPc T B C} (hpc : Idle pc) {v : W}
    (h : away ((s.base.goto s.base.mem w pc).worker v) = some t) : v ≠ w ∧ away (s.base.worker v) = some t := by
  rw [Worker.goto_worker] at h
  split_ifs at h with hv
  · rw [hpc.nothing.2] at h
    cases h
  · exact ⟨hv, h⟩

omit [DecidableEq E] [DecidableEq B] [DecidableEq C] in
/-- A worker forgets a bthread whose state is not `FINISHED`. -/
theorem Inv.forget {pc : WorkerPc T B C} (h : Inv s u) (hw : s.base.worker w = .handle u) (hpc : Idle pc)
    (hst : s.base.mem.taskState u ≠ .finished) : Inv { s with base := s.base.goto s.base.mem w pc } u := by
  have hnoend : ∀ e, s.ends u e = 0 := fun e => by
    by_contra hne
    exact hst (h.marked.mpr ⟨e, Nat.pos_of_ne_zero hne⟩)
  have hover : exits (s.base.mem.context u) = false := by
    by_contra ho
    obtain ⟨e, he⟩ := h.exited (Bool.eq_true_of_not_eq_false ho)
    exact he.ne' (hnoend e)
  refine inv_none (fun e => ?_) (fun v v' x y hv hv' => ?_) hover hst fun v v' x ha hr hv => ?_
  · cases e with
    | running v =>
      simp only [State.ends, handled_runs hw hpc]
      exact hnoend (.running v)
    | left v => exact left_zero hover
    | done => exact hnoend .done
  · simp only [handled_runs hw hpc] at hv hv'
    exact h.alone v v' x y hv hv'
  · simp only [handled_runs hw hpc] at hv
    exact h.apart v v' x (handled_away hpc ha).2 hr hv

omit [DecidableEq W] [DecidableEq E] [DecidableEq B] [DecidableEq C] in
/-- The worker that finds `FINISHED` has switched away from the bthread at its end. -/
theorem Inv.found (h : Inv s u) (hw : s.base.worker w = .handle u) (hst : s.base.mem.taskState u = .finished)
    (hr : s.resumed w = false) : 0 < s.ends u (.left w) ∧ exits (s.base.mem.context u) = true := by
  have haway : away (s.base.worker w) = some u := by rw [hw]; rfl
  have hover : exits (s.base.mem.context u) = true := by
    obtain ⟨e, he⟩ := h.marked.mp hst
    cases e with
    | running v => exact absurd (runs_of_ends he) (h.apart w v true haway hr)
    | left v => exact exits_of_ends he
    | done => exact h.saved he
  exact ⟨ends_left haway hr hover, hover⟩

omit [DecidableEq E] [DecidableEq B] [DecidableEq C] in
/-- `HandleFinishedBthread`, on the worker that has switched away from the bthread last. -/
theorem Inv.finish {pc : WorkerPc T B C} {f : W → Option (FinishPc T)} (h : Inv s u) (hw : s.base.worker w = .handle u)
    (hpc : Idle pc) (hst : s.base.mem.taskState u = .finished) (hr : s.resumed w = false) :
    Inv { s with
      base := s.base.goto s.base.mem w pc
      finish := f
      finished := Function.update s.finished u (s.finished u + 1) } u := by
  obtain ⟨hleft, hover⟩ := h.found hw hst hr
  refine inv_some (e := .done) ?_ (h.once.move (a := .left w) (b := .done) (by simp) ?_ fun e he he' => ?_)
    (fun v v' x y hv hv' => ?_) (fun v hv => ?_) (fun _ => hover) hst fun v v' x ha hr' hv => ?_
  · simp [State.ends]
  · have hgone : away ((s.base.goto s.base.mem w pc).worker w) ≠ some u := fun ha => (handled_away hpc ha).1 rfl
    simp only [State.ends, hgone, false_and, if_false, Function.update_self] at hleft ⊢
    omega
  · cases e with
    | running v =>
      simp only [State.ends, handled_runs hw hpc]
      exact le_rfl
    | left v =>
      have hv : v ≠ w := fun hv => he (by rw [hv])
      simp only [State.ends, Worker.goto_worker, if_neg hv]
      exact le_rfl
    | done => exact absurd rfl he'
  · simp only [handled_runs hw hpc] at hv hv'
    exact h.alone v v' x y hv hv'
  · simp only [handled_runs hw hpc] at hv
    exact hleft.ne' (h.code v hv _)
  · simp only [handled_runs hw hpc] at hv
    exact h.apart v v' x (handled_away hpc ha).2 hr' hv

omit [DecidableEq E] [DecidableEq B] [DecidableEq C] in
/-- `HandleTaskAfterRun`, after which the worker is free. -/
theorem Inv.handled {l : Worker.Label W E T B C} {pc : WorkerPc T B C} (h : Inv s t) (hw : s.base.worker w = .handle u)
    (hl : reader l = some w) (hok : ¬Misled s (.base l)) (hpc : Idle pc) :
    Inv { s.note w with base := s.base.goto s.base.mem w pc } t := by
  have hoff : u ≠ t → Off (s.base.worker w) t ∧ Off pc t := fun hut => by
    obtain ⟨hr, ha⟩ := hpc.nothing
    rw [hw]
    exact ⟨⟨fun x hx => (by cases hx), fun hx => hut (by cases hx; rfl)⟩, by simp [Off, hr, ha]⟩
  simp only [State.note, hw]
  split_ifs with hst
  · by_cases hut : u = t
    · subst hut
      refine h.finish hw hpc hst (Bool.eq_false_of_not_eq_true fun hr => ?_)
      exact hok (Or.inr (Or.inr ⟨w, u, hl, by rw [hw]; rfl, hr, hst⟩))
    · exact h.same (same_off rfl (hoff hut).1 (hoff hut).2 (fun _ _ _ => rfl) rfl
        (Function.update_of_ne (Ne.symm hut) _ _)) Iff.rfl
  · by_cases hut : u = t
    · subst hut
      exact h.forget hw hpc hst
    · exact h.same (same_off rfl (hoff hut).1 (hoff hut).2 (fun _ _ _ => rfl) rfl rfl) Iff.rfl

omit [DecidableEq E] [DecidableEq B] [DecidableEq C] in
theorem note_plain (h : Plain (s.base.worker w)) : s.note w = s := by
  unfold State.note
  split
  · next hw => rw [hw] at h; cases h
  · next hw => rw [hw] at h; cases h
  · next hw => rw [hw] at h; cases h
  · rfl

/-- A step of the workers. -/
theorem Inv.base {l : Worker.Label W E T B C} {b : Worker.State W E T B C} (h : Inv s t)
    (hok : ¬Misled s (.base l)) (hsaved : ∀ u, (s.base.mem.context u).Saved) (hst : Worker.step s.base l = some b) :
    Inv { (reader l).elim s s.note with base := b } t := by
  cases changed hst with
  | quiet _ _ hruns haway hc hstate hplain _ =>
    have hnote : (reader l).elim s s.note = s := by
      cases hl : reader l with
      | none => rfl
      | some w => exact note_plain (hplain w hl)
    rw [hnote]
    refine h.same ⟨fun v x => ?_, fun v => ?_, congrFun hc t, rfl⟩ ?_
    · simp only [hruns]
    · simp only [haway]
    · rcases hstate t with hsame | ⟨hnew, hby⟩
      · simp only [hsame]
      · refine iff_of_false hnew fun hold => ?_
        rcases hby with hr | ⟨v, hv⟩
        · exact hok (Or.inr (Or.inl ⟨t, hr, hold⟩))
        · obtain ⟨e, he⟩ := h.marked.mp hold
          exact he.ne' (h.code v hv e)
  | swapIn w u hw => exact h.swapIn hw hok (hsaved u)
  | swap w u next hw => exact h.swap hw
  | ends w u hw => exact h.ends hw
  | handled _ w u pc hw hl hpc =>
    rw [hl]
    exact h.handled hw hl hok hpc

end Kept

end Cothread.Finish
