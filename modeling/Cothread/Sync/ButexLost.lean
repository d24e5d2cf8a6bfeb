import Cothread.Sync.Butex

/-!
# `Butex` and lost wake-ups

A waker that finds the waiter still running leaves it to `Wait` to notice, by the change of `wake_count`. `Wait` samples
`wake_count` after its last look at the value, so a waker that has dequeued the task, bumped `wake_count` and loaded
the state before the sample and the exchange is not noticed (`lost_wakeup`). While no `Wait` suspends its task in such a
state, every suspended task without a timeout is in the queue, or with a waker that will enqueue it, or in a ready queue
(`not_lost`).
-/

namespace Cothread.Butex

open Run

variable {T W : Type*}

/-- The tasks whose state this waker is still going to load. -/
def WakePc.pending : WakePc T → List T
  | .setValue _ _ | .futexWake _ => []
  | .pop _ batch => batch
  | .clearWaiting _ t rest | .bump _ t rest | .cancel _ t rest | .loadState _ t rest => t :: rest
  | .storeReady _ _ rest | .submit _ _ rest | .push _ _ rest => rest

/-- The task that this waker is enqueuing. -/
def WakePc.answering : WakePc T → List T
  | .storeReady _ t _ | .submit _ t _ | .push _ t _ => [t]
  | _ => []

section Accessors

variable (s : State T W)

def State.pending (w : W) : List T := (s.waker w).elim [] WakePc.pending

def State.answering (w : W) : List T := (s.waker w).elim [] WakePc.answering

/-- The task is in the queue, not claimed. -/
def State.queued (t : T) : Prop := t ∈ s.queue ∧ s.claimed t = false

/-- Somebody is still going to look at the task: the queue holds it, or a waker that has not loaded its state. -/
def Seen (t : T) : Prop := s.queued t ∨ ∃ w, t ∈ s.pending w

/-- The task is going to be enqueued, or it has been. -/
def Coming (t : T) : Prop := Seen s t ∨ (∃ w, t ∈ s.answering w) ∨ 0 < s.ready t

/-- **A lost wake-up**: the task has switched away in state `SUSPENDED`, a waker has dequeued it, none is still
processing it, and it is in no ready queue. -/
def Lost (t : T) : Prop :=
  s.wait t = some .suspended ∧ s.taskState t = .suspended ∧ t ∉ s.queue ∧
    (∀ w, t ∉ s.pending w ∧ t ∉ s.answering w) ∧ s.ready t = 0

/-- A `Wait` without a timeout is about to suspend the task although `wake_count` is as sampled and nobody is going to
look at the task. -/
def Unnoticed (call : T → Call) : Label T W → Prop
  | .waiter t => (call t).timeout = none ∧ ∃ saved, s.wait t = some (.suspend saved) ∧ s.taskState t = .running ∧
      s.wakeCount t = saved ∧ ¬Seen s t
  | _ => False

end Accessors

/-! ## The invariant -/

/-- What holds of a task in state `SUSPENDED` at its next access. -/
def Watched (s : State T W) (t : T) : WaitPc → Prop
  | .resample saved => s.wakeCount t = saved → Coming s t
  | .swap | .suspended => Coming s t
  | _ => True

/-- A suspended task without a timeout is coming back. -/
def Inv (call : T → Call) (s : State T W) : Prop :=
  ∀ t pc, (call t).timeout = none → s.wait t = some pc → s.taskState t = .suspended → Watched s t pc

/-- Timers run only for calls with a timeout. -/
def Timed (call : T → Call) (s : State T W) : Prop :=
  ∀ t, (call t).timeout = none → s.timer t = none ∧ s.wait t ≠ some .schedule

/-! ## The queue -/

section Queue

variable {claimed : T → Bool} {q : List T} {t : T}

/-- A task that is not claimed is popped or stays. -/
theorem mem_popFromHead (hm : t ∈ q) (hc : claimed t = false) :
    (popFromHead claimed q).1 = some t ∨ t ∈ (popFromHead claimed q).2 := by
  induction q with
  | nil => cases hm
  | cons x q ih =>
    by_cases hx : claimed x = true
    · have hne : t ≠ x := by
        rintro rfl
        rw [hc] at hx; cases hx
      simp only [popFromHead, hx, if_true]
      exact ih ((List.mem_cons.mp hm).resolve_left hne)
    · simp only [popFromHead, hx]
      rcases List.mem_cons.mp hm with rfl | hm
      · exact Or.inl rfl
      · exact Or.inr hm

end Queue

/-! ## Wakers -/

section Waker

variable [DecidableEq T] [DecidableEq W] {s t : State T W} {x : T} {w w' : W} {pc : WakePc T} {r : Option (WakePc T)}

omit [DecidableEq T]

theorem pending_setWaker : (s.setWaker w r).pending w' = if w' = w then r.elim [] WakePc.pending else s.pending w' := by
  by_cases h : w' = w
  · subst h; simp [State.setWaker, State.pending]
  · simp [State.setWaker, State.pending, h]

theorem answering_setWaker :
    (s.setWaker w r).answering w' = if w' = w then r.elim [] WakePc.answering else s.answering w' := by
  by_cases h : w' = w
  · subst h; simp [State.setWaker, State.answering]
  · simp [State.setWaker, State.answering, h]

/-- A waker goes on: what it still had to do for the task is done or still to be done. -/
theorem Coming.setWaker (h : Coming s x) (hw : s.waker w = some pc) (hq : t.queue = s.queue)
    (hc : t.claimed = s.claimed)
    (hk : t.waker = s.waker) (hr : s.ready x ≤ t.ready x)
    (hp : x ∈ pc.pending → x ∈ r.elim [] WakePc.pending ∨ x ∈ r.elim [] WakePc.answering)
    (ha : x ∈ pc.answering → x ∈ r.elim [] WakePc.answering ∨ 0 < t.ready x) : Coming (t.setWaker w r) x := by
  have hsp : s.pending w = pc.pending := by simp [State.pending, hw]
  have hsa : s.answering w = pc.answering := by simp [State.answering, hw]
  have htp : ∀ w', t.pending w' = s.pending w' := fun w' => by rw [State.pending, State.pending, hk]
  have hta : ∀ w', t.answering w' = s.answering w' := fun w' => by rw [State.answering, State.answering, hk]
  rcases h with (hqd | ⟨w', hm⟩) | ⟨w', hm⟩ | hrd
  · exact Or.inl (Or.inl ⟨by rw [State.setWaker, hq]; exact hqd.1, by rw [State.setWaker, hc]; exact hqd.2⟩)
  · by_cases he : w' = w
    · subst he
      rw [hsp] at hm
      rcases hp hm with h | h
      · exact Or.inl (Or.inr ⟨w', by rw [pending_setWaker, if_pos rfl]; exact h⟩)
      · exact Or.inr (Or.inl ⟨w', by rw [answering_setWaker, if_pos rfl]; exact h⟩)
    · exact Or.inl (Or.inr ⟨w', by rw [pending_setWaker, if_neg he, htp]; exact hm⟩)
  · by_cases he : w' = w
    · subst he
      rw [hsa] at hm
      rcases ha hm with h | h
      · exact Or.inr (Or.inl ⟨w', by rw [answering_setWaker, if_pos rfl]; exact h⟩)
      · exact Or.inr (Or.inr h)
    · exact Or.inr (Or.inl ⟨w', by rw [answering_setWaker, if_neg he, hta]; exact hm⟩)
  · exact Or.inr (Or.inr (Nat.lt_of_lt_of_le hrd hr))

/-- A new call of `Wake`. -/
theorem Coming.wake {v count : Int} (h : Coming s x) (hw : s.waker w = none) :
    Coming (s.setWaker w (some (.setValue v count))) x := by
  rcases h with (hqd | ⟨w', hm⟩) | ⟨w', hm⟩ | hrd
  · exact Or.inl (Or.inl hqd)
  · have hne : w' ≠ w := by
      rintro rfl
      simp [State.pending, hw] at hm
    exact Or.inl (Or.inr ⟨w', by rw [pending_setWaker, if_neg hne]; exact hm⟩)
  · have hne : w' ≠ w := by
      rintro rfl
      simp [State.answering, hw] at hm
    exact Or.inr (Or.inl ⟨w', by rw [answering_setWaker, if_neg hne]; exact hm⟩)
  · exact Or.inr (Or.inr hrd)

/-- After a batch, or after a waiter, the rest is still to be processed. -/
theorem mem_afterBatch {l : Loop} {batch : List T} (h : x ∈ batch) :
    x ∈ (afterBatch l batch).elim [] WakePc.pending := by
  cases batch with
  | nil => cases h
  | cons y rest => exact h

theorem mem_afterWaiter {l : Loop} {rest : List T} (h : x ∈ rest) :
    x ∈ (afterWaiter l rest).elim [] WakePc.pending := by
  cases rest with
  | nil => cases h
  | cons y rest => exact h

variable [DecidableEq T] {call : T → Call}

/-- `PopFromHead`: the task stays in the queue, or it is in the batch. -/
theorem Coming.pop {l : Loop} {batch : List T} (h : Coming s x) (hw : s.waker w = some (.pop l batch)) :
    Coming (s.wakeStep call w (.pop l batch)) x := by
  cases hpop : popFromHead s.claimed s.queue with
  | mk item q =>
  have hmem : s.queued x → item = some x ∨ x ∈ q := by
    rintro ⟨hm, hc⟩
    simpa [hpop] using mem_popFromHead hm hc
  -- with the queue as it is after the pop, the task is still coming, or it is the one popped
  have hcoming : ∀ c : T → Bool, (∀ y, item ≠ some y → c y = s.claimed y) →
      item = some x ∨ Coming { s with queue := q, claimed := c } x := by
    intro c hcl
    by_cases hx : item = some x
    · exact Or.inl hx
    refine Or.inr ?_
    rcases h with (hqd | hm) | h
    · exact Or.inl (Or.inl ⟨(hmem hqd).resolve_left hx, (hcl x hx).trans hqd.2⟩)
    · exact Or.inl (Or.inr hm)
    · exact Or.inr h
  cases item with
  | none =>
    simp only [State.wakeStep, hpop]
    refine ((hcoming s.claimed fun _ _ => rfl).resolve_left nofun).setWaker hw rfl rfl rfl
      (Nat.le_refl _) (fun hm => Or.inl (mem_afterBatch hm)) nofun
  | some y =>
    simp only [State.wakeStep, hpop]
    generalize hr : (if ((batch ++ [y]).length : Int) < min (l.count - l.total) BATCH_SIZE then
      some (WakePc.pop l (batch ++ [y])) else afterBatch l (batch ++ [y])) = r
    have hbatch : x ∈ batch ++ [y] → x ∈ r.elim [] WakePc.pending := by
      intro hm
      rw [← hr]
      split
      · exact hm
      · exact mem_afterBatch hm
    have hcl : ∀ z, some y ≠ some z → Function.update s.claimed y true z = s.claimed z :=
      fun z hz => Function.update_of_ne (fun e => hz (by rw [e])) _ _
    rcases hcoming _ hcl with hyx | hc
    · have hm : x ∈ batch ++ [y] :=
        List.mem_append_right _ (by rw [Option.some.inj hyx]; exact List.mem_singleton_self x)
      exact Or.inl (Or.inr ⟨w, by rw [pending_setWaker, if_pos rfl]; exact hbatch hm⟩)
    · exact hc.setWaker hw rfl rfl rfl (Nat.le_refl _)
        (fun hm => Or.inl (hbatch (List.mem_append_left _ hm))) nofun

/-- **A waker's access** keeps a suspended task coming. -/
theorem Coming.wakeStep (h : Coming s x) (hw : s.waker w = some pc)
    (hx : (s.wakeStep call w pc).taskState x = .suspended) : Coming (s.wakeStep call w pc) x := by
  cases pc with
  | setValue v count => exact h.setWaker hw rfl rfl rfl (Nat.le_refl _) nofun nofun
  | futexWake count => exact h.setWaker hw rfl rfl rfl (Nat.le_refl _) nofun nofun
  | pop l batch => exact h.pop hw
  | clearWaiting l t rest | bump l t rest =>
    exact h.setWaker hw rfl rfl rfl (Nat.le_refl _) Or.inl nofun
  | cancel l t rest =>
    simp only [State.wakeStep]
    split <;> exact h.setWaker hw rfl rfl rfl (Nat.le_refl _) Or.inl nofun
  | loadState l t rest =>
    by_cases ht : s.taskState t = .suspended
    · simp only [State.wakeStep, if_pos ht]
      refine h.setWaker hw rfl rfl rfl (Nat.le_refl _) (fun hm => ?_) nofun
      rcases List.mem_cons.mp hm with rfl | hm
      · exact Or.inr (List.mem_singleton_self x)
      · exact Or.inl hm
    · simp only [State.wakeStep, if_neg ht] at hx ⊢
      refine h.setWaker hw rfl rfl rfl (Nat.le_refl _) (fun hm => ?_) nofun
      rcases List.mem_cons.mp hm with rfl | hm
      · exact absurd hx ht
      · exact Or.inl (mem_afterWaiter hm)
  | storeReady l t rest | submit l t rest =>
    exact h.setWaker hw rfl rfl rfl (Nat.le_refl _) Or.inl Or.inl
  | push l t rest =>
    refine h.setWaker hw rfl rfl rfl ?_ (fun hm => Or.inl (mem_afterWaiter hm)) (fun hm => Or.inr ?_)
    · by_cases hxt : x = t
      · subst hxt; simp [State.pushReady]
      · simp [State.pushReady, hxt]
    · rw [List.mem_singleton.mp hm]
      simp [State.pushReady]

end Waker

/-! ## Steps of another task -/

section Steps

variable [DecidableEq T] [DecidableEq W] {call : T → Call} {s t : State T W} {x y : T} {l : Label T W}

/-- What a step of the task `y`, or of its timer, leaves alone. -/
structure Apart (s t : State T W) (y : T) : Prop where
  queue : ∀ z ∈ s.queue, z ∈ t.queue
  waker : t.waker = s.waker
  ready : ∀ x, x ≠ y → t.ready x = s.ready x
  claimed : ∀ x, x ≠ y → t.claimed x = s.claimed x
  taskState : ∀ x, x ≠ y → t.taskState x = s.taskState x
  wakeCount : ∀ x, t.wakeCount x = s.wakeCount x
  wakeup : ∀ x, x ≠ y → t.wakeup x = s.wakeup x
  timer : ∀ x, x ≠ y → t.timer x = s.timer x
  wait : ∀ x, x ≠ y → t.wait x = s.wait x

omit [DecidableEq T] [DecidableEq W] in
/-- A step that only adds to the queue and to the ready queues. -/
theorem Coming.frame (h : Coming s x) (hq : ∀ z ∈ s.queue, z ∈ t.queue) (hc : t.claimed x = s.claimed x)
    (hk : t.waker = s.waker) (hr : t.ready x = s.ready x) : Coming t x := by
  rcases h with (⟨h₁, h₂⟩ | ⟨w, hm⟩) | ⟨w, hm⟩ | hrd
  · exact Or.inl (Or.inl ⟨hq x h₁, hc.trans h₂⟩)
  · exact Or.inl (Or.inr ⟨w, by rw [State.pending, hk]; exact hm⟩)
  · exact Or.inr (Or.inl ⟨w, by rw [State.answering, hk]; exact hm⟩)
  · exact Or.inr (Or.inr (by omega))

omit [DecidableEq T] [DecidableEq W] in
theorem Watched.apart {pc : WaitPc} (h : Watched s x pc) (ha : Apart s t y) (hx : x ≠ y) : Watched t x pc := by
  have hc : Coming s x → Coming t x :=
    fun hc => hc.frame ha.queue (ha.claimed x hx) ha.waker (ha.ready x hx)
  cases pc with
  | resample saved => exact fun he => hc (h ((ha.wakeCount x).symm.trans he))
  | swap | suspended => exact hc h
  | _ => trivial

section Apart

variable {r : State T W} {pc : WaitPc} {tpc : TimerPc} {b : Bool} {z : TaskState}

omit [DecidableEq W]

omit [DecidableEq T] in
theorem Apart.refl : Apart s s y :=
  ⟨fun _ h => h, rfl, fun _ _ => rfl, fun _ _ => rfl, fun _ _ => rfl, fun _ => rfl, fun _ _ => rfl, fun _ _ => rfl,
    fun _ _ => rfl⟩

theorem Apart.goto (h : Apart s r y) : Apart s (r.goto y pc) y :=
  { h with wait := fun x hx => (Function.update_of_ne hx _ _).trans (h.wait x hx) }

theorem Apart.setState (h : Apart s r y) : Apart s (r.setState y z) y :=
  { h with taskState := fun x hx => (Function.update_of_ne hx _ _).trans (h.taskState x hx) }

theorem Apart.setWaiting (h : Apart s r y) : Apart s (r.setWaiting y b) y := { h with }

theorem Apart.setClaimed (h : Apart s r y) : Apart s (r.setClaimed y b) y :=
  { h with claimed := fun x hx => (Function.update_of_ne hx _ _).trans (h.claimed x hx) }

theorem Apart.setTimer (h : Apart s r y) : Apart s (r.setTimer y tpc) y :=
  { h with timer := fun x hx => (Function.update_of_ne hx _ _).trans (h.timer x hx) }

theorem Apart.pushReady (h : Apart s r y) : Apart s (r.pushReady y) y :=
  { h with ready := fun x hx => (Function.update_of_ne hx _ _).trans (h.ready x hx) }

theorem Apart.addWaiter (h : Apart s r y) : Apart s (r.addWaiter y b) y := by
  unfold State.addWaiter
  split
  · exact h
  split
  · exact { h with queue := fun z hz => List.mem_cons_of_mem _ (h.queue z hz) }
  · exact { h.setClaimed (b := false) with queue := fun z hz => List.mem_append_left _ (h.queue z hz) }

/-- **An access of `Wait`** leaves the other tasks alone. -/
theorem waitStep_apart {c : Call} (h : s.waitStep c y pc = some t) : Apart s t y := by
  have h0 : Apart s s y := Apart.refl
  cases pc with
  | suspended | returned b => cases h
  | load | recheck | recheckQueued | sample | resample saved | swap | resumed => cases h; exact h0.goto
  | prepare | abandon => cases h; exact h0.setClaimed.goto
  | schedule => cases h; exact h0.setTimer.goto
  | enqueue => cases h; exact h0.addWaiter.goto
  | submit => cases h; exact h0.setState.goto
  | push => cases h; exact h0.pushReady.goto
  | withdraw => cases h; exact h0.setWaiting.goto
  | setWaiting =>
    cases h
    split
    · exact h0.goto
    · exact h0.setWaiting.goto
  | suspend _ | takeBack =>
    cases h
    split
    · exact h0.setState.goto
    · exact h0.goto

/-- **An access of a timer's callback** leaves the other tasks alone. -/
theorem timerStep_apart (h : s.timerStep y tpc = some t) : Apart s t y := by
  have h0 : Apart s s y := Apart.refl
  cases tpc with
  | claim =>
    cases h
    split
    · exact h0.setTimer
    · exact { h0.setTimer with wakeup := fun x hx => Function.update_of_ne hx _ _ }
  | mark => cases h; exact { h0.setTimer with }
  | loadState => cases h; exact h0.setTimer
  | remove =>
    cases h
    split
    · exact h0.setWaiting.setTimer
    · exact h0.setTimer
  | setClaimed => cases h; exact h0.setClaimed.setTimer
  | storeReady | submit => cases h; exact h0.setState.setTimer
  | push => cases h; exact h0.pushReady.setTimer
  | _ => cases h

theorem run_apart : Apart s (s.run y) y := by
  have h0 : Apart s (s.setState y .running) y := Apart.refl.setState
  refine { h0 with ready := fun x hx => Function.update_of_ne hx _ _, wait := fun x hx => ?_ }
  unfold State.run
  split
  · exact Function.update_of_ne hx _ _
  · rfl

end Apart

/-! ## The task's own accesses -/

omit [DecidableEq W] in
/-- **An access of the task itself**: `Unnoticed` is the one case in which it suspends with nobody to look at it. -/
theorem waitStep_watched {pc pc' : WaitPc} {c : Call} (hpc : s.wait x = some pc)
    (hw : s.taskState x = .suspended → Watched s x pc) (hx : (call x).timeout = none)
    (hok : ¬Unnoticed s call (.waiter x)) (h : s.waitStep c x pc = some t) (hpc' : t.wait x = some pc')
    (hs : t.taskState x = .suspended) : Watched t x pc' := by
  have hgoto : ∀ (r : State T W) (k : WaitPc), t = r.goto x k → pc' = k := by
    rintro r k rfl
    simpa [State.goto] using hpc'.symm
  cases pc with
  | suspended | returned b => cases h
  | suspend saved =>
    cases h
    split at hs
    case isTrue hr =>
      obtain rfl := hgoto _ _ (if_pos hr)
      intro he
      rw [if_pos hr] at he ⊢
      have hsn : Seen s x := by
        by_contra hn
        exact hok ⟨hx, saved, hpc, hr, he, hn⟩
      exact Or.inl hsn
    case isFalse hr =>
      obtain rfl := hgoto _ _ (if_neg hr)
      trivial
  | resample saved =>
    cases h
    obtain rfl := hgoto _ _ rfl
    split
    · exact hw hs ‹_›
    · trivial
  | swap =>
    cases h
    obtain rfl := hgoto _ _ rfl
    exact hw hs
  | load | recheck | recheckQueued =>
    cases h
    obtain rfl := hgoto _ _ rfl
    (repeat' split) <;> trivial
  | setWaiting | takeBack =>
    cases h
    split at hpc' <;> simp [State.goto] at hpc' <;> subst hpc' <;> trivial
  | _ =>
    cases h
    obtain rfl := hgoto _ _ rfl
    trivial

/-! ## Timers -/

omit [DecidableEq W] in
theorem timer_addWaiter {b : Bool} : (s.addWaiter y b).timer = s.timer := by
  unfold State.addWaiter
  split
  · rfl
  · split <;> rfl

omit [DecidableEq W] in
/-- A call without a timeout starts no timer. -/
theorem waitStep_timed {pc : WaitPc} {c : Call} (hc : c.timeout = none) (hpc : pc ≠ .schedule)
    (h : s.waitStep c x pc = some t) : t.timer x = s.timer x ∧ t.wait x ≠ some .schedule := by
  have hgoto : ∀ (r : State T W) (k : WaitPc), k ≠ .schedule →
      (r.goto x k).timer x = r.timer x ∧ (r.goto x k).wait x ≠ some .schedule :=
    fun r k hk => ⟨rfl, by simpa [State.goto] using hk⟩
  cases pc with
  | suspended | returned b => cases h
  | schedule => exact absurd rfl hpc
  | enqueue =>
    cases h
    have hg := hgoto (s.addWaiter x c.prepend) .recheckQueued nofun
    exact ⟨hg.1.trans (by rw [timer_addWaiter]), hg.2⟩
  | recheck =>
    cases h
    refine hgoto _ _ ?_
    rw [hc]
    split <;> nofun
  | setWaiting | suspend _ | takeBack =>
    cases h
    split <;> exact hgoto _ _ nofun
  | load | recheckQueued | resample _ =>
    cases h
    refine hgoto _ _ ?_
    split <;> nofun
  | _ => cases h; exact hgoto _ _ nofun

/-! ## Every step -/

/-- A waker's access changes no call of `Wait`, and of the timers only armed ones. -/
theorem wakeStep_wait {w : W} {pc : WakePc T} : (s.wakeStep call w pc).wait = s.wait ∧
    ∀ x, s.timer x = none → (s.wakeStep call w pc).timer x = none := by
  cases pc with
  | pop l batch =>
    simp only [State.wakeStep]
    split <;> exact ⟨rfl, fun _ h => h⟩
  | cancel l y rest =>
    simp only [State.wakeStep]
    split
    case isTrue hif =>
      refine ⟨rfl, fun x hx => (Function.update_of_ne ?_ _ _).trans hx⟩
      rintro rfl
      rw [hx] at hif
      exact nomatch hif.2
    case isFalse => exact ⟨rfl, fun _ h => h⟩
  | _ => exact ⟨rfl, fun _ h => h⟩

/-- A waker makes no task `SUSPENDED`. -/
theorem wakeStep_taskState {w : W} {pc : WakePc T} (h : (s.wakeStep call w pc).taskState x = .suspended) :
    s.taskState x = .suspended := by
  cases pc with
  | pop l batch =>
    simp only [State.wakeStep] at h
    split at h <;> exact h
  | cancel l y rest =>
    simp only [State.wakeStep] at h
    split at h <;> exact h
  | storeReady l y rest | submit l y rest =>
    by_cases hx : x = y
    · subst hx; simp [State.wakeStep, State.setWaker, State.setState] at h
    · simpa [State.wakeStep, State.setWaker, State.setState, hx] using h
  | _ => exact h

/-- Only a waker that is still going to load the task's state changes its `wake_count`. -/
theorem wakeStep_wakeCount {w : W} {pc : WakePc T} (hw : s.waker w = some pc) :
    (s.wakeStep call w pc).wakeCount x = s.wakeCount x ∨ Seen s x := by
  cases pc with
  | pop l batch =>
    simp only [State.wakeStep]
    split <;> exact Or.inl rfl
  | cancel l y rest =>
    simp only [State.wakeStep]
    split <;> exact Or.inl rfl
  | bump l y rest =>
    by_cases hx : x = y
    · subst hx
      exact Or.inr (Or.inr ⟨w, by rw [State.pending, hw]; exact List.mem_cons_self⟩)
    · exact Or.inl (Function.update_of_ne hx _ _)
  | _ => exact Or.inl rfl

/-- The task whose call of `Wait`, or whose timer, takes the step. -/
def Label.task : Label T W → Option T
  | .wait t | .waiter t | .fire t | .timer t | .run t => some t
  | .wake _ _ _ | .waker _ => none

/-- **A step of a task** leaves the other tasks alone. -/
theorem step_apart (h : step call s l = some t) (hl : l.task = some y) : Apart s t y := by
  cases l with
  | wait z =>
    cases hl
    simp only [step, Option.ite_none_right_eq_some, Option.some.injEq] at h
    obtain ⟨-, rfl⟩ := h
    exact Apart.refl.goto
  | waiter z =>
    cases hl
    obtain ⟨pc, -, h⟩ := Option.bind_eq_some_iff.mp h
    exact waitStep_apart h
  | fire z =>
    cases hl
    simp only [step, Option.ite_none_right_eq_some, Option.some.injEq] at h
    obtain ⟨-, rfl⟩ := h
    exact Apart.refl.setTimer
  | timer z =>
    cases hl
    obtain ⟨pc, -, h⟩ := Option.bind_eq_some_iff.mp h
    exact timerStep_apart h
  | run z =>
    cases hl
    simp only [step, Option.ite_none_right_eq_some, Option.some.injEq] at h
    obtain ⟨-, rfl⟩ := h
    exact run_apart
  | wake w v count | waker w => cases hl

/-- What a step does to a task without a timeout: a step of the task itself, of a waker, or of another task. -/
theorem step_cases (h : step call s l = some t) (ht : s.timer x = none) :
    (l = .wait x ∧ s.wait x = none ∧ t = s.goto x .load) ∨
    (∃ pc, l = .waiter x ∧ s.wait x = some pc ∧ s.waitStep (call x) x pc = some t) ∨
    (l = .run x ∧ t = s.run x) ∨
    (∃ w v count, s.waker w = none ∧ t = s.setWaker w (some (.setValue v count))) ∨
    (∃ w pc, s.waker w = some pc ∧ t = s.wakeStep call w pc) ∨
    ∃ y, x ≠ y ∧ Apart s t y := by
  by_cases hl : ∃ y, l.task = some y ∧ x ≠ y
  · obtain ⟨y, hy, hxy⟩ := hl
    exact Or.inr (Or.inr (Or.inr (Or.inr (Or.inr ⟨y, hxy, step_apart h hy⟩))))
  have hown : ∀ y, l.task = some y → x = y := fun y hy => by_contra fun hxy => hl ⟨y, hy, hxy⟩
  cases l with
  | wait y =>
    obtain rfl := hown y rfl
    simp only [step, Option.ite_none_right_eq_some, Option.some.injEq, Option.isNone_iff_eq_none] at h
    exact Or.inl ⟨rfl, h.1, h.2.symm⟩
  | waiter y =>
    obtain rfl := hown y rfl
    obtain ⟨pc, hpc, h⟩ := Option.bind_eq_some_iff.mp h
    exact Or.inr (Or.inl ⟨pc, rfl, hpc, h⟩)
  | run y =>
    obtain rfl := hown y rfl
    simp only [step, Option.ite_none_right_eq_some, Option.some.injEq] at h
    exact Or.inr (Or.inr (Or.inl ⟨rfl, h.2.symm⟩))
  | wake w v count =>
    simp only [step, Option.ite_none_right_eq_some, Option.some.injEq, Option.isNone_iff_eq_none] at h
    exact Or.inr (Or.inr (Or.inr (Or.inl ⟨w, v, count, h.1, h.2.symm⟩)))
  | waker w =>
    obtain ⟨pc, hpc, rfl⟩ := Option.map_eq_some_iff.mp h
    exact Or.inr (Or.inr (Or.inr (Or.inr (Or.inl ⟨w, pc, hpc, rfl⟩))))
  | fire y =>
    obtain rfl := hown y rfl
    simp [step, ht] at h
  | timer y =>
    obtain rfl := hown y rfl
    simp [step, ht] at h

omit [DecidableEq W] in
/-- The state in which a task is after it was picked. -/
theorem run_wait : (s.run x).wait x = if s.wait x = some .suspended then some .resumed else s.wait x := by
  unfold State.run
  split <;> simp

theorem timed_step (h : Timed call s) (hst : step call s l = some t) : Timed call t := by
  intro x hx
  obtain ⟨ht, hw⟩ := h x hx
  rcases step_cases hst ht with ⟨-, -, rfl⟩ | ⟨pc, -, hpc, hst⟩ | ⟨-, rfl⟩ | ⟨w, v, count, -, rfl⟩ | ⟨w, pc, -, rfl⟩ |
    ⟨y, hxy, ha⟩
  case inl => exact ⟨ht, by simp [State.goto]⟩
  case inr.inl =>
    obtain ⟨h₁, h₂⟩ := waitStep_timed hx (fun e => hw (e ▸ hpc)) hst
    exact ⟨h₁.trans ht, h₂⟩
  case inr.inr.inl =>
    refine ⟨ht, ?_⟩
    rw [run_wait]
    split
    · nofun
    · exact hw
  case inr.inr.inr.inl => exact ⟨ht, hw⟩
  case inr.inr.inr.inr.inl =>
    rw [wakeStep_wait.1]
    exact ⟨wakeStep_wait.2 x ht, hw⟩
  case inr.inr.inr.inr.inr =>
    rw [ha.timer x hxy, ha.wait x hxy]
    exact ⟨ht, hw⟩

/-- **Every step** that suspends no task unnoticed keeps the suspended tasks coming back. -/
theorem inv_step (ht : Timed call s) (h : Inv call s) (hok : ¬Unnoticed s call l) (hst : step call s l = some t) :
    Inv call t := by
  intro x pc hx hpc hs
  rcases step_cases hst (ht x hx).1 with ⟨-, -, rfl⟩ | ⟨pc', rfl, hpc', hst⟩ | ⟨-, rfl⟩ | ⟨w, v, count, hw, rfl⟩ |
    ⟨w, pc', hw, rfl⟩ | ⟨y, hxy, ha⟩
  case inl =>
    obtain rfl : pc = .load := by simpa [State.goto] using hpc.symm
    trivial
  case inr.inl => exact waitStep_watched hpc' (h x pc' hx hpc') hx hok hst hpc hs
  case inr.inr.inl =>
    simp [State.run, State.setState] at hs
  case inr.inr.inr.inl =>
    have hw' := h x pc hx hpc hs
    cases pc with
    | resample saved => exact fun he => (hw' he).wake hw
    | swap | suspended => exact Coming.wake hw' hw
    | _ => trivial
  case inr.inr.inr.inr.inl =>
    rw [wakeStep_wait.1] at hpc
    have hw' := h x pc hx hpc (wakeStep_taskState hs)
    cases pc with
    | resample saved =>
      intro he
      rcases wakeStep_wakeCount (x := x) hw with hk | hsn
      · exact (hw' (hk.symm.trans he)).wakeStep hw hs
      · exact Coming.wakeStep (Or.inl hsn) hw hs
    | swap | suspended => exact Coming.wakeStep hw' hw hs
    | _ => trivial
  case inr.inr.inr.inr.inr =>
    rw [ha.wait x hxy] at hpc
    rw [ha.taskState x hxy] at hs
    exact (h x pc hx hpc hs).apart ha hxy

end Steps

/-! ## Runs -/

/-- **No wake-up is lost**, in any run in which no `Wait` without a timeout suspends its task unnoticed. -/
theorem not_lost [DecidableEq T] [DecidableEq W] (call : T → Call) (s : State T W)
    (hs : Reach (system call) (fun s l => ¬Unnoticed s call l) s) (t : T)
    (ht : (call t).timeout = none) : ¬Lost s t := by
  have htimed : ∀ s : State T W, Reach (system call) (fun s l => ¬Unnoticed s call l) s → Timed call s := by
    intro s hs
    refine hs.invariant (I := Timed call) ?_ fun _ _ _ hi _ h => timed_step hi h
    rintro _ ⟨value, wakeCount, rfl⟩
    exact fun _ _ => ⟨rfl, nofun⟩
  have hi : Inv call s := by
    refine hs.invariant_of (I := Inv call) htimed ?_ fun _ _ _ ht hi hok h => inv_step ht hi hok h
    rintro _ ⟨value, wakeCount, rfl⟩
    exact fun _ _ _ h => nomatch h
  rintro ⟨hw, hst, hq, hwk, hr⟩
  rcases hi t _ ht hw hst with (⟨hm, -⟩ | ⟨w, hm⟩) | ⟨w, hm⟩ | hpos
  · exact hq hm
  · exact (hwk w).1 hm
  · exact (hwk w).2 hm
  · omega

/-- The waiter suspends in the queue, and a waker enqueues it. -/
theorem not_lost_enqueued : ∃ s : State Unit Unit, s.wait () = some .suspended ∧ s.waker () = none ∧ s.ready () = 1 ∧
    ¬Lost s () := by
  have himp : ∀ (s : State Unit Unit) l,
      (() ∈ s.queue ∧ s.claimed () = false) ∨ s.wait () ≠ some (.suspend (s.wakeCount ())) →
        ¬Unnoticed s (fun _ => ⟨0, none, false⟩) l := by
    intro s l hor
    cases l with
    | waiter t =>
      rintro ⟨-, saved, hpc, -, rfl, hn⟩
      rcases hor with hq | hne
      · exact hn (Or.inl hq)
      · exact hne hpc
    | _ => exact not_false
  exact ⟨_, rfl, rfl, rfl, not_lost (fun _ => ⟨0, none, false⟩) _ (reach_exec himp (.init ⟨0, fun _ => 0, rfl⟩)
    (show exec (system fun _ => ⟨0, none, false⟩) _ (.wait () :: List.replicate 10 (.waiter ()) ++
      .wake () 1 1 :: List.replicate 10 (.waker ())) = some _ from rfl) (by decide)) () rfl⟩

/-! ## A lost wake-up -/

/-- The waker is done between the waiter's last look at the value and its sample of `wake_count`. -/
def lostRun : List (Label Unit Unit) :=
  .wait () :: List.replicate 6 (.waiter ()) ++ .wake () 1 1 :: List.replicate 7 (.waker ()) ++
    List.replicate 4 (.waiter ())

/-- **The waiter stays suspended**: the waker has dequeued it and is done. -/
theorem lost_wakeup : ∃ s, exec (system fun _ => ⟨0, none, false⟩) (.start 0 fun _ => 0) lostRun = some s ∧
    Reachable (system fun _ => ⟨0, none, false⟩) s ∧ s.claimed () = true ∧ s.waker () = none ∧ Lost s () := by
  refine ⟨_, rfl, reachable_exec (.init ⟨0, fun _ => 0, rfl⟩) (show exec _ _ lostRun = some _ from rfl), rfl, rfl, ?_⟩
  exact ⟨rfl, rfl, nofun, fun _ => ⟨nofun, nofun⟩, rfl⟩

end Cothread.Butex
