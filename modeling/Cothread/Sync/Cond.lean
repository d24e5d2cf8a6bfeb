import Cothread.Sync.Event

/-!
# `CondVar`: notifications and the waiters

Any number of bthreads and coroutines that lock the mutex, find the predicate false and wait, and any number of
notifiers that lock the mutex, make the predicate true, call `notify_one` or `notify_all` and unlock. The mutex and the
waiter queue are atomic. `wait` and `await_suspend` release the mutex before they enqueue the task, so a notifier in
between finds the queue empty (`lost_notification`). While no notifier finds the queue empty when a waiter has released
the mutex and is not queued yet, no waiter that had released the mutex before a `notify_all` is parked after it, and a
`notify_one` that comes after a waiter has released the mutex wakes a waiter (`loses_no_notification`).
-/

namespace Cothread.Cond

open Run
open Event (Kind)

/-- The next access of a waiter. -/
inductive WaitPc
  | lock
  | check  -- the predicate, under the mutex
  | unlock  -- `mutex.unlock()`
  | suspend  -- `state.store(SUSPENDED)`
  | enqueue  -- `enqueue_waiter`
  | swap  -- `SuspendCurrent()`
  | parked
  | relock  -- `mutex.lock()`, or the loop over `try_lock`
  | work  -- the predicate holds, under the mutex
  deriving DecidableEq

/-- The next access of a notifier; `all` tells `notify_all` from `notify_one`. -/
inductive NotifyPc (T : Type*)
  | lock (all : Bool)
  | setPred (all : Bool)
  | pop (all : Bool)  -- `waiter_queue_.Pop()`
  | storeReady (all : Bool) (t : T)  -- `state.store(READY)`
  | submit (all : Bool) (t : T)  -- `Submit(waiter)`: `state.store(READY)`
  | push (all : Bool) (t : T)  -- `Submit(waiter)`: the push
  | native (all : Bool)  -- `pthread_cond_signal`, `pthread_cond_broadcast`
  | returned (all woke : Bool)  -- the call returns; `woke`: it has submitted a waiter
  | unlock
  deriving DecidableEq

structure State (T E : Type*) where
  owner : Option (T ⊕ E)  -- of the mutex
  pred : Bool
  queue : List T
  taskState : T → TaskState
  ready : T → ℕ  -- how often the task is in a run queue
  wait : T → Option WaitPc
  round : T → ℕ  -- how often the task has released the mutex in `wait`
  notifier : E → Option (NotifyPc T)
  seen : E → T → Option ℕ  -- the waiters that were waiting when the notifier's call began, and the rounds they were in
  allDone : List (T → Option ℕ)  -- what the calls of `notify_all` that have returned had seen
  oneDone : List ((T → Option ℕ) × Bool)  -- what those of `notify_one` had seen, and whether they have woken a waiter

inductive Label (T E : Type*)
  | wait (t : T)
  | waiter (t : T)
  | leave (t : T) (pred : Bool)
  | run (t : T)
  | notify (e : E) (all : Bool)
  | notifier (e : E)
  deriving DecidableEq

/-- Nobody has called anything yet. -/
def State.start {T E : Type*} (pred : Bool) : State T E where
  owner := none
  pred := pred
  queue := []
  taskState _ := .running
  ready _ := 0
  wait _ := none
  round _ := 0
  notifier _ := none
  seen _ _ := none
  allDone := []
  oneDone := []

section Steps

variable {T E : Type*} [DecidableEq T] [DecidableEq E]

/-- The task has released the mutex and not enqueued itself yet. -/
def State.Between (s : State T E) (t : T) : Prop := s.wait t = some .suspend ∨ s.wait t = some .enqueue

/-- The task waits: it has released the mutex, and nobody has taken it from the queue. -/
def State.Waits (s : State T E) (t : T) : Prop := s.Between t ∨ t ∈ s.queue

instance (s : State T E) (t : T) : Decidable (s.Between t) := inferInstanceAs (Decidable (_ ∨ _))

instance (s : State T E) (t : T) : Decidable (s.Waits t) := inferInstanceAs (Decidable (_ ∨ _))

def State.goto (s : State T E) (t : T) (pc : Option WaitPc) : State T E :=
  { s with wait := Function.update s.wait t pc }

def State.setState (s : State T E) (t : T) (x : TaskState) : State T E :=
  { s with taskState := Function.update s.taskState t x }

/-- The mutex is taken by `p`, who goes on. -/
def State.acquire (s : State T E) (p : T ⊕ E) (r : State T E) : Option (State T E) :=
  if s.owner = none then some { r with owner := some p } else none

/-- One access of a waiter; `none` while it is parked or waits for the mutex, and while it works. -/
def State.waitStep (s : State T E) (kind : T → Kind) (t : T) : WaitPc → Option (State T E)
  | .lock | .relock => s.acquire (.inl t) (s.goto t (some .check))
  | .check => some (s.goto t (some (if s.pred then .work else .unlock)))
  | .unlock =>
    some { s.goto t (some .suspend) with owner := none, round := Function.update s.round t (s.round t + 1) }
  | .suspend => some ((s.setState t .suspended).goto t (some .enqueue))
  | .enqueue =>
    some ({ s with queue := s.queue ++ [t] }.goto t
      (some (match kind t with | .bthread => .swap | .coroutine => .parked)))
  | .swap => some (s.goto t (some .parked))
  | .parked | .work => none

/-- One access of a notifier; `none` while it waits for the mutex. -/
def State.notifyStep (s : State T E) (e : E) : NotifyPc T → Option (State T E × Option (NotifyPc T))
  | .lock all => (s.acquire (.inr e) s).map fun r => (r, some (.setPred all))
  | .setPred all =>
    some ({ s with
      pred := true
      seen := Function.update s.seen e fun t => if s.Waits t then some (s.round t) else none }, some (.pop all))
  | .pop all =>
    match s.queue with
    | [] => some (s, some (.native all))
    | t :: q => some ({ s with queue := q }, some (.storeReady all t))
  | .storeReady all t => some (s.setState t .ready, some (.submit all t))
  | .submit all t => some (s.setState t .ready, some (.push all t))
  | .push all t =>
    some ({ s with ready := Function.update s.ready t (s.ready t + 1) },
      some (if all then .pop true else .returned false true))
  | .native all => some (s, some (.returned all false))
  | .returned all woke =>
    some (if all then { s with allDone := s.seen e :: s.allDone }
      else { s with oneDone := (s.seen e, woke) :: s.oneDone }, some .unlock)
  | .unlock => some ({ s with owner := none }, none)

/-- One step. -/
def step (kind : T → Kind) (s : State T E) : Label T E → Option (State T E)
  | .wait t => if s.wait t = none then some (s.goto t (some .lock)) else none
  | .waiter t => (s.wait t).bind (s.waitStep kind t)
  | .leave t pred => if s.wait t = some .work then some { s.goto t none with owner := none, pred := pred } else none
  | .run t =>
    if s.wait t = some .parked ∧ 0 < s.ready t then
      some { (s.setState t .running).goto t (some .relock) with ready := Function.update s.ready t (s.ready t - 1) }
    else none
  | .notify e all =>
    if s.notifier e = none then some { s with notifier := Function.update s.notifier e (some (.lock all)) } else none
  | .notifier e =>
    (s.notifier e).bind fun pc => (s.notifyStep e pc).map fun r =>
      { r.1 with notifier := Function.update s.notifier e r.2 }

end Steps

/-- Any waiters and any notifiers. -/
def system {T : Type*} (E : Type*) [DecidableEq T] [DecidableEq E] (kind : T → Kind) :
    System (State T E) (Label T E) where
  init s := ∃ pred, s = .start pred
  step := step kind

variable {T E : Type*}

/-- A notifier finds the queue empty although a waiter has released the mutex and is not queued yet. -/
def Missed (s : State T E) : Label T E → Prop
  | .notifier e => (∃ all, s.notifier e = some (.pop all)) ∧ s.queue = [] ∧ ∃ t, s.Between t
  | _ => False

/-- **No notification is lost**: no waiter is parked in a round in which a `notify_all` that has returned had seen it,
and a `notify_one` that had seen a waiter has woken one. -/
structure Notified (s : State T E) : Prop where
  all : ∀ seen ∈ s.allDone, ∀ t, seen t = some (s.round t) → t ∉ s.queue
  one : ∀ r ∈ s.oneDone, (∃ t, r.1 t ≠ none) → r.2 = true

/-! ## The invariant -/

/-- The waiter holds the mutex. -/
def WaitPc.Holds : WaitPc → Prop
  | .check | .unlock | .work => True
  | _ => False

/-- The notifier holds the mutex. -/
def NotifyPc.Holds : NotifyPc T → Prop
  | .lock _ => False
  | _ => True

/-- The waiters that were seen have begun the rounds they were seen in. -/
def Begun (s : State T E) (seen : T → Option ℕ) : Prop := ∀ t n, seen t = some n → n ≤ s.round t

/-- No waiter that was seen still waits in the round it was seen in. -/
def Settled (s : State T E) (seen : T → Option ℕ) : Prop :=
  ∀ t n, seen t = some n → n ≤ s.round t ∧ (n = s.round t → ¬s.Waits t)

/-- What holds of the waiters that a notifier has seen. -/
def NotifyPc.Ok (s : State T E) (seen : T → Option ℕ) : NotifyPc T → Prop
  | .lock _ | .setPred _ | .unlock | .storeReady false _ | .submit false _ | .push false _ => True
  | .pop false => ∀ t, seen t ≠ none → s.Waits t
  | .pop true | .storeReady true _ | .submit true _ | .push true _ => Begun s seen
  | .native false => ∀ t, seen t = none
  | .native true | .returned true _ => Settled s seen
  | .returned false woke => (∃ t, seen t ≠ none) → woke = true

structure Inv (s : State T E) : Prop where
  waiter : ∀ t pc, s.wait t = some pc → pc.Holds → s.owner = some (.inl t)
  notifier : ∀ e pc, s.notifier e = some pc → pc.Holds → s.owner = some (.inr e)
  ok : ∀ e pc, s.notifier e = some pc → pc.Ok s (s.seen e)
  all : ∀ seen ∈ s.allDone, Settled s seen
  one : ∀ r ∈ s.oneDone, (∃ t, r.1 t ≠ none) → r.2 = true

theorem Inv.notified {s : State T E} (h : Inv s) : Notified s where
  all seen hm t hs hq := (h.all seen hm t _ hs).2 rfl (Or.inr hq)
  one := h.one

section Steps

variable {s s' : State T E} {seen : T → Option ℕ}

/-- Rounds go on, and nobody waits anew in an old round. -/
structure Onward (s s' : State T E) : Prop where
  round : ∀ t, s.round t ≤ s'.round t
  waits : ∀ t, s'.Waits t → s.Waits t ∨ s.round t < s'.round t

theorem Settled.onward (h : Settled s seen) (hs : Onward s s') : Settled s' seen := by
  intro t n hn
  obtain ⟨h1, h2⟩ := h t n hn
  have hround := hs.round t
  refine ⟨by omega, fun he hw => ?_⟩
  rcases hs.waits t hw with h3 | h3
  · exact h2 (by omega) h3
  · omega

theorem Begun.onward (h : Begun s seen) (hs : Onward s s') : Begun s' seen :=
  fun t n hn => Nat.le_trans (h t n hn) (hs.round t)

/-- When nobody waits, every waiter that was seen is settled. -/
theorem Begun.settled (h : Begun s seen) (hw : ∀ t, ¬s.Waits t) : Settled s seen :=
    fun t n hn => ⟨h t n hn, fun _ => hw t⟩

/-- What holds of the seen waiters still holds when all waiters go on waiting. -/
theorem NotifyPc.Ok.onward {pc : NotifyPc T} (h : pc.Ok s seen) (hs : Onward s s')
    (hw : ∀ t, s.Waits t → s'.Waits t) : pc.Ok s' seen := by
  cases pc with
  | pop all => cases all with
    | false => exact fun t ht => hw t (h t ht)
    | true => exact Begun.onward h hs
  | storeReady all t | submit all t | push all t => cases all with
    | false => trivial
    | true => exact Begun.onward h hs
  | native all => cases all with
    | false => exact h
    | true => exact Settled.onward h hs
  | returned all woke => cases all with
    | false => exact h
    | true => exact Settled.onward h hs
  | lock all | setPred all | unlock => trivial

/-- Whoever holds the mutex is `p`. -/
structure Alone (s : State T E) (p : T ⊕ E) : Prop where
  waiter : ∀ t pc, s.wait t = some pc → pc.Holds → p = .inl t
  notifier : ∀ e pc, s.notifier e = some pc → pc.Holds → p = .inr e

theorem Inv.alone (h : Inv s) {p : T ⊕ E} (hp : s.owner = none ∨ s.owner = some p) : Alone s p where
  waiter t pc ht hh := by
    have ho := h.waiter t pc ht hh
    rcases hp with hp | hp <;> rw [hp] at ho <;> cases ho
    rfl
  notifier e pc he hh := by
    have ho := h.notifier e pc he hh
    rcases hp with hp | hp <;> rw [hp] at ho <;> cases ho
    rfl

variable [DecidableEq T]

/-- A waiter goes on: `r` is the new state before the waiter's next access is set. -/
theorem Inv.goto (h : Inv s) {r : State T E} {t : T} {pc : Option WaitPc} (hon : Onward s (r.goto t pc))
    (hw : ∀ u, s.Waits u → (r.goto t pc).Waits u) (hwait : r.wait = s.wait) (hn : r.notifier = s.notifier)
    (hseen : r.seen = s.seen) (hall : r.allDone = s.allDone) (hone : r.oneDone = s.oneDone)
    (ho : r.owner = s.owner ∨ Alone s (.inl t)) (hpc : ∀ x, pc = some x → x.Holds → r.owner = some (.inl t)) :
    Inv (r.goto t pc) where
  waiter u x hu hx := by
    by_cases hut : u = t
    · subst hut
      exact hpc x (by simpa [State.goto] using hu) hx
    · have hu' : s.wait u = some x := by simpa [State.goto, hut, hwait] using hu
      rcases ho with ho | ho
      · exact ho.trans (h.waiter u x hu' hx)
      · cases ho.waiter u x hu' hx
        exact absurd rfl hut
  notifier e x he hx := by
    have he' : s.notifier e = some x := hn ▸ he
    rcases ho with ho | ho
    · exact ho.trans (h.notifier e x he' hx)
    · cases ho.notifier e x he' hx
  ok e x he := by
    show x.Ok (r.goto t pc) (r.seen e)
    rw [hseen]
    exact (h.ok e x (hn ▸ he)).onward hon hw
  all seen hm := (h.all seen (hall ▸ hm)).onward hon
  one q hm := h.one q (hone ▸ hm)

/-- Who waits after a waiter has gone on. -/
theorem waits_goto {r : State T E} {t u : T} {pc : Option WaitPc} : (r.goto t pc).Waits u ↔
    (if u = t then pc = some .suspend ∨ pc = some .enqueue else r.Between u) ∨ u ∈ r.queue := by
  by_cases hut : u = t
  · subst hut; simp [State.Waits, State.Between, State.goto]
  · simp [State.Waits, State.Between, State.goto, hut]

/-- A waiter that neither begins nor ends to wait goes on. -/
theorem Inv.goto_keep (h : Inv s) {r : State T E} {t : T} {old pc : Option WaitPc} (hold : s.wait t = old)
    (hbetween : (old = some .suspend ∨ old = some .enqueue) ↔ (pc = some .suspend ∨ pc = some .enqueue))
    (hwait : r.wait = s.wait) (hq : r.queue = s.queue) (hround : r.round = s.round) (hn : r.notifier = s.notifier)
    (hseen : r.seen = s.seen) (hall : r.allDone = s.allDone) (hone : r.oneDone = s.oneDone)
    (ho : r.owner = s.owner ∨ Alone s (.inl t)) (hpc : ∀ x, pc = some x → x.Holds → r.owner = some (.inl t)) :
    Inv (r.goto t pc) := by
  have hiff : ∀ u, (r.goto t pc).Waits u ↔ s.Waits u := by
    intro u
    rw [waits_goto, hq]
    by_cases hut : u = t
    · subst hut
      simp only [if_true, State.Waits, State.Between, hold, hbetween]
    · simp only [if_neg hut, State.Waits, State.Between, hwait]
  exact h.goto ⟨fun u => Nat.le_of_eq (congrFun hround u).symm, fun u hu => Or.inl ((hiff u).mp hu)⟩
    (fun u hu => (hiff u).mpr hu) hwait hn hseen hall hone ho hpc

/-- A waiter's access. -/
theorem Inv.waitStep (h : Inv s) {kind : T → Kind} {t : T} {pc : WaitPc} (hpc : s.wait t = some pc)
    (hst : s.waitStep kind t pc = some s') : Inv s' := by
  cases pc with
  | lock | relock =>
    obtain ⟨hfree, hst⟩ := Option.ite_none_right_eq_some.mp hst
    cases hst
    exact h.goto_keep (r := { s with owner := some (.inl t) }) hpc (by simp) rfl rfl rfl rfl rfl rfl rfl
      (Or.inr (h.alone (Or.inl hfree))) fun _ _ _ => rfl
  | check =>
    cases hst
    refine h.goto_keep hpc (by cases s.pred <;> simp) rfl rfl rfl rfl rfl rfl rfl (Or.inl rfl) fun _ _ _ => ?_
    exact h.waiter t _ hpc trivial
  | unlock =>
    cases hst
    refine h.goto (r := { s with owner := none, round := Function.update s.round t (s.round t + 1) })
      ⟨fun u => ?_, fun u hu => ?_⟩ (fun u hu => ?_) rfl rfl rfl rfl rfl
      (Or.inr (h.alone (Or.inr (h.waiter t _ hpc trivial)))) fun x hx hh => ?_
    · by_cases hut : u = t
      · subst hut; simp [State.goto]
      · simp [State.goto, hut]
    · by_cases hut : u = t
      · subst hut; exact Or.inr (by simp [State.goto])
      · rw [waits_goto, if_neg hut] at hu
        exact Or.inl hu
    · rw [waits_goto]
      by_cases hut : u = t
      · exact Or.inl (by simp [hut])
      · rw [if_neg hut]
        exact hu
    · cases hx
      exact hh.elim
  | suspend =>
    cases hst
    refine h.goto_keep hpc (by simp) rfl rfl rfl rfl rfl rfl rfl (Or.inl rfl) fun x hx hh => ?_
    cases hx
    exact hh.elim
  | enqueue =>
    cases hst
    refine h.goto (r := { s with queue := s.queue ++ [t] }) ⟨fun u => Nat.le_refl _, fun u hu => Or.inl ?_⟩
      (fun u hu => ?_)
      rfl rfl rfl rfl rfl (Or.inl rfl) fun x hx hh => ?_
    · by_cases hut : u = t
      · exact Or.inl (Or.inr (hut ▸ hpc))
      · rw [waits_goto, if_neg hut] at hu
        exact hu.imp_right fun hm => by simpa [hut] using hm
    · rw [waits_goto]
      by_cases hut : u = t
      · exact Or.inr (by simp [hut])
      · rw [if_neg hut]
        exact hu.imp_right fun hm => List.mem_append_left _ hm
    · cases hx
      cases hk : kind t <;> rw [hk] at hh <;> exact hh.elim
  | swap =>
    cases hst
    refine h.goto_keep hpc (by simp) rfl rfl rfl rfl rfl rfl rfl (Or.inl rfl) fun x hx hh => ?_
    cases hx
    exact hh.elim
  | parked | work => cases hst

variable [DecidableEq E]

omit [DecidableEq T] in
/-- Only the notifier `e` holds the mutex, and it goes on: `r` is the new state before its next access is set. -/
theorem Inv.of_notifier {r : State T E} {e : E} {pc : Option (NotifyPc T)} (halone : Alone s (.inr e))
    (hwait : r.wait = s.wait) (hpc : ∀ x, pc = some x → (x.Holds → r.owner = some (.inr e)) ∧ x.Ok r (r.seen e))
    (hall : ∀ seen ∈ r.allDone, Settled r seen) (hone : ∀ q ∈ r.oneDone, (∃ t, q.1 t ≠ none) → q.2 = true) :
    Inv { r with notifier := Function.update s.notifier e pc } where
  waiter u x hu hx := by
    cases halone.waiter u x (hwait ▸ hu) hx
  notifier e' x he hx := by
    by_cases hee : e' = e
    · subst hee
      exact (hpc x (by simpa using he)).1 hx
    · have he' : s.notifier e' = some x := by simpa [hee] using he
      cases halone.notifier e' x he' hx
      exact absurd rfl hee
  ok e' x he := by
    by_cases hee : e' = e
    · subst hee
      exact (hpc x (by simpa using he)).2
    · have he' : s.notifier e' = some x := by simpa [hee] using he
      -- whoever does not hold the mutex has not looked at the waiters yet
      cases x with
      | lock all => trivial
      | _ =>
        cases halone.notifier e' _ he' trivial
        exact absurd rfl hee
  all := hall
  one := hone

omit [DecidableEq T] in
/-- The notifier `e`, which holds the mutex, goes on with it; no call returns. -/
theorem Inv.notifier_goes (h : Inv s) {r : State T E} {e : E} {old pc : NotifyPc T} (hold : s.notifier e = some old)
    (hh : old.Holds) (hon : Onward s r) (hwait : r.wait = s.wait) (ho : r.owner = s.owner)
    (hpc : pc.Ok r (r.seen e)) (hall : r.allDone = s.allDone) (hone : r.oneDone = s.oneDone) :
    Inv { r with notifier := Function.update s.notifier e (some pc) } := by
  have howner : s.owner = some (.inr e) := h.notifier e old hold hh
  refine Inv.of_notifier (h.alone (Or.inr howner)) hwait (fun x hx => ?_) (fun seen hm => ?_) fun q hm => ?_
  · cases hx
    exact ⟨fun _ => ho.trans howner, hpc⟩
  · exact (h.all seen (hall ▸ hm)).onward hon
  · exact h.one q (hone ▸ hm)

omit [DecidableEq T] [DecidableEq E] in
theorem Onward.refl (s : State T E) : Onward s s := ⟨fun _ => Nat.le_refl _, fun _ => Or.inl⟩

/-- A notifier takes the first waiter, or finds that there is none. -/
theorem Inv.notifyPop (h : Inv s) {e : E} {all : Bool} (hpc : s.notifier e = some (.pop all))
    (hok : ¬Missed s (.notifier e)) {r : State T E × Option (NotifyPc T)} (hst : s.notifyStep e (.pop all) = some r) :
    Inv { r.1 with notifier := Function.update s.notifier e r.2 } := by
  have hmine := h.ok e _ hpc
  simp only [State.notifyStep] at hst
  cases hq : s.queue with
  | nil =>
    rw [hq] at hst
    cases hst
    have hnone : ∀ t, ¬s.Waits t := by
      rintro t (hb | hm)
      · exact hok ⟨⟨all, hpc⟩, hq, t, hb⟩
      · simp [hq] at hm
    refine h.notifier_goes hpc trivial (.refl s) rfl rfl ?_ rfl rfl
    cases all with
    | false =>
      intro t
      by_contra ht
      exact hnone t (hmine t ht)
    | true => exact Begun.settled hmine hnone
  | cons t q =>
    rw [hq] at hst
    cases hst
    have hon : Onward s { s with queue := q } :=
      ⟨fun _ => Nat.le_refl _,
        fun u hu => Or.inl (hu.imp_right fun hm => by rw [hq]; exact List.mem_cons_of_mem _ hm)⟩
    refine h.notifier_goes hpc trivial hon rfl rfl ?_ rfl rfl
    cases all with
    | false => trivial
    | true => exact Begun.onward hmine hon

/-- A call of `notify_one` or `notify_all` is over. -/
theorem Inv.notifyReturn (h : Inv s) {e : E} {all woke : Bool} (hpc : s.notifier e = some (.returned all woke))
    {r : State T E × Option (NotifyPc T)} (hst : s.notifyStep e (.returned all woke) = some r) :
    Inv { r.1 with notifier := Function.update s.notifier e r.2 } := by
  have hmine := h.ok e _ hpc
  cases hst
  have howner : s.owner = some (.inr e) := h.notifier e _ hpc trivial
  refine Inv.of_notifier (h.alone (Or.inr howner)) (by split_ifs <;> rfl) (fun x hx => ?_) ?_ ?_
  · cases hx
    exact ⟨fun _ => by split_ifs <;> exact howner, trivial⟩
  · cases all with
    | false => exact h.all
    | true =>
      intro seen hm
      rcases List.mem_cons.mp hm with rfl | hm
      · exact hmine
      · exact h.all seen hm
  · cases all with
    | false =>
      intro q hm
      rcases List.mem_cons.mp hm with rfl | hm
      · exact hmine
      · exact h.one q hm
    | true => exact h.one

/-- A notifier's access, when it does not miss a waiter. -/
theorem Inv.notifyStep (h : Inv s) {e : E} {pc : NotifyPc T} (hpc : s.notifier e = some pc)
    (hok : ¬Missed s (.notifier e))
    {r : State T E × Option (NotifyPc T)} (hst : s.notifyStep e pc = some r) :
    Inv { r.1 with notifier := Function.update s.notifier e r.2 } := by
  have hmine := h.ok e pc hpc
  cases pc with
  | lock all =>
    obtain ⟨r, hr, rfl⟩ := Option.map_eq_some_iff.mp hst
    obtain ⟨hfree, hr⟩ := Option.ite_none_right_eq_some.mp hr
    cases hr
    refine Inv.of_notifier (r := { s with owner := some (.inr e) }) (h.alone (Or.inl hfree)) rfl (fun x hx => ?_)
      h.all h.one
    cases hx
    exact ⟨fun _ => rfl, trivial⟩
  | setPred all =>
    cases hst
    refine h.notifier_goes hpc trivial ⟨fun _ => Nat.le_refl _, fun _ => Or.inl⟩ rfl rfl ?_ rfl rfl
    cases all with
    | false =>
      intro t ht
      by_contra hw
      exact ht (by simp [show ¬s.Waits t from hw])
    | true =>
      intro t n hn
      have hn' : (if s.Waits t then some (s.round t) else none) = some n := by simpa using hn
      split_ifs at hn'
      cases hn'
      exact Nat.le_refl _
  | pop all => exact h.notifyPop hpc hok hst
  | storeReady all t | submit all t =>
    cases hst
    refine h.notifier_goes hpc trivial ⟨fun _ => Nat.le_refl _, fun _ => Or.inl⟩ rfl rfl ?_ rfl rfl
    cases all <;> exact hmine
  | push all t =>
    cases hst
    refine h.notifier_goes hpc trivial ⟨fun _ => Nat.le_refl _, fun _ => Or.inl⟩ rfl rfl ?_ rfl rfl
    cases all with
    | false => exact fun _ => rfl
    | true => exact hmine
  | native all =>
    cases hst
    refine h.notifier_goes hpc trivial (.refl s) rfl rfl ?_ rfl rfl
    cases all with
    | false =>
      rintro ⟨t, ht⟩
      exact absurd (hmine t) ht
    | true => exact hmine
  | returned all woke => exact h.notifyReturn hpc hst
  | unlock =>
    cases hst
    have howner : s.owner = some (.inr e) := h.notifier e _ hpc trivial
    exact Inv.of_notifier (r := { s with owner := none }) (h.alone (Or.inr howner)) rfl
      (fun x hx => by cases hx) h.all h.one

/-- **What one step preserves.** -/
theorem inv_step {kind : T → Kind} {l : Label T E} (h : Inv s) (hok : ¬Missed s l) (hst : step kind s l = some s') :
    Inv s' := by
  cases l with
  | wait t =>
    obtain ⟨hnone, hst⟩ := Option.ite_none_right_eq_some.mp hst
    cases hst
    refine h.goto_keep hnone (by simp) rfl rfl rfl rfl rfl rfl rfl (Or.inl rfl) fun x hx hh => ?_
    cases hx
    exact hh.elim
  | waiter t =>
    obtain ⟨pc, hpc, hst⟩ := Option.bind_eq_some_iff.mp hst
    exact h.waitStep hpc hst
  | leave t pred =>
    obtain ⟨hwork, hst⟩ := Option.ite_none_right_eq_some.mp hst
    cases hst
    exact h.goto_keep (r := { s with owner := none, pred := pred }) hwork (by simp) rfl rfl rfl rfl rfl rfl rfl
      (Or.inr (h.alone (Or.inr (h.waiter t _ hwork trivial)))) fun x hx => by cases hx
  | run t =>
    obtain ⟨⟨hparked, -⟩, hst⟩ := Option.ite_none_right_eq_some.mp hst
    cases hst
    refine h.goto_keep (r := { s.setState t .running with ready := Function.update s.ready t (s.ready t - 1) }) hparked
      (by simp) rfl rfl rfl rfl rfl rfl rfl (Or.inl rfl) fun x hx hh => ?_
    cases hx
    exact hh.elim
  | notify e all =>
    obtain ⟨hnone, hst⟩ := Option.ite_none_right_eq_some.mp hst
    cases hst
    refine ⟨h.waiter, fun e' pc he hh => ?_, fun e' pc he => ?_, h.all, h.one⟩ <;> by_cases hee : e' = e
    · subst hee
      cases (by simpa using he : NotifyPc.lock all = pc)
      exact hh.elim
    · exact h.notifier e' pc (by simpa [hee] using he) hh
    · subst hee
      cases (by simpa using he : NotifyPc.lock all = pc)
      trivial
    · exact h.ok e' pc (by simpa [hee] using he)
  | notifier e =>
    obtain ⟨pc, hpc, hst⟩ := Option.bind_eq_some_iff.mp hst
    obtain ⟨r, hr, rfl⟩ := Option.map_eq_some_iff.mp hst
    exact h.notifyStep hpc hok hr

/-- **No notification is lost** in a run in which no notifier finds the queue empty while a waiter has released the
mutex and is not queued yet. -/
theorem loses_no_notification {kind : T → Kind}
    (hs : Reach (system E kind) (fun s l => ¬Missed s l) s) : Notified s := by
  have hinv : Inv s := by
    refine hs.invariant (I := Inv) ?_ fun s t l h hok hst => inv_step h hok hst
    rintro s ⟨pred, rfl⟩
    exact ⟨fun _ _ ht => (by cases ht), fun _ _ he => (by cases he), fun _ _ he => (by cases he),
      fun _ hm => (by cases hm), fun _ hm => (by cases hm)⟩
  exact hinv.notified

end Steps

/-- A bthread and a coroutine wait; `notify_one` wakes the bthread, and `notify_all` the coroutine. -/
theorem notified_both : ∃ s : State Bool Unit, s.wait false = some .relock ∧ s.wait true = some .relock ∧
    Notified s := by
  have himp : ∀ (s : State Bool Unit) (l : Label Bool Unit), (l = .notifier () → ¬s.Between false ∧ ¬s.Between true) →
      ¬Missed s l := by
    intro s l h
    cases l with
    | notifier e =>
      rintro ⟨-, -, t, ht⟩
      cases t
      · exact (h rfl).1 ht
      · exact (h rfl).2 ht
    | _ => exact not_false
  refine ⟨_, rfl, rfl, loses_no_notification (reach_exec himp (.init ⟨false, rfl⟩)
    (show exec (system Unit fun t : Bool => if t then .coroutine else .bthread) _ [.wait false, .waiter false,
    .waiter false, .waiter false, .waiter false,
    .waiter false, .waiter false, .wait true, .waiter true, .waiter true, .waiter true, .waiter true, .waiter true,
    .notify () false, .notifier (), .notifier (), .notifier (), .notifier (), .notifier (), .notifier (), .notifier (),
    .notifier (), .notify () true, .notifier (), .notifier (), .notifier (), .notifier (), .notifier (), .notifier (),
    .notifier (), .notifier (), .notifier (), .notifier (), .run false, .run true] = some _ from rfl) (by decide))⟩

/-- **A lost notification**: a waiter has released the mutex, a notifier finds the queue empty and returns, and then the
waiter enqueues itself and parks; a bthread with `notify_all`, and a coroutine with `notify_one`. -/
theorem lost_notification :
    (∃ s : State Unit Unit, Reachable (system Unit fun _ => .bthread) s ∧
    (∃ seen ∈ s.allDone, seen () = some (s.round ())) ∧
      s.wait () = some .parked ∧ s.queue = [()] ∧ s.notifier () = none) ∧
    ∃ s : State Unit Unit, Reachable (system Unit fun _ => .coroutine) s ∧
      (∃ r ∈ s.oneDone, r.1 () ≠ none ∧ r.2 = false) ∧ s.wait () = some .parked ∧ s.queue = [()] ∧
        s.notifier () = none := by
  constructor
  · exact ⟨_, reachable_exec (.init ⟨false, rfl⟩) (show exec _ _ [.wait (), .waiter (), .waiter (), .waiter (),
      .notify () true, .notifier (), .notifier (), .notifier (), .notifier (), .notifier (), .notifier (), .waiter (),
      .waiter (), .waiter ()] = some _ from rfl), ⟨_, List.mem_singleton_self _, rfl⟩, rfl, rfl, rfl⟩
  · exact ⟨_, reachable_exec (.init ⟨false, rfl⟩) (show exec _ _ [.wait (), .waiter (), .waiter (), .waiter (),
      .notify () false, .notifier (), .notifier (), .notifier (), .notifier (), .notifier (), .notifier (), .waiter (),
      .waiter ()] = some _ from rfl), ⟨_, List.mem_singleton_self _, nofun, rfl⟩, rfl, rfl, rfl⟩

end Cothread.Cond
