import Cothread.Core.Basic
import Cothread.Lib.Run
import Mathlib.Data.List.Nodup

/-!
# `Butex`: a bthread that waits again and again

One bthread calls `Wait` any number of times, on any butexes and with or without timeouts. A `Wait` up to its
suspension, a `Wake`, a timer that fires and the resumption are one step each; the value of the butex can change at each
of the places where `Wait` looks at it. The fields `wakeup`, `timed_out` and `timer_id` of the task outlive the `Wait`:
nothing resets the first two, and a `Wait` that is abandoned leaves its timer armed, as does a `Wake` that takes the id
0 for no timer (`disturbed_waits`). Without these three no timer of an earlier `Wait` is armed, a suspended `Wait`
returns `ETIMEDOUT` just when its own timer has fired before a `Wake` has dequeued it, its timer resumes it, and no
other timer does (`timed_waits`).
-/

namespace Cothread.TimedWait

open Run

/-- An entry in the heap of `TimerThread`. -/
structure Timer where
  id : Int
  wait : ℕ  -- the call of `Wait` that has armed it
  cancelled : Bool
  deriving DecidableEq

/-- Where `Wait` finds the value changed. -/
inductive Change
  | first  -- 1., before it has done anything
  | second  -- 4., before it sets up the timeout
  | queued  -- 7.5., after it has enqueued the task
  deriving DecidableEq

/-- A `Wait` that has suspended. -/
structure Suspension where
  dequeued : Bool  -- a `Wake` has dequeued the task
  fired : Bool  -- its own timer has fired before that
  deriving DecidableEq

/-- How a `Wait` that suspended has ended. -/
structure Outcome where
  timedOut : Bool  -- it has returned `ETIMEDOUT`
  fired : Bool  -- its own timer has fired before any `Wake` dequeued it
  deriving DecidableEq

/-- The fields of the task, the timers that its calls of `Wait` have armed, and what has happened to these calls. -/
structure State (B : Type*) where
  taskState : TaskState
  isWaiting : Bool
  wakeup : Bool
  timedOut : Bool
  timerId : Int
  waitingButex : Option B
  queued : Option B  -- the butex whose wait list holds the task, not claimed
  timers : List Timer
  waits : ℕ  -- how often `Wait` has been called
  abandoned : List ℕ  -- the calls that have found the value changed after they had enqueued the task
  suspension : Option Suspension  -- the current `Wait`, when it has suspended
  outcomes : List Outcome
  resumers : List (ℕ × ℕ)  -- the timers that have resumed the task: who has armed them, and who was resumed

inductive Label (B : Type*)
  | wait (b : B) (timeout : Option Int) (change : Option Change)  -- the timeout carries the id that `Schedule` gives
  | wake (b : B)
  | fire (e : Timer)
  | resume
  deriving DecidableEq

/-- The task is running and has not waited yet. -/
def State.start (B : Type*) : State B where
  taskState := .running
  isWaiting := false
  wakeup := false
  timedOut := false
  timerId := 0
  waitingButex := none
  queued := none
  timers := []
  waits := 0
  abandoned := []
  suspension := none
  outcomes := []
  resumers := []

/-- `TimerThread::Cancel`: the first entry with the id. -/
def cancel (id : Int) : List Timer → List Timer
  | [] => []
  | e :: q => if e.id = id then { e with cancelled := true } :: q else e :: cancel id q

section Steps

variable {B : Type*}

/-- Steps 5 to 7 of `Wait`: the timer, `waiting_butex` and the wait list. -/
def State.enqueue (s : State B) (b : B) (timeout : Option Int) : State B :=
  { s with
    isWaiting := true
    timers := match timeout with
      | some id => ⟨id, s.waits, false⟩ :: s.timers
      | none => s.timers
    timerId := timeout.getD s.timerId
    waitingButex := some b
    queued := some b }

/-- `Wait` up to its suspension, or to its end. -/
def State.wait (s : State B) (b : B) (timeout : Option Int) : Option Change → State B
  | some .first => s
  | change =>
    if s.isWaiting then s
    else match change with
      | some .second => s
      | some .queued =>
        { s.enqueue b timeout with
          queued := none, isWaiting := false, waitingButex := none, abandoned := s.waits :: s.abandoned }
      | _ => { s.enqueue b timeout with taskState := .suspended, suspension := some ⟨false, false⟩ }

/-- `Wake`, when it dequeues the task. -/
def State.wake (s : State B) : State B :=
  { s with
    queued := none
    isWaiting := false
    timers := if s.timerId ≠ 0 then cancel s.timerId s.timers else s.timers
    taskState := if s.taskState = .suspended then .ready else s.taskState
    suspension := s.suspension.map fun c => { c with dequeued := true } }

/-- `TimeoutCallback`. -/
def State.timeoutCallback (s : State B) (e : Timer) : State B :=
  if s.wakeup then s
  else if s.taskState = .suspended then
    -- `Remove` takes the task out of the wait list
    { s with
      wakeup := true
      timedOut := true
      queued := if s.waitingButex.isSome ∧ s.isWaiting then none else s.queued
      isWaiting := if s.waitingButex.isSome then false else s.isWaiting
      taskState := .ready
      resumers := (e.wait, s.waits) :: s.resumers }
  else { s with wakeup := true, timedOut := true }

/-- The suspended `Wait` learns that one of the timers has fired. -/
def Suspension.note (c : Suspension) (own : Bool) : Suspension := { c with fired := c.fired || own && !c.dequeued }

/-- A timer fires. -/
def State.fire (s : State B) (e : Timer) : State B :=
  { s.timeoutCallback e with
    timers := s.timers.erase e
    suspension := s.suspension.map fun c => c.note (e.wait = s.waits) }

/-- Step 10 of `Wait`: a worker has picked the task. -/
def State.resume (s : State B) : State B :=
  { s with
    taskState := .running
    waitingButex := none
    suspension := none
    outcomes := (s.suspension.map fun c => ⟨s.timedOut, c.fired⟩).toList ++ s.outcomes }

variable [DecidableEq B]

/-- One step; the ids that `Schedule` gives to armed timers are different. -/
def step (s : State B) : Label B → Option (State B)
  | .wait b timeout change =>
    if s.taskState = .running ∧ ∀ id ∈ timeout, ∀ e ∈ s.timers, e.id ≠ id then
      some ({ s with waits := s.waits + 1 }.wait b timeout change)
    else none
  | .wake b => some (if s.queued = some b then s.wake else s)
  | .fire e => if e ∈ s.timers ∧ e.cancelled = false then some (s.fire e) else none
  | .resume => if s.taskState = .ready then some s.resume else none

end Steps

/-- One bthread and any butexes. -/
def system (B : Type*) [DecidableEq B] : System (State B) (Label B) where
  init s := s = .start B
  step := step

variable {B : Type*}

/-- The task suspends although one of its timers has fired before; or a timer fires while the task is in a suspended
`Wait`, before the own timer of that `Wait` has fired, and it has been armed by a `Wait` that was abandoned, or has the
id 0 and a `Wake` has dequeued the task from its `Wait`. -/
def Stray (s : State B) : Label B → Prop
  | .wait _ _ change => change = none ∧ s.timedOut = true
  | .fire e => s.wakeup = false ∧ ∃ c ∈ s.suspension,
      e.wait ∈ s.abandoned ∨ e.id = 0 ∧ (e.wait ≠ s.waits ∨ c.dequeued = true)
  | _ => False

instance (s : State B) : ∀ l, Decidable (Stray s l)
  | .wait _ _ _ => inferInstanceAs (Decidable (_ ∧ _))
  | .fire e => inferInstanceAs (Decidable (_ ∧ ∃ c ∈ s.suspension,
      e.wait ∈ s.abandoned ∨ e.id = 0 ∧ (e.wait ≠ s.waits ∨ c.dequeued = true)))
  | .wake _ | .resume => .isFalse not_false

/-- **The outcome of a timed wait depends on that wait only**: a suspended `Wait` has returned `ETIMEDOUT` just when its
own timer had fired before any `Wake` dequeued it, it is not suspended any more once its own timer has fired, and no
timer has resumed a later `Wait`. -/
structure Sound (s : State B) : Prop where
  outcome : ∀ o ∈ s.outcomes, o.timedOut = o.fired
  fired : ∀ c ∈ s.suspension, c.fired = true → s.taskState ≠ .suspended
  own : ∀ r ∈ s.resumers, r.1 = r.2

/-! ## Cancelled timers -/

theorem cancel_ids (id : Int) : ∀ q : List Timer, (cancel id q).map Timer.id = q.map Timer.id
  | [] => rfl
  | e :: q => by
    simp only [cancel]
    split_ifs
    · rfl
    · rw [List.map_cons, List.map_cons, cancel_ids id q]

/-- What `Cancel` does to the entries: it cancels the one with the id, and no other. -/
theorem mem_cancel {id : Int} {e : Timer} : ∀ {q : List Timer}, (q.map Timer.id).Nodup → e ∈ cancel id q →
    (e.id = id → e.cancelled = true) ∧ (e.cancelled = false → e ∈ q) ∧ ∃ e' ∈ q, e'.id = e.id ∧ e'.wait = e.wait
  | [], _, h => by cases h
  | x :: q, hnd, h => by
    obtain ⟨hx, hnd⟩ := List.nodup_cons.mp (List.map_cons ▸ hnd)
    simp only [cancel] at h
    split_ifs at h with hid
    · rcases List.mem_cons.mp h with rfl | h
      · exact ⟨fun _ => rfl, nofun, x, List.mem_cons_self, rfl, rfl⟩
      · have hq := List.mem_cons_of_mem x h
        exact ⟨fun he => absurd (List.mem_map.mpr ⟨e, h, he.trans hid.symm⟩) hx, fun _ => hq, e, hq, rfl, rfl⟩
    · rcases List.mem_cons.mp h with rfl | h
      · exact ⟨fun he => absurd he hid, fun _ => List.mem_cons_self, e, List.mem_cons_self, rfl, rfl⟩
      · obtain ⟨h1, h2, e', h3, h4⟩ := mem_cancel hnd h
        exact ⟨h1, fun hc => List.mem_cons_of_mem x (h2 hc), e', List.mem_cons_of_mem x h3, h4⟩

/-! ## The invariant -/

/-- The task in a `Wait` that has suspended, or in none. -/
def Phase (s : State B) : Option Suspension → Prop
  | none => s.taskState = .running ∧ s.isWaiting = false ∧ s.queued = none
  | some ⟨false, false⟩ => s.taskState = .suspended ∧ s.isWaiting = true ∧ s.waitingButex.isSome ∧ s.timedOut = false
  -- dequeued by a `Wake`
  | some ⟨true, false⟩ => s.taskState = .ready ∧ s.isWaiting = false ∧ s.queued = none ∧ s.timedOut = false
  -- resumed by its timer
  | some ⟨false, true⟩ => s.taskState = .ready ∧ s.isWaiting = false ∧ s.queued = none ∧ s.timedOut = true
  | some ⟨true, true⟩ => False

/-- The timer may be armed: it is that of the suspended `Wait`, which nobody has ended, or a `Wait` has been abandoned
with it, or no `Wake` can cancel it. -/
def State.Armed (s : State B) (e : Timer) : Prop :=
  (e.wait = s.waits ∧ s.suspension = some ⟨false, false⟩) ∨ e.wait ∈ s.abandoned ∨ e.id = 0

structure Inv (s : State B) : Prop where
  ids : (s.timers.map Timer.id).Nodup
  past : ∀ e ∈ s.timers, e.wait ≤ s.waits
  armed : ∀ e ∈ s.timers, e.cancelled = false → s.Armed e
  own : s.suspension ≠ none → ∀ e ∈ s.timers, e.wait = s.waits → e.id = s.timerId
  wakeup : s.wakeup = s.timedOut
  phase : Phase s s.suspension
  outcome : ∀ o ∈ s.outcomes, o.timedOut = o.fired
  resumer : ∀ r ∈ s.resumers, r.1 = r.2

theorem Inv.sound {s : State B} (h : Inv s) : Sound s where
  outcome := h.outcome
  fired c hc hf := by
    have hp := h.phase
    rw [hc] at hp
    obtain ⟨d, f⟩ := c
    cases (hf : f = true)
    cases d
    · exact fun hs => by cases hs.symm.trans hp.1
    · exact hp.elim
  own := h.resumer

section Steps

variable {s : State B}

/-- A task that runs is in no suspended `Wait`. -/
theorem Inv.running (h : Inv s) (hr : s.taskState = .running) : s.suspension = none := by
  have hp := h.phase
  rcases hs : s.suspension with _ | ⟨_ | _, _ | _⟩
  · rfl
  all_goals
    rw [hs] at hp
    first
      | exact hp.elim
      | cases hr.symm.trans hp.1

/-- The timers after `Wait` has set one up. -/
theorem Inv.enqueue (h : Inv s) (hnone : s.suspension = none) {b : B} {timeout : Option Int}
    (hid : ∀ id ∈ timeout, ∀ e ∈ s.timers, e.id ≠ id) :
    let r := State.enqueue { s with waits := s.waits + 1 } b timeout
    (r.timers.map Timer.id).Nodup ∧ (∀ e ∈ r.timers, e.wait ≤ r.waits) ∧
      (∀ e ∈ r.timers, e.cancelled = false → e.wait = r.waits ∨ e.wait ∈ s.abandoned ∨ e.id = 0) ∧
      ∀ e ∈ r.timers, e.wait = r.waits → e.id = r.timerId := by
  have hold : ∀ e ∈ s.timers, e.wait ≤ s.waits + 1 ∧ e.wait ≠ s.waits + 1 := fun e he => by
    have := h.past e he
    omega
  have hleft : ∀ e ∈ s.timers, e.cancelled = false → e.wait ∈ s.abandoned ∨ e.id = 0 := fun e he hc =>
    (h.armed e he hc).resolve_left fun harmed => by
      rw [hnone] at harmed
      cases harmed.2
  cases timeout with
  | none =>
    exact ⟨h.ids, fun e he => (hold e he).1, fun e he hc => .inr (hleft e he hc),
      fun e he hw => absurd hw (hold e he).2⟩
  | some id =>
    refine ⟨List.nodup_cons.mpr ⟨fun hm => ?_, h.ids⟩, fun e he => ?_, fun e he hc => ?_, fun e he hw => ?_⟩
    · obtain ⟨e, he, heq⟩ := List.mem_map.mp hm
      exact hid id rfl e he heq
    · rcases List.mem_cons.mp he with rfl | he
      · exact Nat.le_refl _
      · exact (hold e he).1
    · rcases List.mem_cons.mp he with rfl | he
      · exact .inl rfl
      · exact .inr (hleft e he hc)
    · rcases List.mem_cons.mp he with rfl | he
      · rfl
      · exact absurd hw (hold e he).2

theorem Inv.wait (h : Inv s) {b : B} {timeout : Option Int} {change : Option Change} (hr : s.taskState = .running)
    (hid : ∀ id ∈ timeout, ∀ e ∈ s.timers, e.id ≠ id) (hok : ¬Stray s (.wait b timeout change)) :
    Inv ({ s with waits := s.waits + 1 }.wait b timeout change) := by
  have hnone := h.running hr
  have hp := h.phase
  rw [hnone] at hp
  obtain ⟨hids, hpast, harmed, hown⟩ := h.enqueue hnone (b := b) hid
  have hidle : Inv { s with waits := s.waits + 1 } := by
    constructor
    case ids => exact h.ids
    case past => exact fun e he => Nat.le_succ_of_le (h.past e he)
    case armed =>
      refine fun e he hc => (h.armed e he hc).imp_left fun ha => ?_
      rw [hnone] at ha
      cases ha.2
    case own => exact fun hs => absurd hnone hs
    case wakeup => exact h.wakeup
    case phase =>
      show Phase _ s.suspension
      rw [hnone]
      exact hp
    case outcome => exact h.outcome
    case resumer => exact h.resumer
  have hw : s.isWaiting = false := hp.2.1
  cases change with
  | none =>
    simp only [State.wait, hw, Bool.false_eq_true, if_false]
    have htimed : s.timedOut = false := by simpa using fun ht => hok ⟨rfl, ht⟩
    exact ⟨hids, hpast, fun e he hc => (harmed e he hc).imp_left fun hwait => ⟨hwait, rfl⟩, fun _ => hown, h.wakeup,
      ⟨rfl, rfl, rfl, htimed⟩, h.outcome, h.resumer⟩
  | some c => cases c with
    | first => exact hidle
    | second => exact (show State.wait _ b timeout (some .second) = _ from ite_self _) ▸ hidle
    | queued =>
      simp only [State.wait, hw, Bool.false_eq_true, if_false]
      refine ⟨hids, hpast, fun e he hc => .inr ?_, fun hs => absurd hnone hs, h.wakeup, ?_, h.outcome, h.resumer⟩
      · rcases harmed e he hc with hwait | hleft | hzero
        · exact .inl (List.mem_cons.mpr (.inl hwait))
        · exact .inl (List.mem_cons_of_mem _ hleft)
        · exact .inr hzero
      · show Phase _ s.suspension
        rw [hnone]
        exact ⟨hr, rfl, rfl⟩

theorem Inv.wake (h : Inv s) {b : B} (hq : s.queued = some b) : Inv s.wake := by
  have hp := h.phase
  rcases hs : s.suspension with _ | ⟨_ | _, _ | _⟩ <;> rw [hs] at hp
  · cases hq.symm.trans hp.2.2
  · obtain ⟨hstate, -, -, htimed⟩ := hp
    have hmem : ∀ e ∈ s.wake.timers, (s.timerId ≠ 0 → e.id = s.timerId → e.cancelled = true) ∧
        (e.cancelled = false → e ∈ s.timers) ∧ ∃ e' ∈ s.timers, e'.id = e.id ∧ e'.wait = e.wait := by
      intro e he
      simp only [State.wake] at he
      split_ifs at he with hid
      · exact ⟨fun _ => (mem_cancel h.ids he).1, (mem_cancel h.ids he).2⟩
      · exact ⟨fun h0 => absurd h0 hid, fun _ => he, e, he, rfl, rfl⟩
    have hown : ∀ e ∈ s.wake.timers, e.wait = s.waits → e.id = s.timerId := by
      intro e he hw
      obtain ⟨e', he', hid, hwait⟩ := (hmem e he).2.2
      exact hid.symm.trans (h.own (by rw [hs]; nofun) e' he' (hwait.trans hw))
    refine ⟨?_, fun e he => ?_, fun e he hc => .inr ?_, fun _ => hown, h.wakeup, ?_, h.outcome, h.resumer⟩
    · simp only [State.wake]
      split_ifs
      · rw [cancel_ids]
        exact h.ids
      · exact h.ids
    · obtain ⟨e', he', -, hwait⟩ := (hmem e he).2.2
      exact hwait ▸ h.past e' he'
    · obtain ⟨hcancel, hold, -⟩ := hmem e he
      refine (h.armed e (hold hc) hc).elim (fun ha => .inr ?_) id
      -- the timer of this `Wait` has just been cancelled, unless its id is 0
      have hid := hown e he ha.1
      by_contra hzero
      rw [hcancel (hid ▸ hzero) hid] at hc
      cases hc
    · rw [show s.wake.suspension = some ⟨true, false⟩ by simp [State.wake, hs]]
      exact ⟨by simp [State.wake, hstate], rfl, rfl, htimed⟩
  · cases hq.symm.trans hp.2.2.1
  · cases hq.symm.trans hp.2.2.1
  · exact hp.elim

/-- A timer that has fired is not in the heap any more. -/
theorem Inv.fire (h : Inv s) {e : Timer} (he : e ∈ s.timers) (hc : e.cancelled = false) (hok : ¬Stray s (.fire e)) :
    Inv (s.fire e) := by
  have hids : ((s.timers.erase e).map Timer.id).Nodup := h.ids.sublist (List.erase_sublist.map _)
  have hsub : ∀ x ∈ s.timers.erase e, x ∈ s.timers := fun x => List.mem_of_mem_erase
  have hcall : (s.timeoutCallback e).waits = s.waits ∧ (s.timeoutCallback e).timerId = s.timerId ∧
      (s.timeoutCallback e).outcomes = s.outcomes ∧ (s.timeoutCallback e).abandoned = s.abandoned := by
    unfold State.timeoutCallback
    split_ifs <;> exact ⟨rfl, rfl, rfl, rfl⟩
  obtain ⟨hwaits, htimer, hout, habandoned⟩ := hcall
  have harmed : ∀ x ∈ s.timers.erase e, x.cancelled = false → (s.fire e).Armed x := by
    intro x hx hxc
    refine (h.armed x (hsub x hx) hxc).imp (fun ⟨hwait, hs⟩ => ⟨hwait.trans hwaits.symm, ?_⟩)
      (Or.imp_left fun hleft => habandoned.symm ▸ hleft)
    have hne : e.wait ≠ s.waits := by
      -- the suspended `Wait` has armed one timer only
      intro hown
      have hsome : s.suspension ≠ none := by rw [hs]; nofun
      have hid : x.id = e.id := (h.own hsome x (hsub x hx) hwait).trans (h.own hsome e he hown).symm
      obtain rfl := List.inj_on_of_nodup_map h.ids (hsub x hx) he hid
      exact h.ids.of_map.not_mem_erase hx
    simp [State.fire, hs, Suspension.note, hne]
  have hrest : ∀ (hw : (s.fire e).wakeup = (s.fire e).timedOut) (hp : Phase (s.fire e) (s.fire e).suspension)
      (hr : ∀ r ∈ (s.fire e).resumers, r.1 = r.2), Inv (s.fire e) := by
    refine fun hw hp hr => ⟨hids, fun x hx => ?_, harmed, fun hn x hx hxw => ?_, hw, hp, ?_, hr⟩
    · exact Nat.le_trans (h.past x (hsub x hx)) (Nat.le_of_eq hwaits.symm)
    · have hs : s.suspension ≠ none := fun hs => hn (by simp [State.fire, hs])
      exact (h.own hs x (hsub x hx) (hxw.trans hwaits)).trans htimer.symm
    · show ∀ o ∈ (s.timeoutCallback e).outcomes, _
      rw [hout]
      exact h.outcome
  have hp := h.phase
  rcases hs : s.suspension with _ | ⟨_ | _, _ | _⟩ <;> rw [hs] at hp
  · obtain ⟨hstate, hwaiting, hqueued⟩ := hp
    have hnone : (s.fire e).suspension = none := by simp [State.fire, hs]
    cases hw : s.wakeup with
    | true =>
      have hsame : s.timeoutCallback e = s := if_pos hw
      refine hrest ?_ ?_ ?_
      · simpa [State.fire, hsame] using h.wakeup
      · rw [hnone]
        simpa [Phase, State.fire, hsame] using ⟨hstate, hwaiting, hqueued⟩
      · simpa [State.fire, hsame] using h.resumer
    | false =>
      have hset : s.timeoutCallback e = { s with wakeup := true, timedOut := true } := by
        simp [State.timeoutCallback, hw, hstate]
      refine hrest ?_ ?_ ?_
      · simp [State.fire, hset]
      · rw [hnone]
        simpa [Phase, State.fire, hset] using ⟨hstate, hwaiting, hqueued⟩
      · simpa [State.fire, hset] using h.resumer
  · obtain ⟨hstate, hwaiting, hbutex, htimed⟩ := hp
    have hw : s.wakeup = false := h.wakeup.trans htimed
    have hown : e.wait = s.waits := by
      by_contra hne
      refine hok ⟨hw, _, hs, ?_⟩
      exact (h.armed e he hc).elim (fun ha => absurd ha.1 hne) (Or.imp_right fun hzero => ⟨hzero, .inl hne⟩)
    have hset : s.timeoutCallback e = { s with
        wakeup := true, timedOut := true, queued := none, isWaiting := false, taskState := .ready
        resumers := (e.wait, s.waits) :: s.resumers } := by
      simp [State.timeoutCallback, hw, hstate, hbutex, hwaiting]
    refine hrest ?_ ?_ ?_
    · simp [State.fire, hset]
    · rw [show (s.fire e).suspension = some ⟨false, true⟩ by simp [State.fire, hs, Suspension.note, hown]]
      simp [Phase, State.fire, hset]
    · intro r hr
      rcases List.mem_cons.mp (by simpa [State.fire, hset] using hr : r ∈ (e.wait, s.waits) :: s.resumers) with rfl | hr
      · exact hown
      · exact h.resumer r hr
  · obtain ⟨hstate, hwaiting, hqueued, htimed⟩ := hp
    have hsame : s.timeoutCallback e = s := if_pos (h.wakeup.trans htimed)
    refine hrest ?_ ?_ ?_
    · simpa [State.fire, hsame] using h.wakeup
    · rw [show (s.fire e).suspension = some ⟨false, true⟩ by simp [State.fire, hs, Suspension.note]]
      simpa [Phase, State.fire, hsame] using ⟨hstate, hwaiting, hqueued, htimed⟩
    · simpa [State.fire, hsame] using h.resumer
  · -- the timer of a `Wait` that was dequeued is cancelled, unless its id is 0
    have hw : s.wakeup = false := h.wakeup.trans hp.2.2.2
    refine absurd ⟨hw, _, hs, ?_⟩ hok
    exact (h.armed e he hc).elim (fun ha => nomatch hs.symm.trans ha.2)
      (Or.imp_right fun hzero => ⟨hzero, .inr rfl⟩)
  · exact hp.elim

theorem Inv.resume (h : Inv s) (hr : s.taskState = .ready) : Inv s.resume := by
  have hp := h.phase
  have hphase : s.isWaiting = false ∧ s.queued = none ∧ ∀ c ∈ s.suspension, s.timedOut = c.fired := by
    rcases hs : s.suspension with _ | ⟨_ | _, _ | _⟩ <;> rw [hs] at hp
    · cases hr.symm.trans hp.1
    · cases hr.symm.trans hp.1
    · refine ⟨hp.2.1, hp.2.2.1, fun c hc => ?_⟩
      cases hc
      exact hp.2.2.2
    · refine ⟨hp.2.1, hp.2.2.1, fun c hc => ?_⟩
      cases hc
      exact hp.2.2.2
    · exact hp.elim
  refine ⟨h.ids, h.past, fun e he hc => .inr ?_, fun hs => absurd rfl hs, h.wakeup, ⟨rfl, hphase.1, hphase.2.1⟩,
    fun o ho => ?_, h.resumer⟩
  · refine (h.armed e he hc).resolve_left fun ha => ?_
    rw [ha.2] at hp
    cases hr.symm.trans hp.1
  · rcases List.mem_append.mp ho with ho | ho
    · obtain ⟨c, hc, rfl⟩ := Option.map_eq_some_iff.mp (Option.mem_toList.mp ho)
      exact hphase.2.2 c hc
    · exact h.outcome o ho

variable [DecidableEq B]

/-- **What one step preserves.** -/
theorem inv_step {t : State B} {l : Label B} (h : Inv s) (hok : ¬Stray s l) (hst : step s l = some t) : Inv t := by
  cases l with
  | wait b timeout change =>
    obtain ⟨⟨hr, hid⟩, hst⟩ := Option.ite_none_right_eq_some.mp hst
    cases hst
    exact h.wait hr hid hok
  | wake b =>
    cases hst
    split_ifs with hq
    · exact h.wake hq
    · exact h
  | fire e =>
    obtain ⟨⟨he, hc⟩, hst⟩ := Option.ite_none_right_eq_some.mp hst
    cases hst
    exact h.fire he hc hok
  | resume =>
    obtain ⟨hr, hst⟩ := Option.ite_none_right_eq_some.mp hst
    cases hst
    exact h.resume hr

end Steps

end Cothread.TimedWait
