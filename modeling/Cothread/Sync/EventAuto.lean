import Cothread.Queue.Waiter
import Cothread.Lib.Count

/-!
# `Event` with `auto_reset`: waits that return, and calls of `set`

Any number of bthreads, coroutines and pthreads call `wait`, `wait_for`, `wait_async` and `set`. The waiter queue is a
parameter (`WaiterQueue`), whose operations take any number of accesses, and nothing is assumed of what `Pop` returns.
A wait is released where it finds `state_` set, or where the `Pop` of a call of `set` returns its task. A `wait` or
`wait_for` that has found the flag set resets it, so that nobody else finds it so (`Stored`). But it may be found again
before the reset; `wait_async` does not reset it, and neither does a waiter that is woken; and `set` wakes the whole
queue (`two_released`). As long as none of these happens (`Again`), no more waits have returned than calls of `set` have
started (`one_per_set`).
-/

namespace Cothread.AutoEvent

open Run Count

universe u

inductive Kind
  | bthread
  | coroutine
  | pthread
  deriving DecidableEq

/-- The next access of a party. -/
inductive Pc {P : Type u} (Q : WaiterQueue P)
  | idle
  -- `wait` and `wait_for`, the latter `timed`
  | load (timed : Bool)  -- `state_.load()`
  | resetFlag  -- `auto_reset_`: `state_.store(false)`
  | spin (timed : Bool)  -- `state_.load()` in the loop of a pthread
  | clock  -- `steady_clock::now() >= deadline`
  -- `wait_async`
  | ready  -- `await_ready`: `is_set()`
  | recheck  -- `await_suspend`: `is_set()`
  -- a bthread or a coroutine that has not found the event set
  | suspend  -- `state.store(SUSPENDED)`
  | enqueue (pc : Q.PushPc)  -- `enqueue_waiter`
  | swap  -- `SuspendCurrent()`
  | parked
  -- `set`
  | setFlag  -- `state_.store(true)`
  | pop (pc : Q.PopPc)  -- `waiter_queue_.Pop()`
  | submit (waiter : P)  -- `Submit(waiter)`

/-- How a call of `set` releases a wait. -/
inductive Route (P : Type u)
  | look (p : P)  -- a `wait` or `wait_for` of the party has found the flag set
  | await  -- `await_ready` or `await_suspend` has found the flag set
  | pop  -- `Pop` has returned the task
  deriving DecidableEq

structure State {P : Type u} (Q : WaiterQueue P) where
  flag : Bool  -- `state_`
  queue : Q.Mem
  ready : P → ℕ  -- how often the task is in a run queue
  pc : P → Pc Q
  calls : ℕ  -- how many calls of `set` have started
  call : P → ℕ  -- which of them the party is in
  signal : ℕ  -- which of them has set the flag last
  released : List (ℕ × Route P)  -- for every released wait, the call of `set` that has released it, and how
  completed : ℕ  -- how many waits have returned other than by a timeout

/-- Who acts: a call starts, or goes on with its next access; a `wait_for` times out; a worker resumes a task. -/
inductive Label (P : Type u)
  | wait (p : P) (timed : Bool)
  | set (p : P)
  | party (p : P)
  | expire (p : P)
  | run (p : P)
  deriving DecidableEq

variable {P : Type u} {Q : WaiterQueue P}

/-- A new event that is not set. -/
def State.new (Q : WaiterQueue P) : State Q where
  flag := false
  queue := Q.empty
  ready _ := 0
  pc _ := .idle
  calls := 0
  call _ := 0
  signal := 0
  released := []
  completed := 0

variable [DecidableEq P]

def State.goto (s : State Q) (p : P) (pc : Pc Q) : State Q := { s with pc := Function.update s.pc p pc }

/-- The call `n` of `set` releases a wait. -/
def State.release (s : State Q) (n : ℕ) (r : Route P) : State Q := { s with released := (n, r) :: s.released }

/-- A wait returns. -/
def State.complete (s : State Q) (p : P) : State Q := { s.goto p .idle with completed := s.completed + 1 }

/-- A `wait` or `wait_for` that has found the flag set. -/
def State.pass (s : State Q) (autoReset : Bool) (p : P) : State Q :=
  if autoReset then (s.release s.signal (.look p)).goto p .resetFlag else (s.release s.signal (.look p)).complete p

/-- An access of a `Pop` of the party's call of `set`. -/
def State.pop (s : State Q) (p : P) (pc : Q.PopPc) : State Q :=
  match Q.popStep s.queue pc with
  | (m, .running pc') => { s with queue := m }.goto p (.pop pc')
  | (m, .returned none) => { s with queue := m }.goto p .idle
  | (m, .returned (some t)) => ({ s with queue := m }.release (s.call p) .pop).goto p (.submit t)

/-- The next access of a party of kind `k`; `none` when it cannot act. -/
def State.access (s : State Q) (autoReset : Bool) (k : Kind) (p : P) : Pc Q → Option (State Q)
  | .idle | .parked => none
  | .load timed => some
      (if s.flag then s.pass autoReset p else s.goto p (if k = Kind.pthread then .spin timed else .suspend))
  | .resetFlag => some ({ s with flag := false }.complete p)
  | .spin timed => some (if s.flag then s.pass autoReset p else s.goto p (if timed then .clock else .spin timed))
  | .clock => some (s.goto p (.spin true))
  | .ready => some (if s.flag then (s.release s.signal .await).complete p else s.goto p .recheck)
  | .recheck => some (if s.flag then (s.release s.signal .await).complete p else s.goto p .suspend)
  | .suspend => some (s.goto p (.enqueue (Q.pushStart p)))
  | .enqueue pc => some ({ s with queue := (Q.pushStep s.queue pc).1 }.goto p
      (match (Q.pushStep s.queue pc).2 with
      | some pc' => .enqueue pc'
      | none => if k = Kind.coroutine then .parked else .swap))
  | .swap => some (s.goto p .parked)
  | .setFlag => some ({ s with flag := true, signal := s.call p }.goto p (.pop Q.popStart))
  | .pop pc => some (s.pop p pc)
  | .submit t => some ({ s with ready := Function.update s.ready t (s.ready t + 1) }.goto p (.pop Q.popStart))

/-- One step. -/
def step (autoReset : Bool) (kind : P → Kind) (s : State Q) : Label P → Option (State Q)
  | .wait p timed =>
    if s.pc p matches .idle then some (s.goto p (if kind p = .coroutine then .ready else .load timed)) else none
  | .set p =>
    if s.pc p matches .idle then
      some ({ s with calls := s.calls + 1, call := Function.update s.call p s.calls }.goto p .setFlag)
    else none
  | .party p => s.access autoReset (kind p) p (s.pc p)
  | .expire p => if s.pc p matches .clock then some (s.goto p .idle) else none
  | .run p =>
    if (s.pc p matches .parked) ∧ 0 < s.ready p then
      some ({ s with ready := Function.update s.ready p (s.ready p - 1) }.complete p)
    else none

/-- Any parties on one event that is not set at first. -/
def system (Q : WaiterQueue P) (autoReset : Bool) (kind : P → Kind) : System (State Q) (Label P) where
  init s := s = .new Q
  step := step autoReset kind

/-- The access looks at the flag. -/
def Pc.looks : Pc Q → Prop
  | .load _ | .spin _ | .ready | .recheck => True
  | _ => False

/-- A wait finds the flag set, which another one has found set and has not reset yet, or does not reset; or which was
stored by a call of `set` that has popped a task. Or `Pop` returns a task to a call of `set` that has popped one, or
whose flag a wait has found set. -/
def Again (s : State Q) : Label P → Prop
  | .party p =>
    ((s.pc p).looks ∧ s.flag = true ∧ ((∃ q, s.pc q = .resetFlag ∧ (s.signal, .look q) ∈ s.released) ∨
      (s.signal, .await) ∈ s.released ∨ (s.signal, .pop) ∈ s.released)) ∨
    ∃ pc t, s.pc p = .pop pc ∧ (Q.popStep s.queue pc).2 = .returned (some t) ∧ ∃ r, (s.call p, r) ∈ s.released
  | _ => False

/-! ## The invariant -/

/-- The party has released or is released, and the wait has not returned. -/
def Pc.owes : Pc Q → Prop
  | .resetFlag | .submit _ => True
  | _ => False

/-- The access is one of `set`. -/
def Pc.sets : Pc Q → Prop
  | .setFlag | .pop _ | .submit _ => True
  | _ => False

/-- The released waits that have not returned: those of which a party is in the middle, and the tasks that are ready. -/
def State.Due (s : State Q) : P × Option ℕ → Prop
  | (p, none) => (s.pc p).owes
  | (p, some i) => i < s.ready p

structure Inv (s : State Q) : Prop where
  fresh : ∀ x ∈ s.released, x.1 < s.calls
  nodup : (s.released.map Prod.fst).Nodup
  signal : s.flag = true → s.signal < s.calls
  setting : ∀ p, (s.pc p).sets → s.call p < s.calls
  balance : Counts s.Due (s.released.length - s.completed)

/-- The party's call of `set` has not stored the flag yet: it has released no wait, and no other party is in it. -/
structure Unset (s : State Q) (p : P) : Prop where
  released : ∀ x ∈ s.released, x.1 ≠ s.call p
  signal : s.flag = true → s.signal ≠ s.call p
  others : ∀ q, (s.pc q).sets → s.call q = s.call p → q = p

/-- **The signal is consumed**: while the flag is set as a call of `set` has stored it, every `wait` and `wait_for` that
has found it so has still to reset it. -/
structure Stored (s : State Q) : Prop where
  looking : s.flag = true → ∀ q, (s.signal, .look q) ∈ s.released → s.pc q = .resetFlag
  unset : ∀ p, s.pc p = .setFlag → Unset s p

section Steps

variable {s t : State Q} {p u : P} {c : Pc Q} {kind : P → Kind}

theorem due_keep (hpc : t.pc = Function.update s.pc p c) (hready : t.ready = s.ready) (hold : ¬(s.pc p).owes)
    (hnew : ¬c.owes) (j : P × Option ℕ) : t.Due j ↔ s.Due j := by
  obtain ⟨q, _ | i⟩ := j
  · by_cases hq : q = p
    · subst hq
      simp [State.Due, hpc, hold, hnew]
    · simp [State.Due, hpc, hq]
  · simp [State.Due, hready]

theorem due_owe (hpc : t.pc = Function.update s.pc p c) (hready : t.ready = s.ready) (hnew : c.owes)
    (j : P × Option ℕ) : t.Due j ↔ j = (p, none) ∨ s.Due j := by
  obtain ⟨q, _ | i⟩ := j
  · by_cases hq : q = p
    · subst hq
      simp [State.Due, hpc, hnew]
    · simp [State.Due, hpc, hq]
  · simp [State.Due, hready]

theorem due_settle (hpc : t.pc = Function.update s.pc p c) (hready : t.ready = s.ready) (hnew : ¬c.owes)
    (j : P × Option ℕ) : t.Due j ↔ j ≠ (p, none) ∧ s.Due j := by
  obtain ⟨q, _ | i⟩ := j
  · by_cases hq : q = p
    · subst hq
      simp [State.Due, hpc, hnew]
    · simp [State.Due, hpc, hq]
  · simp [State.Due, hready]

/-- A step of a party, with what it does to the released waits left open. -/
theorem Inv.goto (h : Inv s) (hpc : t.pc = Function.update s.pc p c) (hcalls : t.calls = s.calls)
    (hcall : t.call = s.call) (hfresh : ∀ x ∈ t.released, x.1 < s.calls) (hnodup : (t.released.map Prod.fst).Nodup)
    (hsignal : t.flag = true → t.signal < s.calls) (hsets : c.sets → s.call p < s.calls)
    (hbal : Counts t.Due (t.released.length - t.completed)) : Inv t := by
  refine ⟨fun x hx => hcalls ▸ hfresh x hx, hnodup, fun hf => hcalls ▸ hsignal hf, fun q hq => ?_, hbal⟩
  rw [hcalls, hcall]
  by_cases hqp : q = p
  · subst hqp
    rw [hpc, Function.update_self] at hq
    exact hsets hq
  · rw [hpc, Function.update_of_ne hqp] at hq
    exact h.setting q hq

/-- A step that releases no wait, and in which none returns. -/
theorem Inv.quiet (h : Inv s) (hpc : t.pc = Function.update s.pc p c) (hready : t.ready = s.ready)
    (hcalls : t.calls = s.calls) (hcall : t.call = s.call) (hreleased : t.released = s.released)
    (hcompleted : t.completed = s.completed) (hsignal : t.flag = true → t.signal < s.calls)
    (hold : ¬(s.pc p).owes) (hnew : ¬c.owes) (hsets : c.sets → (s.pc p).sets) : Inv t := by
  refine h.goto hpc hcalls hcall (hreleased ▸ h.fresh) (hreleased ▸ h.nodup) hsignal
    (fun hs => h.setting p (hsets hs)) ?_
  rw [hreleased, hcompleted]
  exact h.balance.congr (due_keep hpc hready hold hnew)

/-- A party goes on without any effect but on the queue. -/
theorem Inv.move (h : Inv s) (hpc : t.pc = Function.update s.pc p c)
    (hrest : t = { s with pc := t.pc, queue := t.queue }) (hold : ¬(s.pc p).owes) (hnew : ¬c.owes)
    (hsets : c.sets → (s.pc p).sets) : Inv t := by
  refine h.quiet hpc ?_ ?_ ?_ ?_ ?_ ?_ hold hnew hsets
  all_goals rw [hrest]
  exact h.signal

omit [DecidableEq P] in
theorem Inv.nodup_cons (h : Inv s) {n : ℕ} (hnew : ∀ r, (n, r) ∉ s.released) {r : Route P} :
    (((n, r) :: s.released).map Prod.fst).Nodup := by
  refine List.nodup_cons.mpr ⟨fun hm => ?_, h.nodup⟩
  obtain ⟨⟨_, r'⟩, hx, rfl⟩ := List.mem_map.mp hm
  exact hnew r' hx

/-- A wait is released by a call of `set` that has not released one. -/
theorem Inv.release (h : Inv s) {n : ℕ} {r : Route P} (hpc : t.pc = Function.update s.pc p c)
    (hrest : t = { s with pc := t.pc, queue := t.queue, released := (n, r) :: s.released }) (hn : n < s.calls)
    (hnew : ∀ r, (n, r) ∉ s.released) (hold : ¬(s.pc p).owes) (howes : c.owes) (hsets : c.sets → (s.pc p).sets) :
    Inv t := by
  have hreleased : t.released = (n, r) :: s.released := by rw [hrest]
  refine h.goto hpc (by rw [hrest]) (by rw [hrest]) ?_ ?_ (by rw [hrest]; exact h.signal)
    (fun hs => h.setting p (hsets hs)) ?_
  · rw [hreleased]
    exact List.forall_mem_cons.mpr ⟨hn, h.fresh⟩
  · rw [hreleased]
    exact h.nodup_cons hnew
  · have hb := h.balance.insert (j := (p, none)) hold (due_owe hpc (by rw [hrest]) howes)
    have hlen : ((s.released.length : Int) - s.completed + 1) = (t.released.length : Int) - t.completed := by
      rw [hreleased, show t.completed = s.completed by rw [hrest], List.length_cons]
      push_cast
      omega
    exact hlen ▸ hb

/-- A wait of a coroutine is released and returns. -/
theorem Inv.releaseComplete (h : Inv s) {n : ℕ} {r : Route P} (hn : n < s.calls) (hnew : ∀ r, (n, r) ∉ s.released)
    (hold : ¬(s.pc p).owes) : Inv ((s.release n r).complete p) := by
  refine h.goto (p := p) (c := .idle) rfl rfl rfl (List.forall_mem_cons.mpr ⟨hn, h.fresh⟩) (h.nodup_cons hnew) h.signal
    (fun hs => hs.elim) ?_
  have hb := h.balance.congr (due_keep (t := (s.release n r).complete p) rfl rfl hold not_false)
  have hlen : ((s.released.length : Int) - s.completed) =
      (((n, r) :: s.released).length : Int) - (s.completed + 1 : ℕ) := by
    rw [List.length_cons]
    push_cast
    omega
  exact hlen ▸ hb

/-- A wait that has found the flag set resets it and returns. -/
theorem Inv.resetFlag (h : Inv s) (hp : s.pc p = .resetFlag) : Inv ({ s with flag := false }.complete p) := by
  refine h.goto (p := p) (c := .idle) rfl rfl rfl h.fresh h.nodup nofun (fun hs => hs.elim) ?_
  have howes : s.Due (p, none) := by simp [State.Due, hp, Pc.owes]
  have hb := h.balance.erase howes
    (due_settle (t := { s with flag := false }.complete p) (c := .idle) rfl rfl not_false)
  have hlen : ((s.released.length : Int) - s.completed - 1) = (s.released.length : Int) - (s.completed + 1 : ℕ) := by
    push_cast
    omega
  exact hlen ▸ hb

/-- `set` submits the task that `Pop` has returned. -/
theorem Inv.submit (h : Inv s) (hp : s.pc p = .submit u) :
    Inv ({ s with ready := Function.update s.ready u (s.ready u + 1) }.goto p (.pop Q.popStart)) := by
  refine h.goto rfl rfl rfl h.fresh h.nodup h.signal (fun _ => h.setting p (by rw [hp]; trivial)) ?_
  have howes : s.Due (p, none) := by simp [State.Due, hp, Pc.owes]
  have hb := h.balance.erase howes fun j => due_settle (s := s) (t := s.goto p (.pop Q.popStart)) rfl rfl not_false j
  have hb' : Counts (State.Due ({ s with ready := Function.update s.ready u (s.ready u + 1) }.goto p (.pop Q.popStart)))
      (s.released.length - s.completed - 1 + 1) := hb.insert (j := (u, some (s.ready u))) (Nat.lt_irrefl _) fun j => by
    obtain ⟨q, _ | i⟩ := j
    · simp [State.Due, State.goto]
    · by_cases hq : q = u
      · subst hq
        simp only [State.Due, State.goto, Function.update_self, Prod.mk.injEq, Option.some.injEq, true_and]
        omega
      · simp [State.Due, State.goto, hq]
  have hlen : ((s.released.length : Int) - s.completed - 1 + 1) = (s.released.length : Int) - s.completed := by omega
  exact hlen ▸ hb'

/-- A ready task is resumed, and its wait returns. -/
theorem Inv.run (h : Inv s) (hp : s.pc p = .parked) (hready : 0 < s.ready p) :
    Inv ({ s with ready := Function.update s.ready p (s.ready p - 1) }.complete p) := by
  refine h.goto (p := p) (c := .idle) rfl rfl rfl h.fresh h.nodup h.signal (fun hs => hs.elim) ?_
  have hdue : s.Due (p, some (s.ready p - 1)) := Nat.sub_lt hready Nat.one_pos
  have hb : Counts (State.Due ({ s with ready := Function.update s.ready p (s.ready p - 1) }.complete p))
      (s.released.length - s.completed - 1) := h.balance.erase hdue fun j => by
    obtain ⟨q, _ | i⟩ := j
    · by_cases hq : q = p
      · subst hq
        simp [State.Due, State.complete, State.goto, hp, Pc.owes]
      · simp [State.Due, State.complete, State.goto, hq]
    · by_cases hq : q = p
      · subst hq
        simp only [State.Due, State.complete, State.goto, Function.update_self, ne_eq, Prod.mk.injEq,
          Option.some.injEq, true_and]
        omega
      · simp [State.Due, State.complete, State.goto, hq]
  have hlen : ((s.released.length : Int) - s.completed - 1) = (s.released.length : Int) - (s.completed + 1 : ℕ) := by
    push_cast
    omega
  exact hlen ▸ hb

/-! ## The flag -/

/-- A step of a party that does not store the flag, and may release waits. -/
theorem Stored.goto (h : Stored s) (hpc : t.pc = Function.update s.pc p c) (hcall : t.call = s.call)
    (hsignal : t.signal = s.signal) (hflag : t.flag = true → s.flag = true ∧ s.pc p ≠ .resetFlag)
    (hc : c ≠ .setFlag) (hsets : c.sets → (s.pc p).sets) {l : List (ℕ × Route P)}
    (hreleased : t.released = l ++ s.released)
    (hl : ∀ x ∈ l, (∀ q, s.pc q = .setFlag → x.1 ≠ s.call q) ∧ ∀ q, x.2 = .look q → q = p ∧ c = .resetFlag) :
    Stored t := by
  have hother : ∀ q, q ≠ p → t.pc q = s.pc q := fun q hq => by rw [hpc, Function.update_of_ne hq]
  have hself : t.pc p = c := by rw [hpc, Function.update_self]
  refine ⟨fun hf q hm => ?_, fun q hq => ?_⟩
  · obtain ⟨hf, hp⟩ := hflag hf
    rw [hsignal, hreleased] at hm
    obtain hm | hm := List.mem_append.mp hm
    · obtain ⟨rfl, rfl⟩ := (hl _ hm).2 q rfl
      exact hself
    · have hq := h.looking hf q hm
      rw [hother q fun he => hp (he ▸ hq)]
      exact hq
  · have hqp : q ≠ p := by
      rintro rfl
      exact hc (hself.symm.trans hq)
    rw [hother q hqp] at hq
    have hu := h.unset q hq
    refine ⟨fun x hx => ?_, fun hf => ?_, fun v hv he => ?_⟩
    · rw [hreleased] at hx
      rw [hcall]
      obtain hx | hx := List.mem_append.mp hx
      · exact (hl x hx).1 q hq
      · exact hu.released x hx
    · rw [hsignal, hcall]
      exact hu.signal (hflag hf).1
    · rw [hcall] at he
      refine hu.others v ?_ he
      by_cases hvp : v = p
      · subst hvp
        rw [hself] at hv
        exact hsets hv
      · rwa [hother v hvp] at hv

/-- A party goes on without any effect on the flag and the released waits. -/
theorem Stored.move (h : Stored s) (hpc : t.pc = Function.update s.pc p c) (hcall : t.call = s.call)
    (hsignal : t.signal = s.signal) (hflag : t.flag = s.flag) (hreleased : t.released = s.released)
    (hold : s.pc p ≠ .resetFlag) (hc : c ≠ .setFlag) (hsets : c.sets → (s.pc p).sets) : Stored t :=
  h.goto hpc hcall hsignal (fun hf => ⟨hflag.symm.trans hf, hold⟩) hc hsets (l := []) hreleased nofun

/-- A call of `set` stores the flag. -/
theorem Stored.setFlag (h : Stored s) (hp : s.pc p = .setFlag) :
    Stored ({ s with flag := true, signal := s.call p }.goto p (.pop Q.popStart)) := by
  have hsets : (s.pc p).sets := by rw [hp]; trivial
  refine ⟨fun _ q hm => absurd rfl ((h.unset p hp).released _ hm), fun q hq => ?_⟩
  have hqp : q ≠ p := by
    rintro rfl
    simp [State.goto] at hq
  have hu := h.unset q (by simpa [State.goto, hqp] using hq)
  refine ⟨hu.released, fun _ he => hqp (hu.others p hsets he).symm, fun v hv he => hu.others v ?_ he⟩
  by_cases hvp : v = p
  · subst hvp
    exact hsets
  · simpa [State.goto, hvp] using hv

/-- A call of `set` starts. -/
theorem Stored.start (h : Stored s) (hi : Inv s) (hp : s.pc p = .idle) :
    Stored ({ s with calls := s.calls + 1, call := Function.update s.call p s.calls }.goto p .setFlag) := by
  have hother : ∀ (u : State Q) q, q ≠ p → (u.goto p .setFlag).pc q = u.pc q :=
    fun u q hq => Function.update_of_ne hq _ _
  refine ⟨fun hf q hm => ?_, fun q hq => ?_⟩
  · have hq := h.looking hf q hm
    rw [hother _ q fun he => by rw [he, hp] at hq; cases hq]
    exact hq
  by_cases hqp : q = p
  · subst hqp
    have hcall : Function.update s.call q s.calls q = s.calls := Function.update_self _ _ _
    refine ⟨fun x hx => ?_, fun hf => ?_, fun v hv he => by_contra fun hvq => ?_⟩
    · exact fun he => Nat.ne_of_lt (hi.fresh x hx) (he.trans hcall)
    · exact fun he => Nat.ne_of_lt (hi.signal hf) (he.trans hcall)
    · rw [hother _ v hvq] at hv
      have hlt : s.call v < s.calls := hi.setting v hv
      have heq : s.call v = s.calls := (Function.update_of_ne hvq _ _).symm.trans (he.trans hcall)
      omega
  · rw [hother _ q hqp] at hq
    have hu := h.unset q hq
    have hcall : Function.update s.call p s.calls q = s.call q := Function.update_of_ne hqp _ _
    refine ⟨fun x hx he => hu.released x hx (he.trans hcall), fun hf he => hu.signal hf (he.trans hcall),
      fun v hv he => ?_⟩
    by_cases hvp : v = p
    · subst hvp
      have hlt : s.call q < s.calls := hi.setting q (by rw [hq]; trivial)
      have heq : s.calls = s.call q := (Function.update_self _ _ _).symm.trans (he.trans hcall)
      omega
    · rw [hother _ v hvp] at hv
      exact hu.others v hv ((Function.update_of_ne hvp _ _).symm.trans (he.trans hcall))

/-- A wait finds the flag set, and resets it at its next access or not at all. -/
theorem Stored.found (h : Stored s) {r : Route P} (hflag : s.flag = true) (hpc : t.pc = Function.update s.pc p c)
    (hrest : t = { s with pc := t.pc, released := (s.signal, r) :: s.released, completed := t.completed })
    (hold : s.pc p ≠ .resetFlag) (hc : c ≠ .setFlag) (hsets : ¬c.sets)
    (hr : ∀ q, r = .look q → q = p ∧ c = .resetFlag) : Stored t := by
  refine h.goto hpc (by rw [hrest]) (by rw [hrest]) (fun _ => ⟨hflag, hold⟩) hc (fun hs => absurd hs hsets)
    (l := [(s.signal, r)]) (by rw [hrest]; rfl) fun x hx => ?_
  obtain rfl := List.mem_singleton.mp hx
  exact ⟨fun q hq => (h.unset q hq).signal hflag, hr⟩

/-- **What a party's access preserves.** -/
theorem Stored.access (h : Stored s) {k : Kind} (hst : s.access true k p (s.pc p) = some t) : Stored t := by
  cases hp : s.pc p with
  | idle | parked => rw [hp] at hst; cases hst
  | load timed | spin timed =>
    rw [hp] at hst
    simp only [State.access, Option.some.injEq] at hst
    subst hst
    by_cases hflag : s.flag = true
    · rw [if_pos hflag]
      exact h.found hflag rfl rfl (by rw [hp]; nofun) nofun not_false fun q hq => by
        cases hq
        exact ⟨rfl, rfl⟩
    · rw [if_neg hflag]
      split_ifs <;> exact h.move rfl rfl rfl rfl rfl (by rw [hp]; nofun) nofun nofun
  | ready | recheck =>
    rw [hp] at hst
    simp only [State.access, Option.some.injEq] at hst
    subst hst
    by_cases hflag : s.flag = true
    · rw [if_pos hflag]
      exact h.found hflag rfl rfl (by rw [hp]; nofun) nofun not_false nofun
    · rw [if_neg hflag]
      exact h.move rfl rfl rfl rfl rfl (by rw [hp]; nofun) nofun nofun
  | resetFlag =>
    rw [hp] at hst
    cases hst
    exact h.goto rfl rfl rfl nofun nofun nofun (l := []) rfl nofun
  | suspend | swap | clock =>
    rw [hp] at hst
    cases hst
    exact h.move rfl rfl rfl rfl rfl (by rw [hp]; nofun) nofun nofun
  | enqueue pc =>
    rw [hp] at hst
    cases hst
    cases (Q.pushStep s.queue pc).2 with
    | some pc' => exact h.move rfl rfl rfl rfl rfl (by rw [hp]; nofun) nofun nofun
    | none =>
      dsimp only
      split_ifs <;> exact h.move rfl rfl rfl rfl rfl (by rw [hp]; nofun) nofun nofun
  | setFlag =>
    rw [hp] at hst
    cases hst
    exact h.setFlag hp
  | pop pc =>
    rw [hp] at hst
    cases hst
    have hsets : (s.pc p).sets := by rw [hp]; trivial
    unfold State.pop
    split
    · exact h.move rfl rfl rfl rfl rfl (by rw [hp]; nofun) nofun fun _ => hsets
    · exact h.move rfl rfl rfl rfl rfl (by rw [hp]; nofun) nofun nofun
    · refine h.goto rfl rfl rfl (fun hf => ⟨hf, by rw [hp]; nofun⟩) nofun (fun _ => hsets)
        (l := [(s.call p, .pop)]) rfl fun x hx => ?_
      obtain rfl := List.mem_singleton.mp hx
      refine ⟨fun q hq he => ?_, nofun⟩
      obtain rfl := (h.unset q hq).others p hsets he
      rw [hp] at hq
      cases hq
  | submit u =>
    rw [hp] at hst
    cases hst
    exact h.move rfl rfl rfl rfl rfl (by rw [hp]; nofun) nofun fun _ => by rw [hp]; trivial

/-! ## Every step -/

omit [DecidableEq P] in
/-- **A party that finds the flag set**: the waits that had found it so have reset it. -/
theorem Inv.found (h : Inv s) (hst : Stored s) (hok : ¬Again s (.party p)) (hlooks : (s.pc p).looks)
    (hflag : s.flag = true) : s.signal < s.calls ∧ ∀ r, (s.signal, r) ∉ s.released := by
  refine ⟨h.signal hflag, fun r hm => hok (.inl ⟨hlooks, hflag, ?_⟩)⟩
  cases r with
  | look q => exact .inl ⟨q, hst.looking hflag q hm, hm⟩
  | await => exact .inr (.inl hm)
  | pop => exact .inr (.inr hm)

/-- A wait or a `wait_for` that finds the flag set. -/
theorem Inv.pass (h : Inv s) (hst : Stored s) (hok : ¬Again s (.party p)) (hlooks : (s.pc p).looks)
    (hold : ¬(s.pc p).owes) (hflag : s.flag = true) : Inv (s.pass true p) := by
  obtain ⟨hn, hnew⟩ := h.found hst hok hlooks hflag
  exact h.release (c := .resetFlag) rfl rfl hn hnew hold trivial nofun

/-- **What a party's access preserves.** -/
theorem Inv.access (h : Inv s) (hs : Stored s) (hok : ¬Again s (.party p)) {k : Kind}
    (hst : s.access true k p (s.pc p) = some t) : Inv t := by
  cases hp : s.pc p with
  | idle | parked => rw [hp] at hst; cases hst
  | load timed | spin timed =>
    rw [hp] at hst
    simp only [State.access, Option.some.injEq] at hst
    subst hst
    by_cases hflag : s.flag = true
    · rw [if_pos hflag]
      exact h.pass hs hok (by rw [hp]; trivial) (by rw [hp]; exact not_false) hflag
    · rw [if_neg hflag]
      split_ifs <;> exact h.move rfl rfl (by rw [hp]; exact not_false) not_false nofun
  | ready | recheck =>
    rw [hp] at hst
    simp only [State.access, Option.some.injEq] at hst
    subst hst
    by_cases hflag : s.flag = true
    · rw [if_pos hflag]
      obtain ⟨hn, hnew⟩ := h.found hs hok (by rw [hp]; trivial) hflag
      exact h.releaseComplete hn hnew (by rw [hp]; exact not_false)
    · rw [if_neg hflag]
      exact h.move rfl rfl (by rw [hp]; exact not_false) not_false nofun
  | resetFlag =>
    rw [hp] at hst
    cases hst
    exact h.resetFlag hp
  | suspend | swap | clock =>
    rw [hp] at hst
    cases hst
    exact h.move rfl rfl (by rw [hp]; exact not_false) not_false nofun
  | enqueue pc =>
    rw [hp] at hst
    cases hst
    cases (Q.pushStep s.queue pc).2 with
    | some pc' => exact h.move rfl rfl (by rw [hp]; exact not_false) not_false nofun
    | none =>
      dsimp only
      split_ifs <;> exact h.move rfl rfl (by rw [hp]; exact not_false) not_false nofun
  | setFlag =>
    rw [hp] at hst
    cases hst
    exact h.quiet rfl rfl rfl rfl rfl rfl (fun _ => h.setting p (by rw [hp]; trivial)) (by rw [hp]; exact not_false)
      not_false fun _ => by rw [hp]; trivial
  | pop pc =>
    rw [hp] at hst
    cases hst
    unfold State.pop
    split
    · exact h.move rfl rfl (by rw [hp]; exact not_false) not_false fun _ => by rw [hp]; trivial
    · exact h.move rfl rfl (by rw [hp]; exact not_false) not_false nofun
    · next m u hpop =>
      exact h.release rfl rfl (h.setting p (by rw [hp]; trivial))
        (fun r hm => hok (.inr ⟨pc, u, hp, by rw [hpop], r, hm⟩))
        (by rw [hp]; exact not_false) trivial fun _ => by rw [hp]; trivial
  | submit u =>
    rw [hp] at hst
    cases hst
    exact h.submit hp

/-- A call of `set` starts. -/
theorem Inv.start (h : Inv s) (hp : s.pc p = .idle) :
    Inv ({ s with calls := s.calls + 1, call := Function.update s.call p s.calls }.goto p .setFlag) := by
  refine ⟨fun x hx => (h.fresh x hx).trans (Nat.lt_succ_self _), h.nodup,
    fun hf => (h.signal hf).trans (Nat.lt_succ_self _), fun q hq => ?_, ?_⟩
  · show Function.update s.call p s.calls q < s.calls + 1
    by_cases hqp : q = p
    · subst hqp
      rw [Function.update_self]
      exact Nat.lt_succ_self _
    · rw [Function.update_of_ne hqp]
      refine (h.setting q ?_).trans (Nat.lt_succ_self _)
      simpa [State.goto, hqp] using hq
  · exact h.balance.congr (due_keep rfl rfl (by rw [hp]; exact not_false) not_false)

/-- **What one step preserves**, unless a wait is released again. -/
theorem inv_step {l : Label P} (h : Inv s) (hs : Stored s) (hok : ¬Again s l) (hst : step true kind s l = some t) :
    Inv t := by
  cases l with
  | wait p timed =>
    obtain ⟨hp, hst⟩ := Option.ite_none_right_eq_some.mp hst
    have hidle : s.pc p = .idle := by cases hpc : s.pc p <;> first | rfl | simp [hpc] at hp
    cases hst
    split_ifs <;> exact h.move rfl rfl (by rw [hidle]; exact not_false) not_false nofun
  | set p =>
    obtain ⟨hp, hst⟩ := Option.ite_none_right_eq_some.mp hst
    have hidle : s.pc p = .idle := by cases hpc : s.pc p <;> first | rfl | simp [hpc] at hp
    cases hst
    exact h.start hidle
  | party p => exact h.access hs hok hst
  | expire p =>
    obtain ⟨hp, hst⟩ := Option.ite_none_right_eq_some.mp hst
    have hclock : s.pc p = .clock := by cases hpc : s.pc p <;> first | rfl | simp [hpc] at hp
    cases hst
    exact h.move rfl rfl (by rw [hclock]; exact not_false) not_false nofun
  | run p =>
    obtain ⟨⟨hp, hready⟩, hst⟩ := Option.ite_none_right_eq_some.mp hst
    have hparked : s.pc p = .parked := by cases hpc : s.pc p <;> first | rfl | simp [hpc] at hp
    cases hst
    exact h.run hparked hready

theorem stored_step {l : Label P} (hi : Inv s) (h : Stored s) (hst : step true kind s l = some t) : Stored t := by
  cases l with
  | wait p timed =>
    obtain ⟨hp, hst⟩ := Option.ite_none_right_eq_some.mp hst
    have hidle : s.pc p = .idle := by cases hpc : s.pc p <;> first | rfl | simp [hpc] at hp
    cases hst
    split_ifs <;> exact h.move rfl rfl rfl rfl rfl (by rw [hidle]; nofun) nofun nofun
  | set p =>
    obtain ⟨hp, hst⟩ := Option.ite_none_right_eq_some.mp hst
    have hidle : s.pc p = .idle := by cases hpc : s.pc p <;> first | rfl | simp [hpc] at hp
    cases hst
    exact h.start hi hidle
  | party p => exact h.access hst
  | expire p =>
    obtain ⟨hp, hst⟩ := Option.ite_none_right_eq_some.mp hst
    have hclock : s.pc p = .clock := by cases hpc : s.pc p <;> first | rfl | simp [hpc] at hp
    cases hst
    exact h.move rfl rfl rfl rfl rfl (by rw [hclock]; nofun) nofun nofun
  | run p =>
    obtain ⟨⟨hp, hready⟩, hst⟩ := Option.ite_none_right_eq_some.mp hst
    have hparked : s.pc p = .parked := by cases hpc : s.pc p <;> first | rfl | simp [hpc] at hp
    cases hst
    exact h.move rfl rfl rfl rfl rfl (by rw [hparked]; nofun) nofun nofun

/-- **At most one wait for every call of `set`**, in every run in which no wait is released again. -/
theorem one_per_set (hs : Reach (system Q true kind) (fun s l => ¬Again s l) s) : s.completed ≤ s.calls := by
  have h : Inv s ∧ Stored s := by
    refine hs.invariant (I := fun s => Inv s ∧ Stored s) ?_ fun s t l h hok hst =>
      ⟨inv_step h.1 h.2 hok hst, stored_step h.1 h.2 hst⟩
    rintro _ rfl
    have hnone : ∀ j, ¬(State.new Q).Due j := fun ⟨q, i⟩ => by cases i <;> simp [State.Due, State.new, Pc.owes]
    exact ⟨⟨nofun, List.nodup_nil, nofun, nofun, Counts.zero hnone⟩, ⟨nofun, nofun⟩⟩
  have hreleased : s.completed ≤ s.released.length := by
    obtain ⟨l, -, -, hn⟩ := h.1.balance
    omega
  have hcalls : s.released.length ≤ s.calls := by
    have hsub : s.released.map Prod.fst ⊆ List.range s.calls := fun n hn => by
      obtain ⟨x, hx, rfl⟩ := List.mem_map.mp hn
      exact List.mem_range.mpr (h.1.fresh x hx)
    simpa using (List.subperm_of_subset h.1.nodup hsub).length_le
  exact hreleased.trans hcalls

end Steps

/-- No call of `set` releases a second wait. -/
def releasesFresh (s : State (WaiterQueue.mpsc Bool)) : Label Bool → Bool
  | .party p => match s.pc p with
    | .load _ | .spin _ | .ready | .recheck => !s.flag || s.released.all (·.1 ≠ s.signal)
    | .pop pc => match ((WaiterQueue.mpsc Bool).popStep s.queue pc).2 with
      | .returned (some _) => s.released.all (·.1 ≠ s.call p)
      | _ => true
    | _ => true
  | _ => true

/-- A bthread waits in the queue of the code, the event is set, and the bthread is resumed; before, it has found the
event set and has reset it. -/
theorem one_per_set_resumed : ∃ s : State (WaiterQueue.mpsc Bool), s.calls = 2 ∧ s.completed = 2 ∧
    s.completed ≤ s.calls := by
  have himp : ∀ s l, releasesFresh s l = true → ¬Again s l := by
    intro s l h hag
    cases l with
    | party p =>
      obtain ⟨hlooks, hflag, hm⟩ | ⟨pc, t, hp, hpop, r, hm⟩ := hag
      · obtain ⟨r, hr⟩ : ∃ r, (s.signal, r) ∈ s.released := by
          obtain ⟨q, -, hr⟩ | hr | hr := hm <;> exact ⟨_, hr⟩
        have hall : s.released.all (·.1 ≠ s.signal) = true := by
          cases hp : s.pc p <;> rw [hp] at hlooks <;>
            first | exact hlooks.elim | simpa [releasesFresh, hp, hflag] using h
        simpa using List.all_eq_true.mp hall _ hr
      · have hall : s.released.all (·.1 ≠ s.call p) = true := by simpa [releasesFresh, hp, hpop] using h
        simpa using List.all_eq_true.mp hall _ hm
    | _ => exact hag
  exact ⟨_, rfl, rfl, one_per_set (reach_exec (M := system (WaiterQueue.mpsc Bool) true fun _ => .bthread) himp
    (.init rfl) (show exec (system (WaiterQueue.mpsc Bool) true fun _ => .bthread) (.new _)
    ([.set true] ++ List.replicate 2 (.party true) ++ [.wait false false] ++ List.replicate 2 (.party false) ++
      [.wait false false] ++ List.replicate 6 (.party false) ++ [.set true] ++ List.replicate 8 (.party true) ++
      [.run false]) = some _ from rfl) (by decide))⟩

/-- **Two waits for one call of `set`**: two bthreads wait, and `set` wakes both. -/
theorem two_released : ∃ s : State (WaiterQueue.mpsc (Fin 3)),
    Reachable (system (WaiterQueue.mpsc (Fin 3)) true fun _ => .bthread) s ∧ s.calls = 1 ∧ s.completed = 2 ∧
    ¬s.completed ≤ s.calls :=
  ⟨_, reachable_exec (.init rfl) (show exec (system (WaiterQueue.mpsc (Fin 3)) true fun _ => .bthread) (.new _)
    ([.wait 0 false] ++ List.replicate 6 (.party 0) ++ [.wait 1 false] ++ List.replicate 6 (.party 1) ++ [.set 2] ++
      List.replicate 13 (.party 2) ++ [.run 0, .run 1]) = some _ from rfl), rfl, rfl, by decide⟩

end Cothread.AutoEvent
