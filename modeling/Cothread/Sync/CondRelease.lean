import Cothread.Sync.MutexParked
import Cothread.Sync.MutexOwner

/-!
# `CondVar::wait` and the two words of the mutex

Threads and bthreads use one mutex and one condition variable. A bthread that waits releases the mutex by `unlock`,
which clears `LOCKED`; a pthread waits in `pthread_cond_wait`, which releases the native mutex and leaves `LOCKED` as it
is. So while a pthread waits, `LOCKED` stays set on its behalf, and `lock_bthread` blocks on a mutex that nobody uses;
or an `unlock` of the other side clears `LOCKED`, and the pthread returns without it. While no pthread waits, `LOCKED`
is set on behalf of an owner only, and `wait` releases the mutex (`wait_releases`).
-/

namespace Cothread.Mutex

open Run WaiterQueue

universe u

variable {P : Type u}

/-! ## Steps -/

/-- Where a party is in `CondVar::wait` or `wait_for`. -/
inductive CondPc
  | unlocking  -- a bthread in `mutex.unlock()`
  | blocked  -- a bthread in `waiter_queue_`, or a pthread in `pthread_cond_wait`
  | woken  -- a bthread that a notification has taken out of `waiter_queue_`
  deriving DecidableEq

/-- The call that the label starts is this party's. -/
def Label.caller : Label P → Option P
  | .lock p | .tryLock p | .reacquire p | .lockAsync p | .unlock p => some p
  | .party _ | .resume _ => none

inductive CondLabel (P : Type u)
  | act (l : Label P)  -- a step of the mutex
  | wait (p : P)  -- `wait` or `wait_for` is called
  | block (p : P)  -- a bthread: `enqueue_waiter`, `SuspendCurrent`
  | notifyOne
  | notifyAll
  | relock (p : P)  -- a bthread: resumed, `mutex.lock()`
  | wake (p : P)  -- a pthread: `pthread_cond_wait` or `pthread_cond_timedwait` returns
  deriving DecidableEq

variable [DecidableEq P]

/-- A mutex and a condition variable. -/
structure Monitor (P : Type u) [DecidableEq P] where
  mutex : State (mpsc P)
  cond : P → Option CondPc
  waiters : List P  -- `waiter_queue_` of the condition variable
  marks : P → Bool  -- `LOCKED` has been set on the party's behalf, and not been cleared since

def Monitor.new : Monitor P where
  mutex := .new (mpsc P)
  cond _ := none
  waiters := []
  marks _ := false

/-- On whose behalf `LOCKED` is set after an access of `p`; nobody takes the mutex over from an `unlock`, since no
coroutine waits for it. -/
def State.marked {Q : WaiterQueue P} (s : State Q) (marks : P → Bool) (p : P) : Pc Q → P → Bool
  | .clearOnly | .clear => fun _ => false
  | .fetchOr => Function.update marks p true
  | a => if s.takes a then Function.update marks p true else marks

namespace Monitor

/-- The parties: pthreads and bthreads. -/
def kind (pthread : P → Bool) (p : P) : Kind := if pthread p then .pthread else .bthread

/-- On whose behalf `LOCKED` is set after a step of the mutex. -/
def marksAfter (s : Monitor P) : Label P → P → Bool
  | .party p => s.mutex.marked s.marks p (s.mutex.pc p)
  | _ => s.marks

/-- A step of the mutex, with what becomes of the party's `wait`. -/
def act (pthread : P → Bool) (s : Monitor P) (l : Label P) (cond : P → Option CondPc) : Option (Monitor P) :=
  (Mutex.step (kind pthread) s.mutex l).map fun m => { s with mutex := m, cond := cond, marks := s.marksAfter l }

/-- One step: a party calls `wait` only while it owns the mutex. -/
def step (pthread : P → Bool) (s : Monitor P) : CondLabel P → Option (Monitor P)
  | .act l => if l.caller.all fun p => s.cond p = none then s.act pthread l s.cond else none
  | .wait p =>
    if s.cond p = none ∧ (s.mutex.pc p matches .holding | .nativeOnly) then
      if pthread p then
        some { s with
          mutex := { s.mutex with native := none }.goto p .idle
          cond := Function.update s.cond p (some .blocked) }
      else s.act pthread (.unlock p) (Function.update s.cond p (some .unlocking))
    else none
  | .block p =>
    if s.cond p = some .unlocking ∧ (s.mutex.pc p matches .idle) then
      some { s with cond := Function.update s.cond p (some .blocked), waiters := s.waiters ++ [p] }
    else none
  | .notifyOne => some (match s.waiters with
    | [] => s  -- `pthread_cond_signal`: a pthread may return at any time
    | q :: rest => { s with cond := Function.update s.cond q (some .woken), waiters := rest })
  | .notifyAll => some { s with cond := fun q => if q ∈ s.waiters then some .woken else s.cond q, waiters := [] }
  | .relock p =>
    if s.cond p = some .woken then s.act pthread (.lock p) (Function.update s.cond p none) else none
  | .wake p =>
    if pthread p ∧ s.cond p = some .blocked ∧ s.mutex.native.isNone then
      some { s with
        mutex := { s.mutex with native := some p }.goto p .holding
        cond := Function.update s.cond p none }
    else none

/-- Any threads and bthreads on one mutex and one condition variable. -/
def system (pthread : P → Bool) : System (Monitor P) (CondLabel P) where
  init s := s = .new
  step := step pthread

/-- A pthread calls `wait` or `wait_for`. -/
def pthreadWaits (pthread : P → Bool) : CondLabel P → Bool
  | .wait p => pthread p
  | _ => false

/-- Every party that locked the mutex has unlocked it since, or is blocked in `wait`. -/
def Quiescent (s : Monitor P) : Prop := ∀ p, (s.mutex.pc p).owns = false

/-- The party comes to own the mutex by its own accesses only. -/
def Wins (pthread : P → Bool) (s : Monitor P) (p : P) : Prop :=
  ∃ n t, exec (system pthread) s (List.replicate n (.act (.party p))) = some t ∧ t.mutex.pc p = .holding

/-- The party calls `lock` and acquires the mutex without blocking. -/
def Acquires (pthread : P → Bool) (s : Monitor P) (p : P) : Prop :=
  ∃ t, step pthread s (.act (.lock p)) = some t ∧ t.Wins pthread p

/-- A bthread that is in no call. -/
def Ready (pthread : P → Bool) (s : Monitor P) (p : P) : Prop :=
  pthread p = false ∧ s.mutex.pc p = .idle ∧ s.cond p = none

/-- **`wait` releases the mutex**: when all that locked it have unlocked it or are blocked in `wait`, a bthread acquires
it without blocking; and a pthread whose `wait` returns has `LOCKED` set on its behalf. -/
structure Released (pthread : P → Bool) (s : Monitor P) : Prop where
  acquires : s.Quiescent → ∀ p, s.Ready pthread p → s.Acquires pthread p
  returns : ∀ p t, step pthread s (.wake p) = some t → t.marks p

end Monitor

/-! ## `LOCKED` and its owners -/

/-- Where a thread or a bthread can be: its `Pop` finds the waiter queue of the mutex empty. -/
def Pc.direct : Pc (mpsc P) → Bool
  | .ready | .suspendTry | .setWaiters | .retryTry | .clearWaiters | .enqueue _ | .suspended | .granted
  | .submit _ => false
  | .dequeue pc => match (pc : Mpsc.PopPc P) with
    | .loadTail => true
    | _ => false
  | _ => true

/-- In `lock_bthread`, where it is while `LOCKED` is set. -/
def Pc.stuck : Pc (mpsc P) → Bool
  | .fastLoad | .loadButex | .createButex | .load _ | .casWaiters _ _ | .recheck _ | .generation _ | .wait _ _
  | .asleep => true
  | _ => false

/-- No coroutine waits, and `LOCKED` is set on behalf of parties that own the mutex or are in `blocked`. -/
structure Marked (blocked : P → Prop) (s : State (mpsc P)) (marks : P → Bool) : Prop where
  queue : s.queue = Mpsc.Mem.empty
  direct : ∀ p, (s.pc p).direct
  marked : s.word.locked = true → ∃ p, marks p
  locked : ∀ p, marks p → s.word.locked = true
  place : ∀ p, marks p → (s.pc p).owns ∨ blocked p

section Marked

variable {blocked : P → Prop} {s r t : State (mpsc P)} {p : P} {a b : Pc (mpsc P)} {marks : P → Bool} {k : Kind}

theorem marked_new : Marked blocked (State.new (mpsc P)) fun _ => false where
  queue := rfl
  direct _ := rfl
  marked h := nomatch h
  locked _ h := nomatch h
  place _ h := nomatch h

theorem Marked.direct_goto (h : Marked blocked s marks) (hr : r.pc = s.pc) (hb : b.direct) (q : P) :
    ((r.goto p b).pc q).direct := forall_goto (C := fun _ x => x.direct) hr hb h.direct q

/-- `LOCKED` is left alone, by a party that goes on owning the mutex if it did, or is in `blocked`. -/
theorem Marked.keep (h : Marked blocked s marks) (hpc : s.pc p = a) (hr : r.pc = s.pc) (hq : r.queue = s.queue)
    (hw : r.word.locked = s.word.locked) (hd : b.direct) (hb : a.owns → b.owns ∨ blocked p) :
    Marked blocked (r.goto p b) marks where
  queue := hq.trans h.queue
  direct := h.direct_goto hr hd
  marked hl := h.marked (hw.symm.trans hl)
  locked q hm := hw.trans (h.locked q hm)
  place q hm := by
    by_cases hqp : q = p
    · subst hqp
      rw [goto_self]
      exact (h.place q hm).elim (fun ho => hb (hpc ▸ ho)) .inr
    · rw [goto_of_ne hqp, hr]
      exact h.place q hm

/-- `LOCKED` is set, and the party owns the mutex. -/
theorem Marked.take (h : Marked blocked s marks) (hr : r.pc = s.pc) (hq : r.queue = s.queue)
    (hw : r.word.locked = true) (hd : b.direct) (hb : b.owns) :
    Marked blocked (r.goto p b) (Function.update marks p true) where
  queue := hq.trans h.queue
  direct := h.direct_goto hr hd
  marked _ := ⟨p, Function.update_self ..⟩
  locked _ _ := hw
  place q hm := by
    by_cases hqp : q = p
    · rw [hqp, goto_self]
      exact .inl hb
    · rw [Function.update_of_ne hqp] at hm
      rw [goto_of_ne hqp, hr]
      exact h.place q hm

/-- `LOCKED` is cleared. -/
theorem Marked.clear (h : Marked blocked s marks) (hr : r.pc = s.pc) (hq : r.queue = s.queue)
    (hw : r.word.locked = false) (hd : b.direct) : Marked blocked (r.goto p b) fun _ => false where
  queue := hq.trans h.queue
  direct := h.direct_goto hr hd
  marked hl := by rw [goto_word, hw] at hl; cases hl
  locked _ hm := nomatch hm
  place _ hm := nomatch hm

/-- An exchange that sets `LOCKED`. -/
theorem Marked.cas {w w' : Word} {d : Pc (mpsc P)} (h : Marked blocked s marks) (hpc : s.pc p = a)
    (ha : a.owns = false) (hw' : w'.locked = true) (hb : b.direct ∧ b.owns) (hd : d.direct)
    (ht : s.takes a = decide (s.word = w)) :
    Marked blocked (s.cas p w w' b d) (if s.takes a then Function.update marks p true else marks) := by
  rw [ht, State.cas]
  by_cases hw : s.word = w
  · rw [if_pos hw, if_pos (decide_eq_true hw)]
    exact h.take (r := { s with word := w' }) rfl rfl hw' hb.1 hb.2
  · rw [if_neg hw, if_neg (by simpa using hw)]
    exact h.keep hpc rfl rfl rfl hd fun ho => by rw [ha] at ho; cases ho

/-- The waiter queue of the mutex is empty. -/
theorem Marked.popStep {pc : (mpsc P).PopPc} (h : Marked blocked s marks) (hpc : s.pc p = .dequeue pc) :
    (mpsc P).popStep s.queue pc = (s.queue, .returned none) := by
  have hd := h.direct p
  rw [hpc] at hd
  rw [h.queue]
  cases (pc : Mpsc.PopPc P) <;> first | rfl | cases hd

theorem Marked.popsSuspended (h : Marked blocked s marks) : PopsSuspended s := by
  intro p pc m t hpc hpop
  rw [h.popStep hpc] at hpop
  cases hpop

/-- **What an access does to `LOCKED` and its owners.** -/
theorem marked_access (h : Marked blocked s marks) (hp : Parked s) (hpc : s.pc p = a)
    (hst : s.access k p a = some t) : Marked blocked t (s.marked marks p a) := by
  cases a with
  | idle | holding | nativeOnly | asleep | suspended | granted => cases hst
  | ready | suspendTry | setWaiters | retryTry | clearWaiters | enqueue pc | submit x =>
    have hd := h.direct p
    rw [hpc] at hd
    cases hd
  | fastLoad | loadButex | load first | recheck first | getButex =>
    cases hst
    refine h.keep hpc rfl rfl rfl ?_ nofun
    repeat' split
    all_goals rfl
  | loadPending =>
    cases hst
    split <;> exact h.keep hpc rfl rfl rfl rfl fun _ => .inl rfl
  | createButex | generation first | addPending | loadValue | storeValue v | subPending | nativeUnlock =>
    cases hst
    exact h.keep hpc rfl rfl rfl rfl nofun
  | fastCas | casFree first w =>
    cases hst
    exact h.cas hpc rfl rfl ⟨rfl, rfl⟩ rfl rfl
  | tryCas retry =>
    cases hst
    refine h.cas hpc rfl rfl ⟨rfl, rfl⟩ ?_ rfl
    split <;> rfl
  | casWaiters first w =>
    cases hst
    unfold State.cas
    split
    case isTrue hw => exact h.keep (r := { s with word := _ }) hpc rfl rfl (by rw [hw]) rfl nofun
    case isFalse => exact h.keep hpc rfl rfl rfl rfl nofun
  | wait first g =>
    cases hst
    split <;> exact h.keep hpc rfl rfl rfl rfl nofun
  | nativeLock =>
    obtain ⟨-, hst⟩ := Option.ite_none_right_eq_some.mp hst
    cases hst
    exact h.keep hpc rfl rfl rfl rfl nofun
  | nativeTry =>
    cases hst
    split <;> exact h.keep hpc rfl rfl rfl rfl nofun
  | fetchOr =>
    cases hst
    exact h.take rfl rfl rfl rfl rfl
  | dequeue pc =>
    cases hst
    unfold State.dequeue
    rw [h.popStep hpc]
    exact h.keep hpc rfl rfl rfl rfl fun _ => .inl rfl
  | clearOnly =>
    cases hst
    exact h.clear rfl rfl rfl rfl
  | clear =>
    cases hst
    refine h.clear rfl rfl rfl ?_
    repeat' split
    all_goals rfl
  | wake =>
    cases hst
    have hd : (if k = Kind.pthread then Pc.nativeUnlock else .subPending : Pc (mpsc P)).direct := by split <;> rfl
    obtain ⟨-, hw⟩ | ⟨q, hq, hw⟩ := hp.wakeFirst_cases
    · rw [hw]
      exact h.keep hpc rfl rfl rfl hd nofun
    · have hpq : p ≠ q := by
        rintro rfl
        rw [hpc] at hq
        cases hq
      have hrouse : Marked blocked (s.rouse q) marks :=
        h.keep (r := { s with sleepers := s.sleepers.erase q }) hq rfl rfl rfl rfl nofun
      rw [hw]
      exact hrouse.keep ((rouse_of_ne hpq).trans hpc) rfl rfl rfl hd nofun

/-- A call that starts and a bthread that is resumed leave `LOCKED` alone. -/
theorem marked_call {pthread : P → Bool} {l : Label P} (h : Marked blocked s marks) (hl : ∀ p, l ≠ .party p)
    (hst : step (Monitor.kind pthread) s l = some t) : Marked blocked t marks := by
  obtain ⟨p, b, hpc, rfl, hb⟩ | ⟨p, hpc, rfl⟩ | ⟨p, rfl, -⟩ | ⟨p, hpc, rfl⟩ := step_cases hst
  · refine h.keep hpc rfl rfl rfl ?_ nofun
    obtain ⟨rfl, -⟩ | rfl | ⟨hco, -⟩ := hb
    · unfold lockStart
      split <;> rfl
    · unfold tryStart
      split <;> rfl
    · unfold Monitor.kind at hco
      split at hco <;> cases hco
  · have hd : (unlockStart (Monitor.kind pthread p) : Pc (mpsc P)).direct ∧
        (unlockStart (Monitor.kind pthread p) : Pc (mpsc P)).owns := by
      unfold unlockStart
      split <;> exact ⟨rfl, rfl⟩
    obtain hpc | hpc := hpc <;> exact h.keep hpc rfl rfl rfl hd.1 fun _ => .inl hd.2
  · exact absurd rfl (hl p)
  · exact h.keep (r := { s with sleepers := s.sleepers.erase p }) hpc rfl rfl rfl rfl nofun

/-- Parties leave `blocked` only when they own the mutex. -/
theorem Marked.unblock {blocked' : P → Prop} (h : Marked blocked s marks)
    (hb : ∀ p, blocked p → (s.pc p).owns ∨ blocked' p) : Marked blocked' s marks where
  queue := h.queue
  direct := h.direct
  marked := h.marked
  locked := h.locked
  place p hm := (h.place p hm).elim .inl (hb p)

/-- A party that is in no call stays so while others act. -/
theorem idle_step {kind : P → Kind} {l : Label P} {q : P} (h : Parked s) (hpop : PopsSuspended s)
    (hst : step kind s l = some t) (hq : s.pc q = .idle) (hne : l.caller ≠ some q) : t.pc q = .idle := by
  cases l with
  | party p =>
    refine idle_access h hpop rfl hst hq ?_
    rintro rfl
    simp only [step, hq] at hst
    cases hst
  | resume p =>
    obtain ⟨hp, hst⟩ := Option.ite_none_right_eq_some.mp hst
    cases hst
    refine (goto_of_ne ?_).trans hq
    rintro rfl
    rw [hq] at hp
    cases hp
  | lock p | tryLock p | reacquire p | lockAsync p | unlock p =>
    obtain ⟨-, hst⟩ := Option.ite_none_right_eq_some.mp hst
    cases hst
    exact (goto_of_ne fun e => hne (congrArg some e.symm)).trans hq

end Marked

/-! ## The invariant -/

namespace Monitor

/-- A pthread in `pthread_cond_wait`. -/
def Blocked (pthread : P → Bool) (s : Monitor P) (p : P) : Prop := pthread p = true ∧ s.cond p = some .blocked

/-- `LOCKED` is set on behalf of owners and of pthreads that wait; only bthreads use the waiter queue. -/
structure Inv (pthread : P → Bool) (s : Monitor P) : Prop where
  parked : Parked s.mutex
  marked : Marked (s.Blocked pthread) s.mutex s.marks
  idle : ∀ p, s.Blocked pthread p → s.mutex.pc p = .idle
  unlocking : ∀ p, s.cond p = some .unlocking → pthread p = false
  queued : ∀ p ∈ s.waiters, pthread p = false

variable {pthread : P → Bool} {s t : Monitor P} {p : P} {l : CondLabel P}

theorem inv_new : (Monitor.new : Monitor P).Inv pthread where
  parked := parked_new
  marked := marked_new
  idle _ _ := rfl
  unlocking _ h := nomatch h
  queued _ h := nomatch h

/-- A step of the mutex. -/
theorem Inv.act {l : Label P} {cond : P → Option CondPc} (h : s.Inv pthread)
    (hcall : ∀ q, l.caller = some q → s.cond q ≠ some .blocked)
    (hc : ∀ q, pthread q = true → (cond q = some .blocked ↔ s.cond q = some .blocked))
    (hun : ∀ q, cond q = some .unlocking → pthread q = false) (hst : s.act pthread l cond = some t) :
    t.Inv pthread := by
  obtain ⟨m, hm, rfl⟩ := Option.map_eq_some_iff.mp hst
  have hpop := h.marked.popsSuspended
  have hmarked : Marked (s.Blocked pthread) m (s.marksAfter l) := by
    cases l with
    | party p => exact marked_access h.marked h.parked rfl hm
    | _ => exact marked_call h.marked (fun _ e => by cases e) hm
  refine ⟨parked_step h.parked hpop hm, hmarked.unblock fun q hq => .inr ⟨hq.1, (hc q hq.1).mpr hq.2⟩,
    fun q hq => ?_, hun, h.queued⟩
  have hblocked := (hc q hq.1).mp hq.2
  exact idle_step h.parked hpop hm (h.idle q ⟨hq.1, hblocked⟩) fun hl => hcall q hl hblocked

/-- What becomes of the `wait` of a bthread. -/
theorem Inv.conds {cond : P → Option CondPc} {waiters : List P} (h : s.Inv pthread)
    (hc : ∀ q, pthread q = true → (cond q = some .blocked ↔ s.cond q = some .blocked))
    (hun : ∀ q, cond q = some .unlocking → pthread q = false) (hw : ∀ q ∈ waiters, pthread q = false) :
    ({ s with cond := cond, waiters := waiters } : Monitor P).Inv pthread where
  parked := h.parked
  marked := h.marked.unblock fun q hq => .inr ⟨hq.1, (hc q hq.1).mpr hq.2⟩
  idle q hq := h.idle q ⟨hq.1, (hc q hq.1).mp hq.2⟩
  unlocking := hun
  queued := hw

/-- A party goes on that is not a pthread in `pthread_cond_wait`, before and after. -/
theorem blocked_update {cond : P → Option CondPc} {c : Option CondPc}
    (hp : pthread p = true → cond p ≠ some .blocked ∧ c ≠ some .blocked) (q : P) (hk : pthread q = true) :
    Function.update cond p c q = some .blocked ↔ cond q = some .blocked := by
  by_cases hqp : q = p
  · subst hqp
    rw [Function.update_self]
    exact iff_of_false (hp hk).2 (hp hk).1
  · rw [Function.update_of_ne hqp]

theorem unlocking_update {cond : P → Option CondPc} {c : Option CondPc}
    (h : ∀ q, cond q = some .unlocking → pthread q = false) (hc : c = some .unlocking → pthread p = false) (q : P)
    (hq : Function.update cond p c q = some .unlocking) : pthread q = false := by
  by_cases hqp : q = p
  · rw [hqp, Function.update_self] at hq
    exact hqp ▸ hc hq
  · rw [Function.update_of_ne hqp] at hq
    exact h q hq

/-- A step of the mutex, by a party that is not in `wait` when it starts a call. -/
theorem act_cases {l : Label P} (hst : step pthread s (.act l) = some t) :
    (∀ q, l.caller = some q → s.cond q = none) ∧
    ∃ m, Mutex.step (kind pthread) s.mutex l = some m ∧ t = { s with mutex := m, marks := s.marksAfter l } := by
  obtain ⟨hcall, hst⟩ := Option.ite_none_right_eq_some.mp hst
  obtain ⟨m, hm, rfl⟩ := Option.map_eq_some_iff.mp hst
  refine ⟨fun q hq => ?_, m, hm, rfl⟩
  rw [hq, Option.all_some] at hcall
  exact of_decide_eq_true hcall

/-- A call of `wait` comes from an owner of the mutex. -/
theorem wait_cases (hst : step pthread s (.wait p) = some t) :
    s.cond p = none ∧ (s.mutex.pc p = .holding ∨ s.mutex.pc p = .nativeOnly) ∧
    (pthread p = true ∧ t = { s with
        mutex := { s.mutex with native := none }.goto p .idle
        cond := Function.update s.cond p (some .blocked) } ∨
      pthread p = false ∧ s.act pthread (.unlock p) (Function.update s.cond p (some .unlocking)) = some t) := by
  obtain ⟨⟨hnone, hpc⟩, hst⟩ := Option.ite_none_right_eq_some.mp hst
  refine ⟨hnone, ?_, ?_⟩
  · cases h : s.mutex.pc p <;> rw [h] at hpc <;> first | exact .inl rfl | exact .inr rfl | cases hpc
  · split at hst
    case isTrue hp =>
      cases hst
      exact .inl ⟨hp, rfl⟩
    case isFalse hp => exact .inr ⟨by simpa using hp, hst⟩

/-- A pthread waits. -/
theorem Inv.pthreadWait (h : s.Inv pthread) (hp : pthread p = true) (hnone : s.cond p = none)
    (hpc : s.mutex.pc p = .holding ∨ s.mutex.pc p = .nativeOnly) :
    ({ s with
      mutex := { s.mutex with native := none }.goto p .idle
      cond := Function.update s.cond p (some .blocked) } : Monitor P).Inv pthread := by
  have hne : ∀ q, s.cond q = some .blocked → q ≠ p := by
    rintro q hq rfl
    rw [hnone] at hq
    cases hq
  have hblocked : Marked (fun q => pthread q = true ∧ Function.update s.cond p (some .blocked) q = some .blocked)
      s.mutex s.marks := h.marked.unblock fun q hq =>
    .inr ⟨hq.1, (Function.update_of_ne (hne q hq.2) ..).trans hq.2⟩
  refine ⟨?_, ?_, fun q hq => ?_, unlocking_update h.unlocking nofun, h.queued⟩
  · obtain hpc | hpc := hpc <;> exact h.parked.move hpc rfl rfl rfl rfl
  · exact hblocked.keep rfl rfl rfl rfl rfl fun _ => .inr ⟨hp, Function.update_self ..⟩
  · by_cases hqp : q = p
    · rw [hqp, goto_self]
    · exact (goto_of_ne hqp).trans (h.idle q ⟨hq.1, (Function.update_of_ne hqp ..).symm.trans hq.2⟩)

/-- A pthread returns from `wait`. -/
theorem Inv.pthreadWake (h : s.Inv pthread) (hp : s.Blocked pthread p) :
    ({ s with
      mutex := { s.mutex with native := some p }.goto p .holding
      cond := Function.update s.cond p none } : Monitor P).Inv pthread := by
  have hown : Marked (s.Blocked pthread) ({ s.mutex with native := some p }.goto p .holding) s.marks :=
    h.marked.keep rfl rfl rfl rfl rfl fun _ => .inl rfl
  refine ⟨h.parked.move (h.idle p hp) rfl rfl rfl rfl, hown.unblock fun q hq => ?_, fun q hq => ?_,
    unlocking_update h.unlocking nofun, h.queued⟩
  · by_cases hqp : q = p
    · rw [hqp, goto_self]
      exact .inl rfl
    · exact .inr ⟨hq.1, (Function.update_of_ne hqp ..).trans hq.2⟩
  · by_cases hqp : q = p
    · rw [hqp] at hq
      exact absurd ((Function.update_self ..).symm.trans hq.2) nofun
    · exact (goto_of_ne hqp).trans (h.idle q ⟨hq.1, (Function.update_of_ne hqp ..).symm.trans hq.2⟩)

/-- **What every step preserves.** -/
theorem Inv.step (h : s.Inv pthread) (hst : step pthread s l = some t) : t.Inv pthread := by
  cases l with
  | act l =>
    obtain ⟨hcall, m, hm, rfl⟩ := act_cases hst
    refine h.act (fun q hq => ?_) (fun _ _ => Iff.rfl) h.unlocking (Option.map_eq_some_iff.mpr ⟨m, hm, rfl⟩)
    rw [hcall q hq]
    nofun
  | wait p =>
    obtain ⟨hnone, hpc, ⟨hp, rfl⟩ | ⟨hp, hst⟩⟩ := wait_cases hst
    · exact h.pthreadWait hp hnone hpc
    · refine h.act (l := .unlock p) ?_ (blocked_update fun hk => ?_) (unlocking_update h.unlocking fun _ => hp) hst
      · rintro q ⟨⟩
        rw [hnone]
        nofun
      · rw [hp] at hk
        cases hk
  | block p =>
    obtain ⟨⟨hun, -⟩, hst⟩ := Option.ite_none_right_eq_some.mp hst
    cases hst
    have hp := h.unlocking p hun
    refine h.conds (blocked_update fun hk => by rw [hp] at hk; cases hk) (unlocking_update h.unlocking nofun)
      fun q hq => ?_
    obtain hq | hq := List.mem_append.mp hq
    · exact h.queued q hq
    · exact List.mem_singleton.mp hq ▸ hp
  | notifyOne =>
    cases hst
    split
    · exact h
    case h_2 q rest hw =>
      have hq : pthread q = false := h.queued q (hw ▸ List.mem_cons_self)
      exact h.conds (blocked_update fun hk => by rw [hq] at hk; cases hk) (unlocking_update h.unlocking nofun)
        fun x hx => h.queued x (hw ▸ List.mem_cons_of_mem q hx)
  | notifyAll =>
    cases hst
    refine h.conds (fun q hk => ?_) (fun q hq => ?_) nofun
    · rw [if_neg fun hm => by rw [h.queued q hm] at hk; cases hk]
    · split at hq
      · cases hq
      · exact h.unlocking q hq
  | relock p =>
    obtain ⟨hwoken, hst⟩ := Option.ite_none_right_eq_some.mp hst
    have hne : s.cond p ≠ some .blocked := by
      rw [hwoken]
      nofun
    refine h.act (l := .lock p) ?_ (blocked_update fun _ => ⟨hne, ?_⟩) (unlocking_update h.unlocking ?_) hst
    · rintro q ⟨⟩
      exact hne
    · nofun
    · nofun
  | wake p =>
    obtain ⟨⟨hp, hblocked, -⟩, hst⟩ := Option.ite_none_right_eq_some.mp hst
    cases hst
    exact h.pthreadWake ⟨hp, hblocked⟩

/-! ## A bthread that calls `lock` -/

theorem step_act {l : Label P} {m : State (mpsc P)} (hcall : ∀ q, l.caller = some q → s.cond q = none)
    (hm : Mutex.step (kind pthread) s.mutex l = some m) :
    step pthread s (.act l) = some { s with mutex := m, marks := s.marksAfter l } := by
  have hguard : (l.caller.all fun q => s.cond q = none) = true := by
    cases hl : l.caller with
    | none => rfl
    | some q => exact decide_eq_true (hcall q hl)
  refine (if_pos hguard).trans ?_
  rw [act, hm]
  rfl

/-- A bthread's next access is one of the mutex. -/
theorem step_party {m : State (mpsc P)} (hp : pthread p = false)
    (hst : s.mutex.access .bthread p (s.mutex.pc p) = some m) :
    ∃ t, step pthread s (.act (.party p)) = some t ∧ t.mutex = m := by
  refine ⟨_, step_act (m := m) nofun ?_, rfl⟩
  show s.mutex.access (kind pthread p) p (s.mutex.pc p) = some m
  rw [kind, hp]
  exact hst

/-- A bthread wins when it does after its next access. -/
theorem wins_of_access {m : State (mpsc P)} (hp : pthread p = false)
    (hst : s.mutex.access .bthread p (s.mutex.pc p) = some m) (h : ∀ t : Monitor P, t.mutex = m → t.Wins pthread p) :
    s.Wins pthread p := by
  obtain ⟨t, ht, hm⟩ := step_party hp hst
  obtain ⟨n, u, hu, hwon⟩ := h t hm
  refine ⟨n + 1, u, ?_, hwon⟩
  rw [List.replicate_succ, exec_cons]
  show (step pthread s (.act (.party p))).bind _ = _
  rw [ht]
  exact hu

theorem wins_of_holding (h : s.mutex.pc p = .holding) : s.Wins pthread p := ⟨0, s, rfl, h⟩

/-- The exchange that sets `LOCKED`, of the word that the mutex still has. -/
theorem wins_of_casFree {b : Bool} (hp : pthread p = false) (hpc : s.mutex.pc p = .casFree b s.mutex.word) :
    s.Wins pthread p := by
  refine wins_of_access hp (m := { s.mutex with word := { s.mutex.word with locked := true } }.goto p .holding) ?_
    fun t ht => wins_of_holding (by rw [ht, goto_self])
  rw [hpc]
  simp only [State.access, State.cas, if_pos]

/-- The loop of `lock_bthread`. -/
theorem wins_of_load {b : Bool} (hp : pthread p = false) (hl : s.mutex.word.locked = false)
    (hpc : s.mutex.pc p = .load b) : s.Wins pthread p := by
  refine wins_of_access hp (m := s.mutex.goto p (.casFree b s.mutex.word)) ?_ fun t ht => ?_
  · rw [hpc]
    simp only [State.access, if_pos hl]
  · exact wins_of_casFree (b := b) hp (by rw [ht, goto_self, goto_word])

theorem wins_of_loadButex (hp : pthread p = false) (hl : s.mutex.word.locked = false)
    (hpc : s.mutex.pc p = .loadButex) : s.Wins pthread p := by
  by_cases hb : s.mutex.butex = true
  · refine wins_of_access hp (m := s.mutex.goto p (.load true)) ?_ fun t ht => ?_
    · rw [hpc]
      simp only [State.access, if_pos hb]
    · exact wins_of_load (b := true) hp (by rw [ht, goto_word, hl]) (by rw [ht, goto_self])
  · refine wins_of_access hp (m := s.mutex.goto p .createButex) ?_ fun t ht => ?_
    · rw [hpc]
      simp only [State.access, if_neg hb]
    · refine wins_of_access hp (m := { t.mutex with butex := true }.goto p (.load true)) ?_ fun u hu => ?_
      · rw [ht, goto_self]
        rfl
      · exact wins_of_load (b := true) hp (by rw [hu, goto_word, ht]; exact hl) (by rw [hu, goto_self])

/-- The first access of `lock_bthread`. -/
theorem wins_of_fastLoad (hp : pthread p = false) (hl : s.mutex.word.locked = false)
    (hpc : s.mutex.pc p = .fastLoad) : s.Wins pthread p := by
  by_cases hw : s.mutex.word = ⟨false, false⟩
  · refine wins_of_access hp (m := s.mutex.goto p .fastCas) ?_ fun t ht => ?_
    · rw [hpc]
      simp only [State.access, if_pos hw]
    · refine wins_of_access hp (m := { t.mutex with word := ⟨true, false⟩ }.goto p .holding) ?_
        fun u hu => wins_of_holding (by rw [hu, goto_self])
      have hw' : t.mutex.word = ⟨false, false⟩ := by rw [ht, goto_word, hw]
      rw [show t.mutex.pc p = .fastCas by rw [ht, goto_self]]
      simp only [State.access, State.tryLock, State.cas, if_pos hw']
  · refine wins_of_access hp (m := s.mutex.goto p .loadButex) ?_ fun t ht => ?_
    · rw [hpc]
      simp only [State.access, if_neg hw]
    · exact wins_of_loadButex hp (by rw [ht, goto_word, hl]) (by rw [ht, goto_self])

/-- **A bthread acquires a mutex whose `LOCKED` is clear** without blocking. -/
theorem acquires_of_clear (hp : s.Ready pthread p) (hl : s.mutex.word.locked = false) : s.Acquires pthread p := by
  obtain ⟨hk, hidle, hnone⟩ := hp
  have hm : Mutex.step (kind pthread) s.mutex (.lock p) = some (s.mutex.goto p .fastLoad) := by
    simp only [Mutex.step, hidle, kind, hk, lockStart]
    rfl
  have hcall : ∀ q, (Label.lock p).caller = some q → s.cond q = none := by
    rintro q ⟨⟩
    exact hnone
  exact ⟨_, step_act hcall hm, wins_of_fastLoad hk hl goto_self⟩

/-- While `LOCKED` is set a bthread goes on in `lock_bthread`. -/
theorem stuck_access {s t : State (mpsc P)} {k : Kind} {a : Pc (mpsc P)} (hl : s.word.locked = true) (ha : a.stuck)
    (hst : s.access k p a = some t) : t.word.locked = true ∧ (t.pc p).stuck := by
  cases a with
  | fastLoad =>
    cases hst
    rw [if_neg fun hw => by rw [hw] at hl; cases hl]
    exact ⟨hl, by rw [goto_self]; rfl⟩
  | load first =>
    cases hst
    rw [if_neg (by simp [hl])]
    refine ⟨hl, ?_⟩
    rw [goto_self]
    split <;> rfl
  | recheck first =>
    cases hst
    rw [if_neg (by simp [hl])]
    exact ⟨hl, by rw [goto_self]; rfl⟩
  | casWaiters first w =>
    cases hst
    unfold State.cas
    split
    case isTrue hw => exact ⟨hw ▸ hl, by rw [goto_self]; rfl⟩
    case isFalse => exact ⟨hl, by rw [goto_self]; rfl⟩
  | loadButex | wait first g =>
    cases hst
    split <;> exact ⟨hl, by rw [goto_self]; rfl⟩
  | createButex | generation first =>
    cases hst
    exact ⟨hl, by rw [goto_self]; rfl⟩
  | asleep => cases hst
  | _ => cases ha

/-- **A bthread does not acquire a mutex whose `LOCKED` is set** by its own accesses. -/
theorem not_wins (hl : s.mutex.word.locked = true) (hs : (s.mutex.pc p).stuck) : ¬s.Wins pthread p := by
  rintro ⟨n, t, ht, hwon⟩
  induction n generalizing s with
  | zero =>
    cases ht
    rw [hwon] at hs
    cases hs
  | succ n ih =>
    rw [List.replicate_succ, exec_cons] at ht
    obtain ⟨r, hr, ht⟩ := Option.bind_eq_some_iff.mp ht
    obtain ⟨-, m, hm, rfl⟩ := act_cases (show step pthread s (.act (.party p)) = some r from hr)
    obtain ⟨hl', hs'⟩ := stuck_access hl hs hm
    exact ih hl' hs' ht

theorem not_acquires_of_locked (hp : pthread p = false) (hl : s.mutex.word.locked = true) :
    ¬s.Acquires pthread p := by
  rintro ⟨t, ht, hwins⟩
  obtain ⟨-, m, hm, rfl⟩ := act_cases ht
  obtain ⟨-, hm⟩ := Option.ite_none_right_eq_some.mp hm
  cases hm
  refine not_wins ?_ ?_ hwins
  · exact hl
  · rw [goto_self, kind, hp]
    rfl

/-! ## Runs -/

theorem of_update_none {cond : P → Option CondPc} {q : P} (hq : Function.update cond p none q = some .blocked) :
    cond q = some .blocked := by
  by_cases hqp : q = p
  · rw [hqp, Function.update_self] at hq
    cases hq
  · rwa [Function.update_of_ne hqp] at hq

/-- A pthread comes to wait by its call of `wait`. -/
theorem blocked_of_step {q : P} (h : s.Inv pthread) (hst : step pthread s l = some t) (hq : t.Blocked pthread q) :
    s.Blocked pthread q ∨ l = .wait q := by
  obtain ⟨hk, hq⟩ := hq
  cases l with
  | act l =>
    obtain ⟨-, m, -, rfl⟩ := act_cases hst
    exact .inl ⟨hk, hq⟩
  | wait p =>
    by_cases hqp : q = p
    · exact .inr (hqp ▸ rfl)
    · obtain ⟨-, -, ⟨-, rfl⟩ | ⟨-, hst⟩⟩ := wait_cases hst
      · exact .inl ⟨hk, (Function.update_of_ne hqp ..).symm.trans hq⟩
      · obtain ⟨m, -, rfl⟩ := Option.map_eq_some_iff.mp hst
        exact .inl ⟨hk, (Function.update_of_ne hqp ..).symm.trans hq⟩
  | block p =>
    obtain ⟨⟨hun, -⟩, hst⟩ := Option.ite_none_right_eq_some.mp hst
    cases hst
    have hqp : q ≠ p := by
      rintro rfl
      rw [h.unlocking q hun] at hk
      cases hk
    exact .inl ⟨hk, (Function.update_of_ne hqp ..).symm.trans hq⟩
  | notifyOne =>
    cases hst
    split at hq
    · exact .inl ⟨hk, hq⟩
    case h_2 x rest hw =>
      have hqx : q ≠ x := by
        rintro rfl
        rw [h.queued q (hw ▸ List.mem_cons_self)] at hk
        cases hk
      exact .inl ⟨hk, (Function.update_of_ne hqx ..).symm.trans hq⟩
  | notifyAll =>
    cases hst
    change (if q ∈ s.waiters then _ else _) = _ at hq
    split at hq
    · cases hq
    · exact .inl ⟨hk, hq⟩
  | relock p =>
    obtain ⟨-, hst⟩ := Option.ite_none_right_eq_some.mp hst
    obtain ⟨m, -, rfl⟩ := Option.map_eq_some_iff.mp hst
    exact .inl ⟨hk, of_update_none hq⟩
  | wake p =>
    obtain ⟨-, hst⟩ := Option.ite_none_right_eq_some.mp hst
    cases hst
    exact .inl ⟨hk, of_update_none hq⟩

theorem reachable_inv (hs : Reachable (system pthread) s) : s.Inv pthread :=
  hs.invariant (I := Inv pthread) (by rintro _ rfl; exact inv_new) fun _ _ _ h _ hst => h.step hst

/-- While no pthread calls `wait`, none waits. -/
theorem none_blocked (hs : Reach (system pthread) (fun _ l => pthreadWaits pthread l = false) s) (q : P) :
    ¬s.Blocked pthread q := by
  refine hs.invariant_of (J := Inv pthread) (I := fun s => ∀ q, ¬s.Blocked pthread q)
    (fun s hs => reachable_inv hs.reachable) ?_ ?_ q
  · rintro _ rfl q ⟨-, hq⟩
    cases hq
  · intro s t l hi hno hok hst q hq
    obtain hq' | rfl := blocked_of_step hi hst hq
    · exact hno q hq'
    · rw [show pthreadWaits pthread (.wait q) = true from hq.1] at hok
      cases hok

/-- **`wait` releases the mutex while no pthread waits**: `LOCKED` is set on behalf of an owner only. -/
theorem released_of_none (hi : s.Inv pthread) (hno : ∀ q, ¬s.Blocked pthread q) : s.Released pthread where
  acquires hquiet p hp := by
    refine acquires_of_clear hp (Bool.eq_false_iff.mpr fun hl => ?_)
    obtain ⟨q, hm⟩ := hi.marked.marked hl
    obtain hown | hblocked := hi.marked.place q hm
    · rw [hquiet q] at hown
      cases hown
    · exact hno q hblocked
  returns p t ht := by
    obtain ⟨⟨hp, hblocked, -⟩, -⟩ := Option.ite_none_right_eq_some.mp ht
    exact absurd ⟨hp, hblocked⟩ (hno p)

/-- **A pthread that waits releases the native mutex only**: when it is the only owner, `LOCKED` stays set. -/
theorem not_released_of_wait {b : P} (hi : s.Inv pthread) (hst : step pthread s (.wait p) = some t)
    (hp : pthread p = true) (hm : s.marks p) (hown : ∀ q, (s.mutex.pc q).owns → q = p) (hb : s.Ready pthread b) :
    ¬t.Released pthread := by
  obtain ⟨-, -, ⟨-, rfl⟩ | ⟨hp', -⟩⟩ := wait_cases hst
  · intro hr
    obtain ⟨hk, hidle, hnone⟩ := hb
    have hbp : b ≠ p := by
      rintro rfl
      rw [hp] at hk
      cases hk
    have hl : s.mutex.word.locked = true := hi.marked.locked p hm
    refine not_acquires_of_locked hk ?_ (hr.acquires (fun q => ?_) b ⟨hk, ?_, ?_⟩)
    · exact hl
    · by_cases hqp : q = p
      · rw [hqp, goto_self]
        rfl
      · rw [goto_of_ne hqp]
        exact Bool.eq_false_iff.mpr fun hq => hqp (hown q hq)
    · exact (goto_of_ne hbp).trans hidle
    · exact (Function.update_of_ne hbp ..).trans hnone
  · rw [hp] at hp'
    cases hp'

end Monitor

/-- **`wait` releases the mutex in every run in which no pthread calls `wait` or `wait_for`**, and the first such call
of a pthread that is the only owner of the mutex leaves it taken. -/
theorem wait_releases (pthread : P → Bool) :
    (∀ s, Reach (Monitor.system pthread) (fun _ l => Monitor.pthreadWaits pthread l = false) s →
      s.Released pthread) ∧
    ∀ s t p b, Reachable (Monitor.system pthread) s → Monitor.step pthread s (.wait p) = some t →
      pthread p = true → s.marks p → (∀ q, (s.mutex.pc q).owns → q = p) → s.Ready pthread b → ¬t.Released pthread :=
  ⟨fun _ hs => Monitor.released_of_none (Monitor.reachable_inv hs.reachable) (Monitor.none_blocked hs),
    fun _ _ _ _ hs => Monitor.not_released_of_wait (Monitor.reachable_inv hs)⟩

namespace Pc

/-- In no call, and not an owner. -/
def rests : Pc (mpsc P) → Bool
  | idle => true
  | _ => false

/-- In no call, and an owner. -/
def holds : Pc (mpsc P) → Bool
  | holding => true
  | _ => false

theorem eq_idle {a : Pc (mpsc P)} (h : a.rests) : a = idle := by cases a <;> first | rfl | cases h

theorem eq_holding {a : Pc (mpsc P)} (h : a.holds) : a = holding := by cases a <;> first | rfl | cases h

end Pc

/-- Two pthreads and a bthread. -/
def twoPthreads (p : Fin 3) : Bool := p ≠ 2

/-- The bthread waits, is notified and takes the mutex again, and unlocks it; then a pthread locks it. -/
def notifiedRun : List (CondLabel (Fin 3)) :=
  List.flatten [[.act (.lock 2)], List.replicate 2 (.act (.party 2)), [.wait 2], List.replicate 3 (.act (.party 2)),
    [.block 2, .notifyOne, .relock 2], List.replicate 2 (.act (.party 2)), [.act (.unlock 2)],
    List.replicate 3 (.act (.party 2)), [.act (.lock 0)], List.replicate 2 (.act (.party 0))]

theorem wait_releases_notified : ∃ s t : Monitor (Fin 3), s.mutex.pc 0 = .holding ∧ s.Released twoPthreads ∧
    Monitor.step twoPthreads s (.wait 0) = some t ∧ ¬t.Released twoPthreads := by
  have hrun : (exec (Monitor.system twoPthreads) .new notifiedRun).any fun s =>
      (s.mutex.pc 0).holds ∧ (s.mutex.pc 2).rests ∧ s.cond 2 = none ∧ s.marks 0 = true ∧
        (∀ q, (s.mutex.pc q).owns → q = 0) ∧ (Monitor.step twoPthreads s (.wait 0)).isSome := by decide +kernel
  have hok : execOk (Monitor.system twoPthreads) (fun _ l => Monitor.pthreadWaits twoPthreads l = false) .new
      notifiedRun = true := by decide +kernel
  obtain ⟨s, hs, hholds, hidle, hnone, hm, hown, hwait⟩ := of_exec_any hrun
  obtain ⟨t, ht⟩ := Option.isSome_iff_exists.mp hwait
  have hreach := reach_exec (fun _ _ h => h) (.init rfl) hs hok
  have hwaits := wait_releases twoPthreads
  refine ⟨s, t, Pc.eq_holding hholds, hwaits.1 s hreach, ht,
    hwaits.2 s t 0 2 hreach.reachable ht rfl hm hown ⟨rfl, Pc.eq_idle hidle, hnone⟩⟩

/-- A pthread locks the mutex and waits. -/
def leftRun : List (CondLabel (Fin 3)) := .act (.lock 0) :: List.replicate 2 (.act (.party 0)) ++ [.wait 0]

/-- Another pthread locks and unlocks the mutex, and the first one returns. -/
def clearedRun : List (CondLabel (Fin 3)) :=
  List.flatten [leftRun, [.act (.lock 1)], List.replicate 2 (.act (.party 1)), [.act (.unlock 1)],
    List.replicate 2 (.act (.party 1))]

/-- **The mutex left taken, and a return without it**: while the pthread waits, which is the only party that has locked
the mutex, a bthread cannot lock it; and after another pthread has unlocked it, the first one returns while `LOCKED` is
clear. -/
theorem left_locked : (∃ s : Monitor (Fin 3), Reachable (Monitor.system twoPthreads) s ∧ s.Quiescent ∧
      s.Ready twoPthreads 2 ∧ ¬s.Acquires twoPthreads 2) ∧
    ∃ s t : Monitor (Fin 3), Reachable (Monitor.system twoPthreads) s ∧
      Monitor.step twoPthreads s (.wake 0) = some t ∧ t.mutex.word.locked = false ∧ t.marks 0 = false := by
  constructor
  · have hrun : (exec (Monitor.system twoPthreads) .new leftRun).any fun s =>
        (∀ q, (s.mutex.pc q).owns = false) ∧ (s.mutex.pc 2).rests ∧ s.cond 2 = none ∧
          s.mutex.word.locked = true := by decide +kernel
    obtain ⟨s, hs, hquiet, hidle, hnone, hl⟩ := of_exec_any hrun
    exact ⟨s, reachable_exec (.init rfl) hs, hquiet, ⟨rfl, Pc.eq_idle hidle, hnone⟩,
      Monitor.not_acquires_of_locked rfl hl⟩
  · have hrun : (exec (Monitor.system twoPthreads) .new clearedRun).any fun s =>
        (Monitor.step twoPthreads s (.wake 0)).any fun t =>
          t.mutex.word.locked = false ∧ t.marks 0 = false := by decide +kernel
    obtain ⟨s, hs, hx⟩ := (Option.any_eq_true _ _).mp hrun
    obtain ⟨t, ht, hx⟩ := (Option.any_eq_true _ _).mp hx
    obtain ⟨hl, hm⟩ := of_decide_eq_true hx
    exact ⟨s, t, reachable_exec (.init rfl) hs, ht, hl, hm⟩

end Cothread.Mutex
