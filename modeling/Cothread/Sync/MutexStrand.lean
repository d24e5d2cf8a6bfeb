import Cothread.Sync.MutexParked

/-!
# `Mutex` and stranded waiters

With an atomic waiter queue, a free mutex that nobody is busy with may still have waiters: a bthread may read the
generation after the unlock that it was to wait for (`stranded_bthread`), `lock_async` may enqueue its coroutine after
the last `unlock` has looked at the queue, `unlock_pthread` does not look at the queue at all, and `unlock` may leave
the waking to another `unlock` that has already done it. While no step strands a waiter in one of these ways
(`Strands`), a free mutex has an empty waiter queue, and somebody is going to rouse a sleeping bthread (`Stands`), so
no waiter is left when nobody is busy (`no_waiter_stranded`).
-/

namespace Cothread.Mutex

open Run WaiterQueue

universe u

variable {P : Type u}

/-! ## Kinds of places -/

namespace Pc

variable {Q : WaiterQueue P}

/-- No call of `lock`, `lock_async` or `unlock` is in progress, or the party waits for the mutex. -/
def settled : Pc Q → Bool
  | idle | holding | nativeOnly | asleep | suspended | tryCas _ | nativeTry => true
  | _ => false

/-- An unlock that has cleared `LOCKED` and has its `Wake(1)` to come. -/
def waking : Pc Q → Bool
  | addPending | getButex | loadValue | storeValue _ | wake => true
  | _ => false

/-- In `lock_bthread`, awake. -/
def locking : Pc Q → Bool
  | fastLoad | fastCas | loadButex | createButex | load _ | casFree _ _ | casWaiters _ _ | recheck _ | generation _
  | wait _ _ => true
  | _ => false

/-- A party that is going to wake a bthread, or to take the mutex. -/
def rouses (a : Pc Q) : Bool := a.waking || a.locking

/-- An `unlock` of a party of kind `k` that has found the waiter queue empty, before its `fetch_and`. -/
def emptied (k : Kind) : Pc Q → Bool
  | loadPending | clearOnly => true
  | clear => k ≠ .pthread
  | _ => false

/-- Between calls, or in an unlock after its `fetch_and`. -/
def leaving : Pc Q → Bool
  | idle | addPending | getButex | loadValue | storeValue _ | wake | subPending | nativeUnlock => true
  | _ => false

/-- Where the party has set `HAS_WAITERS`, or found it set. -/
def marked : Pc Q → Bool
  | recheck _ | generation _ | wait _ _ | asleep | retryTry => true
  | _ => false

/-- Where the party has seen `butex_`. -/
def made : Pc Q → Bool
  | load _ | casFree _ _ | casWaiters _ _ | recheck _ | generation _ | wait _ _ | asleep => true
  | _ => false

theorem not_settled {a : Pc Q} (h : a.rouses) : a.settled = false := by cases a <;> first | rfl | cases h

end Pc

/-- Nobody owns the mutex and nobody is busy with it. -/
def Quiet {Q : WaiterQueue P} (s : State Q) : Prop := s.word.locked = false ∧ ∀ p, (s.pc p).settled = true

/-- The coroutines in the waiter queue. -/
def State.waiters (s : State (fifo P)) : List P := s.queue

/-- **A step that strands a waiter**: a bthread goes to sleep while `LOCKED` is clear and no `Wake(1)` is to come; a
coroutine is enqueued while `LOCKED` is clear or an `unlock` has already found the queue empty; a pthread's unlock
clears `LOCKED` while a coroutine is in the queue; or an `unlock` skips the wake because of `pending_wake_` while a
bthread sleeps and no other unlock has its `Wake(1)` to come. -/
def Strands (kind : P → Kind) (s : State (fifo P)) : Label P → Prop
  | .party p =>
    match s.pc p with
    | .wait _ g => s.value = g ∧ s.word.locked = false ∧ ∀ q, (s.pc q).waking = false
    | .enqueue _ => s.word.locked = false ∨ ∃ q, (s.pc q).emptied (kind q) = true
    | .clear => kind p = .pthread ∧ s.waiters ≠ []
    | .clearOnly => s.sleepers ≠ [] ∧ ∀ q, q ≠ p → (s.pc q).waking = false
    | _ => False
  | _ => False

/-! ## The invariant -/

/-- The waiter queue, and who is going to rouse the sleepers. -/
structure Stands (kind : P → Kind) (s : State (fifo P)) : Prop where
  marked : ∀ p, (s.pc p).marked → s.word.hasWaiters = true
  uncleared : ∀ p, s.pc p ≠ .clearWaiters
  made : ∀ p, (s.pc p).made → s.butex = true
  nodup : s.waiters.Nodup
  queued : ∀ p, p ∈ s.waiters ↔ s.pc p = .suspended
  item : ∀ p x, s.pc p = .enqueue x → x = p
  free : s.word.locked = false → s.waiters = []
  emptied : ∀ p, (s.pc p).emptied (kind p) → s.waiters = []
  roused : s.word.locked = false → s.sleepers ≠ [] → ∃ p, (s.pc p).rouses

variable [DecidableEq P]

section Step

variable {kind : P → Kind} {s r t : State (fifo P)} {p q : P} {a b : Pc (fifo P)}

/-- A party goes on, and has nothing to do with the waiter queue. -/
theorem Stands.goto (h : Stands kind s) (hpc : s.pc p = a) (hr : r.pc = s.pc) (hq : r.queue = s.queue)
    (hw : s.word.hasWaiters = true → r.word.hasWaiters = true) (hbm : b.marked → r.word.hasWaiters = true)
    (hbc : b ≠ .clearWaiters) (hbx : s.butex = true → r.butex = true) (hbu : b.made → r.butex = true)
    (ha : a ≠ .suspended) (hb : b ≠ .suspended) (hbe : ∀ x, b = .enqueue x → x = p)
    (hfree : r.word.locked = false → s.word.locked = false ∨ s.waiters = [])
    (hemp : b.emptied (kind p) → s.waiters = [])
    (hrouse : r.word.locked = false → r.sleepers ≠ [] → ∃ q, ((r.goto p b).pc q).rouses) :
    Stands kind (r.goto p b) where
  marked := forall_goto (C := fun _ x => x.marked → r.word.hasWaiters = true) hr hbm fun q hqm => hw (h.marked q hqm)
  uncleared := forall_goto (C := fun _ x => x ≠ .clearWaiters) hr hbc h.uncleared
  made := forall_goto (C := fun _ x => x.made → r.butex = true) hr hbu fun q hqm => hbx (h.made q hqm)
  nodup := by
    rw [State.waiters, goto_queue, hq]; exact h.nodup
  queued q := by
    rw [State.waiters, goto_queue, hq]
    refine (h.queued q).trans ?_
    by_cases hqp : q = p
    · rw [hqp, goto_self, hpc]
      exact iff_of_false ha hb
    · rw [goto_of_ne hqp, hr]
  item q x hqx := by
    by_cases hqp : q = p
    · rw [hqp, goto_self] at hqx
      rw [hqp]
      exact hbe x hqx
    · rw [goto_of_ne hqp, hr] at hqx
      exact h.item q x hqx
  free hl := by
    rw [State.waiters, goto_queue, hq]
    rcases hfree hl with hl | hl
    · exact h.free hl
    · exact hl
  emptied q hqe := by
    rw [State.waiters, goto_queue, hq]
    by_cases hqp : q = p
    · rw [hqp, goto_self] at hqe
      exact hemp hqe
    · rw [goto_of_ne hqp, hr] at hqe
      exact h.emptied q hqe
  roused := hrouse

/-- Who rouses the sleepers is another party, or goes on doing so. -/
theorem Stands.still (h : Stands kind s) (hpc : s.pc p = a) (hr : r.pc = s.pc) (hab : a.rouses → b.rouses)
    (hl : s.word.locked = false) (hs : s.sleepers ≠ []) : ∃ q, ((r.goto p b).pc q).rouses := by
  obtain ⟨q, hq⟩ := h.roused hl hs
  by_cases hqp : q = p
  · rw [hqp, hpc] at hq
    exact ⟨p, by rw [goto_self]; exact hab hq⟩
  · exact ⟨q, by rw [goto_of_ne hqp, hr]; exact hq⟩

/-- The place `b` after `a`: it claims nothing new, and neither of them is about the waiter queue. -/
def Harmless (kind : P → Kind) (s : State (fifo P)) (p : P) (a b : Pc (fifo P)) : Prop :=
  (b.marked → a.marked ∨ s.word.hasWaiters = true) ∧ b ≠ .clearWaiters ∧ (b.made → a.made ∨ s.butex = true) ∧
    a ≠ .suspended ∧ b ≠ .suspended ∧ (∀ x, b = .enqueue x → x = p) ∧ (b.emptied (kind p) → a.emptied (kind p)) ∧
    (a.rouses → b.rouses)

/-- An access that changes neither `state_` nor the wait queue of the butex. -/
theorem Stands.quiet (h : Stands kind s) (hpc : s.pc p = a) (hr : r.pc = s.pc) (hq : r.queue = s.queue)
    (hw : r.word = s.word) (hx : r.butex = s.butex) (hs : r.sleepers = s.sleepers) (hab : Harmless kind s p a b) :
    Stands kind (r.goto p b) := by
  obtain ⟨hbm, hbc, hbu, ha, hb, hbe, hemp, hab⟩ := hab
  refine h.goto hpc hr hq (fun hl => by rw [hw]; exact hl) (fun hm => ?_) hbc (fun hx' => hx.trans hx') (fun hm => ?_)
    ha hb hbe (fun hl => Or.inl (by rw [← hw]; exact hl)) (fun he => h.emptied p (by rw [hpc]; exact hemp he))
    fun hl hs' => h.still hpc hr hab (by rw [← hw]; exact hl) (by rw [← hs]; exact hs')
  · rw [hw]
    exact (hbm hm).elim (fun ham => h.marked p (by rw [hpc]; exact ham)) id
  · rw [hx]
    exact (hbu hm).elim (fun ham => h.made p (by rw [hpc]; exact ham)) id

/-- An access by which the party comes to own the mutex, with `LOCKED` set. -/
theorem Stands.lock {w : Word} (h : Stands kind s) (hpc : s.pc p = a) (hr : r.pc = s.pc) (hq : r.queue = s.queue)
    (hx : r.butex = s.butex) (hw : r.word = w) (hl : w.locked = true)
    (hm : s.word.hasWaiters = true → w.hasWaiters = true) (ha : a ≠ .suspended) : Stands kind (r.goto p .holding) := by
  subst hw
  exact h.goto hpc hr hq hm nofun nofun (fun hx' => hx.trans hx') nofun ha nofun nofun
    (fun hl' => by rw [hl] at hl'; cases hl') nofun fun hl' => by rw [hl] at hl'; cases hl'

/-- The exchange of `state_` from 0 to `LOCKED`. -/
theorem Stands.tryLock (h : Stands kind s) (hpc : s.pc p = a) (ha : a ≠ .suspended) (hb : Stands kind (s.goto p b)) :
    Stands kind (s.tryLock p .holding b) := by
  unfold State.tryLock State.cas
  split
  case isTrue hw => exact h.lock hpc rfl rfl rfl rfl rfl (fun hm => by rw [hw] at hm; cases hm) ha
  case isFalse => exact hb

/-- A sleeping bthread goes on. -/
theorem Stands.rouse (h : Stands kind s) (hpc : s.pc p = .asleep) : Stands kind (s.rouse p) :=
  h.goto hpc rfl rfl id nofun nofun id (fun _ => h.made p (by rw [hpc]; rfl)) nofun nofun nofun Or.inl nofun
    fun _ _ => ⟨p, by rw [goto_self]; rfl⟩

/-- A party goes on in its unlock, or has returned. -/
theorem Stands.leave (h : Stands kind s) (hpc : s.pc p = a) (hr : r.pc = s.pc) (hq : r.queue = s.queue)
    (hx : r.butex = s.butex) (hm : s.word.hasWaiters = true → r.word.hasWaiters = true) (ha : a ≠ .suspended)
    (hb : b.leaving) (hfree : r.word.locked = false → s.word.locked = false ∨ s.waiters = [])
    (hrouse : r.word.locked = false → r.sleepers ≠ [] → ∃ q, ((r.goto p b).pc q).rouses) :
    Stands kind (r.goto p b) := by
  cases b with
  | idle | addPending | getButex | loadValue | storeValue v | wake | subPending | nativeUnlock =>
    exact h.goto hpc hr hq hm nofun nofun (fun hx' => hx.trans hx') nofun ha nofun nofun hfree nofun hrouse
  | _ => cases hb

/-- `Wake(1)`, and the party goes on. -/
theorem Stands.wake (h : Stands kind s) (hp : Parked s) (hpc : s.pc p = .wake) (hb : b.leaving) :
    Stands kind (s.wakeFirst.goto p b) := by
  rcases hp.wakeFirst_cases with ⟨hnil, hw⟩ | ⟨q, hq, hw⟩
  · rw [hw]
    exact h.leave hpc rfl rfl rfl id nofun hb Or.inl fun _ hs => absurd hnil hs
  · have hpq : p ≠ q := by
      rintro rfl
      rw [hpc] at hq; cases hq
    rw [hw]
    refine (h.rouse hq).leave ((rouse_of_ne hpq).trans hpc) rfl rfl rfl id nofun hb Or.inl fun _ _ => ⟨q, ?_⟩
    rw [goto_of_ne hpq.symm, State.rouse, goto_self]
    rfl

/-- `Wait` puts the bthread to sleep. -/
theorem Stands.sleep {first : Bool} {g : Int} {l : List P} (h : Stands kind s) (hpc : s.pc p = .wait first g)
    (hg : s.value = g) (hok : ¬Strands kind s (.party p)) : Stands kind ({ s with sleepers := l }.goto p .asleep) := by
  have hm : s.word.hasWaiters = true := h.marked p (by rw [hpc]; rfl)
  refine h.goto hpc rfl rfl id (fun _ => hm) nofun id (fun _ => h.made p (by rw [hpc]; rfl)) nofun nofun nofun Or.inl
    nofun fun hl _ => ?_
  by_contra hno
  have hnone : ∀ q, (s.pc q).waking = false := by
    intro q
    by_contra hq
    have hqp : q ≠ p := by
      rintro rfl
      rw [hpc] at hq; exact hq rfl
    refine hno ⟨q, ?_⟩
    rw [goto_of_ne hqp]
    rw [Bool.not_eq_false] at hq
    rw [Pc.rouses, hq]
    rfl
  exact hok (by simp only [Strands, hpc]; exact ⟨hg, hl, hnone⟩)

/-- **An unlock clears `LOCKED`.** -/
theorem Stands.release (h : Stands kind s) (hpc : s.pc p = a) (ha : a ≠ .suspended) (hfree : s.waiters = [])
    (hb : b.leaving) (hrouse : s.sleepers ≠ [] → b.rouses ∨ ∃ q, q ≠ p ∧ (s.pc q).rouses) :
    Stands kind ({ s with word := { s.word with locked := false } }.goto p b) := by
  refine h.leave hpc rfl rfl rfl id ha hb (fun _ => Or.inr hfree) fun _ hs => ?_
  rcases hrouse hs with hb | ⟨q, hqp, hq⟩
  · exact ⟨p, by rw [goto_self]; exact hb⟩
  · exact ⟨q, by rw [goto_of_ne hqp]; exact hq⟩

omit [DecidableEq P] in
/-- Somebody sleeps, so `HAS_WAITERS` is set and there is a butex. -/
theorem Stands.of_sleepers (h : Stands kind s) (hp : Parked s) (hs : s.sleepers ≠ []) :
    s.word.hasWaiters = true ∧ s.butex = true := by
  obtain ⟨q, hq⟩ := List.exists_mem_of_ne_nil _ hs
  have hpc := (hp.asleep q).mp hq
  exact ⟨h.marked q (by rw [hpc]; rfl), h.made q (by rw [hpc]; rfl)⟩

/-- A coroutine is enqueued while `LOCKED` is set and every `unlock` is still to look at the queue. -/
theorem Stands.enqueue {x : P} (h : Stands kind s) (hpc : s.pc p = .enqueue x) (hok : ¬Strands kind s (.party p)) :
    Stands kind ({ s with queue := (s.waiters ++ [x] : List P) }.goto p .suspended) := by
  obtain rfl := h.item p x hpc
  simp only [Strands, hpc, not_or, not_exists, Bool.not_eq_true, Bool.not_eq_false] at hok
  obtain ⟨hl, hno⟩ := hok
  have hpcs : ∀ q, q ≠ x → ({ s with queue := (s.waiters ++ [x] : List P) }.goto x .suspended).pc q = s.pc q :=
    fun q hq => goto_of_ne hq
  have hx : x ∉ s.waiters := by
    rw [h.queued, hpc]
    nofun
  refine ⟨fun q hq => ?_, fun q => ?_, fun q hq => ?_, ?_, fun q => ?_, fun q y hq => ?_, fun hl' => ?_,
    fun q hq => ?_, fun hl' => ?_⟩
  · by_cases hqx : q = x
    · rw [hqx, goto_self] at hq; cases hq
    · rw [hpcs q hqx] at hq; exact h.marked q hq
  · by_cases hqx : q = x
    · rw [hqx, goto_self]; nofun
    · rw [hpcs q hqx]; exact h.uncleared q
  · by_cases hqx : q = x
    · rw [hqx, goto_self] at hq; cases hq
    · rw [hpcs q hqx] at hq; exact h.made q hq
  · exact List.nodup_append.mpr ⟨h.nodup, List.nodup_singleton x, by
      intro y hy z hz
      rw [List.mem_singleton.mp hz]
      rintro rfl
      exact hx hy⟩
  · show q ∈ s.waiters ++ [x] ↔ _
    by_cases hqx : q = x
    · rw [hqx, goto_self]; simp
    · rw [hpcs q hqx, ← h.queued]; simp [hqx]
  · by_cases hqx : q = x
    · rw [hqx, goto_self] at hq; cases hq
    · rw [hpcs q hqx] at hq; exact h.item q y hq
  · rw [goto_word, hl] at hl'; cases hl'
  · by_cases hqx : q = x
    · rw [hqx, goto_self] at hq; cases hq
    · rw [hpcs q hqx, hno q] at hq; cases hq
  · rw [goto_word, hl] at hl'; cases hl'

/-- **`Pop` takes a coroutine out**, while `LOCKED` is set. -/
theorem Stands.hand {pc : (fifo P).PopPc} {x : P} {l : List P} (h : Stands kind s) (hpc : s.pc p = .dequeue pc)
    (hx : s.waiters = x :: l) : Stands kind (({ s with queue := l }.goto x .granted).goto p (.submit x)) := by
  have hxs : s.pc x = .suspended := (h.queued x).mp (by rw [hx]; exact List.mem_cons_self)
  have hxp : x ≠ p := by
    rintro rfl
    rw [hpc] at hxs; cases hxs
  have hnd := h.nodup
  rw [hx, List.nodup_cons] at hnd
  have hl : s.word.locked = true := by
    rw [← Bool.not_eq_false]
    intro hl
    have hfree := h.free hl
    rw [hx] at hfree; cases hfree
  have hpcs : ∀ q, q = p ∨ q = x ∨ (({ s with queue := l }.goto x .granted).goto p (.submit x)).pc q = s.pc q := by
    intro q
    by_cases hqp : q = p
    · exact Or.inl hqp
    by_cases hqx : q = x
    · exact Or.inr (Or.inl hqx)
    · exact Or.inr (Or.inr (by rw [goto_of_ne hqp, goto_of_ne hqx]))
  have hpp : (({ s with queue := l }.goto x .granted).goto p (.submit x)).pc p = .submit x := goto_self
  have hpx : (({ s with queue := l }.goto x .granted).goto p (.submit x)).pc x = .granted := by
    rw [goto_of_ne hxp, goto_self]
  refine ⟨fun q hq => ?_, fun q => ?_, fun q hq => ?_, hnd.2, fun q => ?_, fun q y hq => ?_, fun hl' => ?_,
    fun q hq => ?_, fun hl' => ?_⟩
  · rcases hpcs q with rfl | rfl | hqs
    · rw [hpp] at hq; cases hq
    · rw [hpx] at hq; cases hq
    · rw [hqs] at hq; exact h.marked q hq
  · rcases hpcs q with rfl | rfl | hqs
    · rw [hpp]; nofun
    · rw [hpx]; nofun
    · rw [hqs]; exact h.uncleared q
  · rcases hpcs q with rfl | rfl | hqs
    · rw [hpp] at hq; cases hq
    · rw [hpx] at hq; cases hq
    · rw [hqs] at hq; exact h.made q hq
  · show q ∈ l ↔ _
    rcases hpcs q with rfl | rfl | hqs
    · rw [hpp]
      refine iff_of_false (fun hm => ?_) nofun
      have hqs := (h.queued q).mp (by rw [hx]; exact List.mem_cons_of_mem _ hm)
      rw [hpc] at hqs; cases hqs
    · rw [hpx]
      exact iff_of_false hnd.1 nofun
    · rw [hqs, ← h.queued, hx, List.mem_cons]
      have hqx : q ≠ x := by
        rintro rfl
        rw [hpx, hxs] at hqs; cases hqs
      simp [hqx]
  · rcases hpcs q with rfl | rfl | hqs
    · rw [hpp] at hq; cases hq
    · rw [hpx] at hq; cases hq
    · rw [hqs] at hq; exact h.item q y hq
  · rw [goto_word, goto_word, hl] at hl'; cases hl'
  · rcases hpcs q with rfl | rfl | hqs
    · rw [hpp] at hq; cases hq
    · rw [hpx] at hq; cases hq
    · rw [hqs] at hq
      have hnil := h.emptied q hq
      rw [hx] at hnil; cases hnil
  · rw [goto_word, goto_word, hl] at hl'; cases hl'

theorem dequeue_nil {pc : (fifo P).PopPc} (h : s.waiters = []) : s.dequeue p pc = s.goto p .loadPending := by
  cases s
  cases h
  rfl

theorem dequeue_cons {pc : (fifo P).PopPc} {x : P} {l : List P} (h : s.waiters = x :: l) :
    s.dequeue p pc = ({ s with queue := l }.goto x .granted).goto p (.submit x) := by
  cases s
  cases h
  rfl

attribute [local simp] Harmless Pc.marked Pc.made Pc.emptied Pc.rouses Pc.waking Pc.locking

/-- `lock_bthread`. -/
theorem Stands.lockBthread_access (h : Stands kind s) (hok : ¬Strands kind s (.party p))
    (hpart : a.part = .lockBthread) (hpc : s.pc p = a) (hst : s.access (kind p) p a = some t) : Stands kind t := by
  cases a with
  | fastLoad =>
    cases hst
    split <;> exact h.quiet hpc rfl rfl rfl rfl rfl (by simp)
  | fastCas =>
    cases hst
    exact h.tryLock hpc (by simp)
      (h.quiet hpc rfl rfl rfl rfl rfl (by simp))
  | loadButex =>
    cases hst
    split
    case isTrue hb => exact h.quiet hpc rfl rfl rfl rfl rfl (by simp [hb])
    case isFalse => exact h.quiet hpc rfl rfl rfl rfl rfl (by simp)
  | createButex =>
    cases hst
    exact h.goto hpc rfl rfl id (by simp) (by simp) (fun _ => rfl) (fun _ => rfl) (by simp) (by simp) (by simp) Or.inl
      (by simp) fun _ _ => ⟨p, by rw [goto_self]; rfl⟩
  | load first =>
    cases hst
    split
    · exact h.quiet hpc rfl rfl rfl rfl rfl (by simp)
    split
    · exact h.quiet hpc rfl rfl rfl rfl rfl (by simp)
    case isFalse hm => exact h.quiet hpc rfl rfl rfl rfl rfl (by simp [hm])
  | casFree first w =>
    cases hst
    unfold State.cas
    split
    case isTrue hw => exact h.lock hpc rfl rfl rfl rfl rfl (fun hm => by rw [← hw]; exact hm) (by simp)
    case isFalse => exact h.quiet hpc rfl rfl rfl rfl rfl (by simp)
  | casWaiters first w =>
    cases hst
    unfold State.cas
    split
    case isTrue hw =>
      exact h.goto hpc rfl rfl (fun _ => rfl)
        (fun _ => rfl) (by simp) id (fun _ => h.made p (by rw [hpc]; rfl)) (by simp) (by simp)
        (by simp) (fun hl => Or.inl (by rw [hw]; exact hl)) (by simp) fun _ _ => ⟨p, by rw [goto_self]; rfl⟩
    case isFalse => exact h.quiet hpc rfl rfl rfl rfl rfl (by simp)
  | recheck first =>
    cases hst
    split
    · exact h.quiet hpc rfl rfl rfl rfl rfl (by simp)
    · exact h.quiet hpc rfl rfl rfl rfl rfl (by simp)
  | generation first =>
    cases hst
    exact h.quiet hpc rfl rfl rfl rfl rfl (by simp)
  | wait first g =>
    cases hst
    split
    case isTrue hg => exact h.sleep hpc hg hok
    case isFalse => exact h.quiet hpc rfl rfl rfl rfl rfl (by simp)
  | _ => cases hpart

/-- `lock_async`, and `try_lock` but for the native mutex. -/
theorem Stands.lockAsync_access (h : Stands kind s) (hok : ¬Strands kind s (.party p))
    (hpart : a.part = .lockAsync) (hpc : s.pc p = a) (hst : s.access (kind p) p a = some t) : Stands kind t := by
  cases a with
  | tryCas retry =>
    cases hst
    refine h.tryLock hpc (by simp) ?_
    split <;> exact h.quiet hpc rfl rfl rfl rfl rfl (by simp)
  | ready | suspendTry =>
    cases hst
    exact h.tryLock hpc (by simp) (h.quiet hpc rfl rfl rfl rfl rfl (by simp))
  | setWaiters =>
    cases hst
    exact h.goto hpc rfl rfl (fun _ => rfl) (fun _ => rfl) (by simp) id (by simp) (by simp) (by simp) (by simp) Or.inl
      (by simp) fun hl hs => h.still hpc rfl (by simp) hl hs
  | retryTry =>
    cases hst
    -- `HAS_WAITERS` is set, so the exchange from 0 fails
    have hw : s.word ≠ ⟨false, false⟩ := by
      intro hw
      have hm : s.word.hasWaiters = true := h.marked p (by rw [hpc]; rfl)
      rw [hw] at hm; cases hm
    unfold State.tryLock State.cas
    rw [if_neg hw]
    exact h.quiet hpc rfl rfl rfl rfl rfl (by simp [fifo])
  | clearWaiters => exact absurd hpc (h.uncleared p)
  | enqueue x =>
    cases hst
    exact h.enqueue hpc hok
  | _ => cases hpart

/-- The native mutex, and the `fetch_or` of `lock_pthread`. -/
theorem Stands.native_access (h : Stands kind s) (hpart : a.part = .native) (hpc : s.pc p = a)
    (hst : s.access (kind p) p a = some t) : Stands kind t := by
  cases a with
  | nativeLock =>
    simp only [State.access, Option.ite_none_right_eq_some, Option.some.injEq] at hst
    obtain ⟨-, rfl⟩ := hst
    exact h.quiet hpc rfl rfl rfl rfl rfl (by simp)
  | fetchOr =>
    cases hst
    exact h.lock hpc rfl rfl rfl rfl rfl id (by simp)
  | nativeTry =>
    cases hst
    split <;> exact h.quiet hpc rfl rfl rfl rfl rfl (by simp)
  | nativeUnlock =>
    cases hst
    exact h.quiet hpc rfl rfl rfl rfl rfl (by simp)
  | _ => cases hpart

/-- `unlock`, up to its `fetch_and` or its `Submit`. -/
theorem Stands.unlock_access (h : Stands kind s) (hp : Parked s) (hok : ¬Strands kind s (.party p))
    (hpart : a.part = .unlock) (hpc : s.pc p = a) (hst : s.access (kind p) p a = some t) : Stands kind t := by
  cases a with
  | dequeue pc =>
    cases hst
    cases hq : s.waiters with
    | nil =>
      rw [dequeue_nil hq]
      exact h.goto hpc rfl rfl id (by simp) (by simp) id (by simp) (by simp) (by simp) (by simp) Or.inl (fun _ => hq)
        fun hl hs => h.still hpc rfl (by simp) hl hs
    | cons x l =>
      rw [dequeue_cons hq]
      exact h.hand hpc hq
  | submit x =>
    cases hst
    have hx := hp.given p x hpc
    have hpx : p ≠ x := by
      rintro rfl
      rw [hpc] at hx; cases hx
    have hi : Stands kind (s.goto x .holding) :=
      h.quiet hx rfl rfl rfl rfl rfl (by simp)
    exact hi.quiet ((goto_of_ne hpx).trans hpc) rfl rfl rfl rfl rfl (by simp)
  | loadPending =>
    cases hst
    split <;> exact h.quiet hpc rfl rfl rfl rfl rfl (by simp)
  | clearOnly =>
    cases hst
    refine h.release hpc (by simp) (h.emptied p (by rw [hpc]; rfl)) rfl fun hs => Or.inr ?_
    simp only [Strands, hpc, not_and, not_forall, Bool.not_eq_false] at hok
    obtain ⟨q, hqp, hq⟩ := hok hs
    exact ⟨q, hqp, by rw [Pc.rouses, hq]; rfl⟩
  | clear =>
    cases hst
    have hfree : s.waiters = [] := by
      by_contra hne
      by_cases hk : kind p = .pthread
      · exact hok (by simp only [Strands, hpc]; exact ⟨hk, hne⟩)
      · exact hne (h.emptied p (by rw [hpc]; exact decide_eq_true hk))
    refine h.release hpc (by simp) hfree ?_ fun hs => Or.inl ?_
    · split <;> split <;> rfl
    · rw [if_pos (h.of_sleepers hp hs).1]
      split <;> rfl
  | _ => cases hpart

/-- What an unlock does after its `fetch_and`. -/
theorem Stands.wake_access (h : Stands kind s) (hp : Parked s) (hpart : a.part = .wake) (hpc : s.pc p = a)
    (hst : s.access (kind p) p a = some t) : Stands kind t := by
  cases a with
  | addPending | loadValue | storeValue v =>
    cases hst
    exact h.quiet hpc rfl rfl rfl rfl rfl (by simp)
  | getButex =>
    cases hst
    split
    case isTrue => exact h.quiet hpc rfl rfl rfl rfl rfl (by simp)
    case isFalse hb =>
      refine h.leave hpc rfl rfl rfl id (by simp) ?_ Or.inl fun _ hs => absurd (h.of_sleepers hp hs).2 hb
      split <;> rfl
  | wake =>
    cases hst
    refine h.wake hp hpc ?_
    split <;> rfl
  | subPending =>
    cases hst
    exact h.quiet hpc rfl rfl rfl rfl rfl (by simp)
  | _ => cases hpart

/-- **Every access** that strands no waiter. -/
theorem stands_access (h : Stands kind s) (hp : Parked s) (hok : ¬Strands kind s (.party p)) (hpc : s.pc p = a)
    (hst : s.access (kind p) p a = some t) : Stands kind t := by
  cases hpart : a.part with
  | away => rw [access_of_away hpart] at hst; cases hst
  | lockBthread => exact h.lockBthread_access hok hpart hpc hst
  | lockAsync => exact h.lockAsync_access hok hpart hpc hst
  | native => exact h.native_access hpart hpc hst
  | unlock => exact h.unlock_access hp hok hpart hpc hst
  | wake => exact h.wake_access hp hpart hpc hst

/-- **Every step** that strands no waiter. -/
theorem stands_step {l : Label P} (h : Stands kind s) (hp : Parked s) (hok : ¬Strands kind s l)
    (hst : step kind s l = some t) : Stands kind t := by
  rcases step_cases hst with ⟨p, b, hpc, rfl, hb⟩ | ⟨p, hpc, rfl⟩ | ⟨p, rfl, hst⟩ | ⟨p, hpc, rfl⟩
  case inl =>
    have hq : ∀ b : Pc (fifo P), b = .fastLoad ∨ b = .nativeLock ∨ b = .nativeTry ∨ (∃ c, b = .tryCas c) ∨ b = .ready →
        Stands kind (s.goto p b) := by
      rintro b (rfl | rfl | rfl | ⟨c, rfl⟩ | rfl) <;>
        exact h.quiet hpc rfl rfl rfl rfl rfl (by simp)
    apply hq
    rcases hb with ⟨rfl, -⟩ | rfl | ⟨-, rfl | rfl⟩
    · unfold lockStart
      split <;> simp
    · unfold tryStart
      split <;> simp
    · simp
    · simp
  case inr.inl =>
    have ha : s.pc p ≠ .suspended ∧ (s.pc p).rouses = false := by
      rcases hpc with hpc | hpc <;> rw [hpc] <;> exact ⟨nofun, rfl⟩
    have hab : ∀ b : Pc (fifo P), (s.pc p).rouses → b.rouses := fun b hr => by rw [ha.2] at hr; cases hr
    unfold unlockStart
    split
    case isTrue hk =>
      exact h.quiet rfl rfl rfl rfl rfl rfl ⟨nofun, nofun, nofun, ha.1, nofun, nofun,
        fun he => by simp [Pc.emptied, hk] at he, hab _⟩
    case isFalse =>
      exact h.quiet rfl rfl rfl rfl rfl rfl ⟨nofun, nofun, nofun, ha.1, nofun, nofun, nofun, hab _⟩
  case inr.inr.inl => exact stands_access h hp hok rfl hst
  case inr.inr.inr => exact h.rouse hpc

omit [DecidableEq P] in
/-- `Pop` returns only suspended coroutines. -/
theorem Stands.popsSuspended (h : Stands kind s) : PopsSuspended s := by
  intro p pc m x _ hx
  have hhead : s.waiters.head? = some x := Popped.returned.inj (Prod.mk.inj hx).2
  exact (h.queued x).mp (List.mem_of_mem_head? hhead)

end Step

/-! ## Runs -/

omit [DecidableEq P] in
theorem stands_new {kind : P → Kind} : Stands kind (State.new (fifo P)) where
  marked _ h := nomatch h
  uncleared _ h := nomatch h
  made _ h := nomatch h
  nodup := List.nodup_nil
  queued _ := iff_of_false List.not_mem_nil nofun
  item _ _ h := nomatch h
  free _ := rfl
  emptied _ h := nomatch h
  roused _ h := absurd rfl h

/-- **No waiter is stranded**, in any run in which no step strands one. -/
theorem no_waiter_stranded (kind : P → Kind) (s : State (fifo P))
    (hs : Reach (system (fifo P) kind) (fun s l => ¬Strands kind s l) s) (hq : Quiet s) (p : P) :
    s.pc p ≠ .asleep ∧ s.pc p ≠ .suspended := by
  have hi : Parked s ∧ Stands kind s := by
    refine hs.invariant (I := fun s => Parked s ∧ Stands kind s) ?_ ?_
    · rintro _ rfl
      exact ⟨parked_new, stands_new⟩
    · rintro s t l ⟨hp, hi⟩ hok hst
      exact ⟨parked_step hp hi.popsSuspended hst, stands_step hi hp hok hst⟩
  constructor
  · intro hpc
    have hs : s.sleepers ≠ [] := List.ne_nil_of_mem ((hi.1.asleep p).mpr hpc)
    obtain ⟨q, hr⟩ := hi.2.roused hq.1 hs
    have hset := hq.2 q
    rw [Pc.not_settled hr] at hset
    cases hset
  · intro hpc
    have hm := (hi.2.queued p).mpr hpc
    rw [hi.2.free hq.1] at hm
    cases hm

/-- Every bthread goes to sleep while `LOCKED` is set, no coroutine is enqueued and no wake is left to another. -/
def safe (s : State (fifo Bool)) : Label Bool → Bool
  | .party p =>
    match s.pc p with
    | .wait _ _ => s.word.locked
    | .enqueue _ | .clearOnly => false
    | _ => true
  | _ => true

/-- A bthread sleeps, is woken, and locks and unlocks the mutex. -/
theorem no_waiter_stranded_woken : ∃ s : State (fifo Bool), s.value = 2 ∧ Quiet s ∧
    ∀ p, s.pc p ≠ .asleep ∧ s.pc p ≠ .suspended := by
  have himp : ∀ (s : State (fifo Bool)) l, safe s l = true → ¬Strands (fun _ => .bthread) s l := by
    intro s l h
    cases l with
    | party p =>
      simp only [safe] at h
      simp only [Strands]
      cases hpc : s.pc p <;> rw [hpc] at h <;> simp_all
    | _ => exact not_false
  have hq : ∀ (s : State (fifo Bool)), s.word.locked = false → (s.pc false).settled = true →
      (s.pc true).settled = true → Quiet s := by
    intro s hl hf ht
    exact ⟨hl, fun p => by cases p <;> assumption⟩
  exact ⟨_, rfl, hq _ rfl rfl rfl, no_waiter_stranded (fun _ => .bthread) _ (reach_exec himp (.init rfl)
    (show exec (system (fifo Bool) fun _ => .bthread) _
      (.lock false :: List.replicate 2 (.party false) ++ .lock true :: List.replicate 8 (.party true) ++
        .unlock false :: List.replicate 9 (.party false) ++ List.replicate 2 (.party true) ++
        .unlock true :: List.replicate 9 (.party true)) = some _ from rfl) (by decide)) (hq _ rfl rfl rfl)⟩

/-! ## A stranded bthread -/

/-- The unlock is done between the waiter's second load of `state_` and its load of the generation. -/
def strandedRun : List (Label Bool) :=
  .lock false :: List.replicate 2 (.party false) ++ .lock true :: List.replicate 6 (.party true) ++
    .unlock false :: List.replicate 9 (.party false) ++ List.replicate 2 (.party true)

/-- **The bthread sleeps on a free mutex** with which nobody is busy. -/
theorem stranded_bthread : ∃ s, exec (system (fifo Bool) fun _ => .bthread) (.new (fifo Bool)) strandedRun = some s ∧
    Reachable (system (fifo Bool) fun _ => .bthread) s ∧ Quiet s ∧ s.pc true = .asleep ∧ s.sleepers = [true] := by
  refine ⟨_, rfl, reachable_exec (.init rfl) (show exec _ _ strandedRun = some _ from rfl), ⟨rfl, ?_⟩, rfl, rfl⟩
  intro p
  cases p <;> rfl

end Cothread.Mutex
