import Cothread.Sync.MutexParked

/-!
# `Mutex` and its owners

A party owns the mutex from the exchange that sets `LOCKED`, or from an `unlock` that takes it out of the waiter queue,
until its own `unlock` clears `LOCKED` or hands the mutex over; a pthread owns it from the `fetch_or` of `lock_pthread`
or from its `try_lock`. The two sides use different words: `fetch_or` does not look at `LOCKED`, and a pthread's
`try_lock` leaves it clear (`Crossed`). While no party crosses the other side in this way there is at most one owner
(`owner_unique`), so bthreads and pthreads exclude each other (`excluded`), and without pthreads no party can cross, so
bthreads and coroutines always exclude each other (`worker_side_exclusive`).
-/

namespace Cothread.Mutex

open Run WaiterQueue

universe u

variable {P : Type u} {Q : WaiterQueue P}

/-! ## Kinds of places -/

namespace Pc

/-- The party owns the mutex. -/
def owns : Pc Q → Bool
  | holding | nativeOnly | clearWaiters | granted | dequeue _ | loadPending | clearOnly | clear => true
  | _ => false

/-- A pthread that owns the mutex without having set `LOCKED`, or whose `fetch_and` is next. -/
def bare : Pc Q → Bool
  | nativeOnly | clear => true
  | _ => false

/-- Where a pthread owns the native mutex. -/
def native : Pc Q → Bool
  | fetchOr | holding | nativeOnly | clear | getButex | loadValue | storeValue _ | wake | nativeUnlock => true
  | _ => false

/-- Where a party of this kind can be. -/
def fits (k : Kind) : Pc Q → Bool
  | nativeOnly | nativeLock | fetchOr | nativeTry | nativeUnlock => k = .pthread
  | idle | holding | clear | getButex | loadValue | storeValue _ | wake => true
  | _ => k ≠ .pthread

/-- Where a party has nothing to do with the waiter queue. -/
def plain : Pc Q → Bool
  | enqueue _ | suspended | dequeue _ => false
  | _ => true

/-- Where a party owns neither the mutex nor the native mutex, and has nothing to do with the waiter queue. -/
def outside (a : Pc Q) : Bool := a.plain && !a.owns && !a.native

/-- The `Push` in progress. -/
def push : Pc Q → Option Q.PushPc
  | enqueue pc => some pc
  | _ => none

/-- Where the party is in relation to the waiter queue. -/
def place : Pc Q → Mpsc.Place
  | enqueue _ => .pushing
  | suspended => .queued
  | _ => .out

theorem push_of_plain {a : Pc Q} (h : a.plain) : a.push = none := by cases a <;> first | rfl | cases h

theorem place_of_plain {a : Pc Q} (h : a.plain) : a.place = .out := by cases a <;> first | rfl | cases h

end Pc

variable [DecidableEq P]

/-- The exchange that sets `LOCKED` succeeds. -/
def State.takes (s : State Q) : Pc Q → Bool
  | .fastCas | .tryCas _ | .ready | .suspendTry | .retryTry => s.word = ⟨false, false⟩
  | .casFree _ w => s.word = w
  | _ => false

/-- **The two sides cross**: a pthread's `fetch_or` finds `LOCKED` set, or its `try_lock` takes the native mutex while
`LOCKED` is set, or a bthread or a coroutine sets `LOCKED` while a pthread is between a successful `try_lock` and the
`fetch_and` of its `unlock`. -/
def Crossed (kind : P → Kind) (s : State Q) : Label P → Prop
  | .party p =>
    match s.pc p with
    | .fetchOr => s.word.locked = true
    | .nativeTry => s.native = none ∧ s.word.locked = true
    | pc => s.takes pc = true ∧ ∃ q, kind q = .pthread ∧ (s.pc q).bare = true
  | _ => False

/-! ## The invariant -/

/-- The waiter queue, with the calls in progress. -/
def QueueOk (L : Lawful Q) (s : State Q) : Prop :=
  ∃ pop, L.Ok s.queue (fun p => (s.pc p).push) pop (fun p => (s.pc p).place) ∧
    ∀ pc, pop = some pc ↔ ∃ p, s.pc p = .dequeue pc

/-- One owner at most, and what the parties rely on. -/
structure Inv (L : Lawful Q) (kind : P → Kind) (s : State Q) : Prop where
  unique : ∀ p q, (s.pc p).owns → (s.pc q).owns → p = q
  locked : ∀ p, (s.pc p).owns → s.word.locked = true ∨ kind p = .pthread ∧ (s.pc p).bare
  native : ∀ p, kind p = .pthread → (s.pc p).native → s.native = some p
  fits : ∀ p, (s.pc p).fits (kind p)
  free : ∀ p first w, s.pc p = .casFree first w → w.locked = false
  queue : QueueOk L s

section Step

variable {L : Lawful Q} {kind : P → Kind} {s r t : State Q} {p q : P} {a b : Pc Q}

/-! ## The waiter queue -/

theorem goto_push : (fun q => ((r.goto p b).pc q).push) = Function.update (fun q => (r.pc q).push) p b.push := by
  funext q
  by_cases hq : q = p
  · subst hq; simp
  · simp [goto_of_ne hq, hq]

theorem goto_place : (fun q => ((r.goto p b).pc q).place) = Function.update (fun q => (r.pc q).place) p b.place := by
  funext q
  by_cases hq : q = p
  · subst hq; simp
  · simp [goto_of_ne hq, hq]

/-- A party that does not pop, before and after. -/
theorem dequeue_goto {pc : Q.PopPc} (ha : ∀ pc, s.pc p ≠ .dequeue pc) (hb : ∀ pc, b ≠ .dequeue pc) (hr : r.pc = s.pc) :
    (∃ q, s.pc q = .dequeue pc) ↔ ∃ q, (r.goto p b).pc q = .dequeue pc := by
  refine exists_congr fun q => ?_
  by_cases hq : q = p
  · subst hq
    exact iff_of_false (ha pc) (by rw [goto_self]; exact hb pc)
  · rw [goto_of_ne hq, hr]

omit [DecidableEq P] in
theorem Pc.ne_dequeue_of_plain (ha : a.plain) (pc : Q.PopPc) : a ≠ .dequeue pc := by
  rintro rfl; cases ha

/-- A party goes on elsewhere. -/
theorem QueueOk.quiet (h : QueueOk L s) (hpc : s.pc p = a) (hr : r.pc = s.pc) (hq : r.queue = s.queue) (ha : a.plain)
    (hb : b.plain) : QueueOk L (r.goto p b) := by
  obtain ⟨pop, hok, hpop⟩ := h
  have hpush : (fun q => ((r.goto p b).pc q).push) = fun q => (s.pc q).push := by
    rw [goto_push, hr, Pc.push_of_plain hb]
    exact Function.update_eq_self_iff.mpr (by rw [hpc, Pc.push_of_plain ha])
  have hplace : (fun q => ((r.goto p b).pc q).place) = fun q => (s.pc q).place := by
    rw [goto_place, hr, Pc.place_of_plain hb]
    exact Function.update_eq_self_iff.mpr (by rw [hpc, Pc.place_of_plain ha])
  refine ⟨pop, by rw [hpush, hplace]; exact hq ▸ hok, fun pc => (hpop pc).trans ?_⟩
  exact dequeue_goto (hpc ▸ Pc.ne_dequeue_of_plain ha) (Pc.ne_dequeue_of_plain hb) hr

/-- `lock_async` starts to push the coroutine. -/
theorem QueueOk.start_push (h : QueueOk L s) (hpc : s.pc p = a) (ha : a.plain) :
    QueueOk L (s.goto p (.enqueue (Q.pushStart p))) := by
  obtain ⟨pop, hok, hpop⟩ := h
  refine ⟨pop, ?_, fun pc => (hpop pc).trans ?_⟩
  · rw [goto_push, goto_place]
    exact L.push hok (by rw [hpc, Pc.push_of_plain ha]) (by rw [hpc, Pc.place_of_plain ha])
  · exact dequeue_goto (hpc ▸ Pc.ne_dequeue_of_plain ha) nofun rfl

/-- An access of `Push`: after the last one the coroutine is in the queue. -/
theorem QueueOk.pushStep {pc : Q.PushPc} (h : QueueOk L s) (hpc : s.pc p = .enqueue pc) :
    QueueOk L ({ s with queue := (Q.pushStep s.queue pc).1 }.goto p
      (match (Q.pushStep s.queue pc).2 with
        | some pc' => .enqueue pc'
        | none => .suspended)) := by
  obtain ⟨pop, hok, hpop⟩ := h
  have hok' := L.pushStep (x := p) hok (by rw [hpc]; rfl)
  cases hs : (Q.pushStep s.queue pc).2 with
  | none =>
    rw [hs] at hok'
    refine ⟨pop, ?_, fun c => (hpop c).trans (dequeue_goto (hpc ▸ nofun) nofun rfl)⟩
    rw [goto_push, goto_place]
    exact hok'
  | some pc' =>
    rw [hs] at hok'
    refine ⟨pop, ?_, fun c => (hpop c).trans (dequeue_goto (hpc ▸ nofun) nofun rfl)⟩
    have hplace : Function.update (fun q => (s.pc q).place) p (Pc.enqueue pc').place = fun q => (s.pc q).place :=
      Function.update_eq_self_iff.mpr (by rw [hpc]; rfl)
    rw [goto_push, goto_place, hplace]
    exact hok'

/-- A party that neither pushes nor is in the queue, before and after. -/
theorem goto_away (hpc : s.pc p = a) (hr : r.pc = s.pc) (ha : a.push = none) (hb : b.push = none) (ha' : a.place = .out)
    (hb' : b.place = .out) : (fun q => ((r.goto p b).pc q).push) = (fun q => (s.pc q).push) ∧
      (fun q => ((r.goto p b).pc q).place) = fun q => (s.pc q).place := by
  rw [goto_push, goto_place, hr, hb, hb']
  exact ⟨Function.update_eq_self_iff.mpr (by rw [hpc, ha]), Function.update_eq_self_iff.mpr (by rw [hpc, ha'])⟩

/-- The only `Pop` starts. -/
theorem QueueOk.start_pop (h : QueueOk L s) (hpc : s.pc p = a) (ha : a.plain) (hno : ∀ q pc, s.pc q ≠ .dequeue pc) :
    QueueOk L (s.goto p (.dequeue Q.popStart)) := by
  obtain ⟨pop, hok, hpop⟩ := h
  obtain rfl : pop = none := by
    cases pop with
    | none => rfl
    | some pc =>
      obtain ⟨q, hq⟩ := (hpop pc).mp rfl
      exact absurd hq (hno q pc)
  obtain ⟨h₁, h₂⟩ := goto_away (b := .dequeue Q.popStart) hpc rfl (Pc.push_of_plain ha) rfl (Pc.place_of_plain ha) rfl
  refine ⟨some Q.popStart, by rw [h₁, h₂]; exact L.pop hok, fun pc => ?_⟩
  constructor
  · rintro ⟨⟩
    exact ⟨p, goto_self⟩
  · rintro ⟨q, hq⟩
    by_cases hqp : q = p
    · rw [hqp, goto_self] at hq
      cases hq; rfl
    · rw [goto_of_ne hqp] at hq
      exact absurd hq (hno q pc)

/-- An access of the only `Pop`. -/
theorem QueueOk.popped {pc : Q.PopPc} (pop : Option Q.PopPc) (hpc : r.pc p = .dequeue pc)
    (honly : ∀ q c, r.pc q = .dequeue c → q = p)
    (hok : L.Ok r.queue (fun q => (r.pc q).push) pop fun q => (r.pc q).place) (hb : b.push = none)
    (hb' : b.place = .out)
    (hpop : ∀ c, pop = some c ↔ b = .dequeue c) : QueueOk L (r.goto p b) := by
  obtain ⟨h₁, h₂⟩ := goto_away hpc rfl rfl hb rfl hb'
  refine ⟨pop, by rw [h₁, h₂]; exact hok, fun c => (hpop c).trans ?_⟩
  constructor
  · rintro rfl
    exact ⟨p, goto_self⟩
  · rintro ⟨q, hq⟩
    by_cases hqp : q = p
    · rw [hqp, goto_self] at hq
      exact hq
    · rw [goto_of_ne hqp] at hq
      exact absurd (honly q c hq) hqp

/-- The `Pop` in progress, as the queue knows it. -/
theorem QueueOk.of_dequeue {pc : Q.PopPc} (h : QueueOk L s) (hpc : s.pc p = .dequeue pc) :
    L.Ok s.queue (fun q => (s.pc q).push) (some pc) fun q => (s.pc q).place := by
  obtain ⟨pop, hok, hpop⟩ := h
  obtain rfl := (hpop pc).mpr ⟨p, hpc⟩
  exact hok

/-- `Pop` returns only suspended coroutines. -/
theorem QueueOk.popsSuspended (h : QueueOk L s) : PopsSuspended s := by
  intro p pc m t hpc hpop
  have hplace : (s.pc t).place = .queued := (L.item (h.of_dequeue hpc) hpop).1
  cases ha : s.pc t <;> rw [ha] at hplace <;> first | rfl | cases hplace

/-! ## What an access may change -/

/-- **One party goes on**: what its new place and the changed words have to agree with. -/
theorem Inv.goto (h : Inv L kind s) (hpc : s.pc p = a) (hr : r.pc = s.pc)
    (hunique : b.owns → a.owns ∨ ∀ q, ¬(s.pc q).owns)
    (hlocked : b.owns → r.word.locked = true ∨ kind p = .pthread ∧ b.bare)
    (hkeep : ∀ q, q ≠ p → (s.pc q).owns → s.word.locked = true → r.word.locked = true)
    (hnative : kind p = .pthread → b.native → r.native = some p)
    (hnkeep : ∀ q, q ≠ p → s.native = some q → r.native = some q)
    (hfits : b.fits (kind p)) (hfree : ∀ first w, b = .casFree first w → w.locked = false)
    (hqueue : QueueOk L (r.goto p b)) : Inv L kind (r.goto p b) where
  unique x y hx hy := by
    have hall : ∀ x, x ≠ p → (s.pc x).owns → b.owns → False := by
      intro x hxp hx hb
      rcases hunique hb with ha | hno
      · exact hxp (h.unique x p hx (by rw [hpc]; exact ha))
      · exact hno x hx
    by_cases hxp : x = p <;> by_cases hyp : y = p
    · rw [hxp, hyp]
    · rw [hxp, goto_self] at hx
      rw [goto_of_ne hyp, hr] at hy
      exact (hall y hyp hy hx).elim
    · rw [goto_of_ne hxp, hr] at hx
      rw [hyp, goto_self] at hy
      exact (hall x hxp hx hy).elim
    · rw [goto_of_ne hxp, hr] at hx
      rw [goto_of_ne hyp, hr] at hy
      exact h.unique x y hx hy
  locked q hq := by
    by_cases hqp : q = p
    · rw [hqp, goto_self] at hq ⊢
      exact hlocked hq
    · rw [goto_of_ne hqp, hr] at hq ⊢
      exact (h.locked q hq).imp_left (hkeep q hqp hq)
  native q hk hq := by
    by_cases hqp : q = p
    · rw [hqp] at hk ⊢
      rw [hqp, goto_self] at hq
      exact hnative hk hq
    · rw [goto_of_ne hqp, hr] at hq
      exact hnkeep q hqp (h.native q hk hq)
  fits := forall_goto (C := fun q x => x.fits (kind q)) hr hfits h.fits
  free := forall_goto (C := fun _ x => ∀ first w, x = .casFree first w → w.locked = false) hr hfree h.free
  queue := hqueue

/-- An access that concerns neither the owners nor the waiter queue. -/
theorem Inv.quiet (h : Inv L kind s) (hpc : s.pc p = a) (hr : r.pc = s.pc) (hw : r.word.locked = s.word.locked)
    (hn : r.native = s.native) (hq : r.queue = s.queue) (ha : a.plain) (hb : b.plain) (hown : b.owns → a.owns)
    (hbare : kind p = .pthread → a.bare → b.bare) (hnative : kind p = .pthread → b.native → a.native)
    (hfits : a.fits (kind p) → b.fits (kind p)) (hfree : ∀ first w, b = .casFree first w → w.locked = false) :
    Inv L kind (r.goto p b) := by
  refine h.goto hpc hr (fun hb => Or.inl (hown hb)) (fun hb => ?_) (fun q _ _ hl => hw.trans hl) (fun hk hb => ?_)
    (fun q _ hq => hn.trans hq) (hfits (hpc ▸ h.fits p)) hfree (h.queue.quiet hpc hr hq ha hb)
  · rw [hw]
    refine (h.locked p (hpc ▸ hown hb)).imp_right fun ⟨hk, hba⟩ => ⟨hk, hbare hk (hpc ▸ hba)⟩
  · rw [hn]
    exact h.native p hk (hpc ▸ hnative hk hb)

/-- An access of a party that owns nothing. -/
theorem Inv.move (h : Inv L kind s) (hpc : s.pc p = a) (hr : r.pc = s.pc) (hw : r.word.locked = s.word.locked)
    (hn : r.native = s.native) (hq : r.queue = s.queue) (ha : a.outside) (hb : b.outside)
    (hfits : a.fits (kind p) → b.fits (kind p)) (hfree : ∀ first w, b = .casFree first w → w.locked = false) :
    Inv L kind (r.goto p b) := by
  simp only [Pc.outside, Bool.and_eq_true, Bool.not_eq_true'] at ha hb
  refine h.quiet hpc hr hw hn hq ha.1.1 hb.1.1 (fun hbo => ?_) (fun _ hba => ?_) (fun _ hbn => ?_) hfits hfree
  · rw [hb.1.2] at hbo; cases hbo
  · have hao : a.owns = true := by cases a <;> first | rfl | cases hba
    rw [ha.1.2] at hao; cases hao
  · rw [hb.2] at hbn; cases hbn

/-! ## Accesses that concern the owners -/

/-- **An exchange sets `LOCKED`**: nobody owns the mutex before. -/
theorem Inv.take {w : Word} (h : Inv L kind s) (hpc : s.pc p = a) (ha : a.plain) (hl : s.word.locked = false)
    (hno : ∀ q, kind q = .pthread → (s.pc q).bare ≠ true) (hk : kind p ≠ .pthread) (hw : w.locked = true)
    (hb : b = .holding ∨ b = .clearWaiters) : Inv L kind ({ s with word := w }.goto p b) := by
  have hnone : ∀ q, ¬(s.pc q).owns := by
    intro q hq
    rcases h.locked q hq with hq | ⟨hk, hq⟩
    · rw [hl] at hq; cases hq
    · exact hno q hk hq
  refine h.goto hpc rfl (fun _ => Or.inr hnone) (fun _ => Or.inl hw) (fun q _ _ _ => hw) (fun hk' => absurd hk' hk)
    (fun q _ hq => hq) ?_ (by rcases hb with rfl | rfl <;> nofun)
    (h.queue.quiet hpc rfl rfl ha (by rcases hb with rfl | rfl <;> rfl))
  rcases hb with rfl | rfl
  · rfl
  · simpa [Pc.fits] using hk

/-- An exchange of `state_` from 0 that leads to ownership, or elsewhere. -/
theorem Inv.tryLock {c : Pc Q} (h : Inv L kind s) (hpc : s.pc p = a) (ha : a.plain) (hk : kind p ≠ .pthread)
    (hno : s.word = ⟨false, false⟩ → ∀ q, kind q = .pthread → (s.pc q).bare ≠ true)
    (hb : b = .holding ∨ b = .clearWaiters) (hc : Inv L kind (s.goto p c)) : Inv L kind (s.tryLock p b c) := by
  unfold State.tryLock State.cas
  split
  case isTrue hw => exact h.take hpc ha (by rw [hw]) (hno hw) hk rfl hb
  case isFalse => exact hc

/-- **`LOCKED` is cleared** by the owner. -/
theorem Inv.release {w : Word} (h : Inv L kind s) (hpc : s.pc p = a) (ha : a.plain) (hown : a.owns) (hb : b.plain)
    (hb' : b.owns = false) (hnative : kind p = .pthread → b.native → a.native)
    (hfits : a.fits (kind p) → b.fits (kind p))
    (hfree : ∀ first w, b = .casFree first w → w.locked = false) :
    Inv L kind ({ s with word := w }.goto p b) := by
  refine h.goto hpc rfl (fun hbo => ?_) (fun hbo => ?_) (fun q hqp hq _ => ?_) (fun hk hbn => ?_) (fun q _ hq => hq)
    (hfits (hpc ▸ h.fits p)) hfree (h.queue.quiet hpc rfl rfl ha hb)
  · rw [hb'] at hbo; cases hbo
  · rw [hb'] at hbo; cases hbo
  · exact absurd (h.unique q p hq (by rw [hpc]; exact hown)) hqp
  · exact h.native p hk (hpc ▸ hnative hk hbn)

theorem Inv.locked_of_owns (h : Inv L kind s) (hpc : s.pc p = a) (ha : a.owns) (hb : a.bare = false) :
    s.word.locked = true := by
  rcases h.locked p (by rw [hpc]; exact ha) with hl | ⟨-, hbare⟩
  · exact hl
  · rw [hpc, hb] at hbare; cases hbare

theorem Inv.kind_ne (h : Inv L kind s) (hpc : s.pc p = a) (ha : a.fits .pthread = false) : kind p ≠ .pthread := by
  intro hk
  have hf := h.fits p
  rw [hk, hpc, ha] at hf
  cases hf

/-- A party other than the two of a hand-off is where it was. -/
theorem handed_of_ne {x y : P} {c : Pc Q} (hyp : y ≠ p) (hyx : y ≠ x) : ((r.goto x c).goto p b).pc y = r.pc y := by
  rw [goto_of_ne hyp, goto_of_ne hyx]

theorem handed_to {x : P} {c : Pc Q} (hxp : x ≠ p) : ((r.goto x c).goto p b).pc x = c := by
  rw [goto_of_ne hxp, goto_self]

/-- **`Pop` takes a coroutine out**: it is the owner from now on. -/
theorem Inv.hand {m : Q.Mem} {pc : Q.PopPc} {x : P} (h : Inv L kind s) (hpc : s.pc p = .dequeue pc)
    (hpop : Q.popStep s.queue pc = (m, .returned (some x))) :
    Inv L kind (({ s with queue := m }.goto x .granted).goto p (.submit x)) := by
  have hx : s.pc x = .suspended := h.queue.popsSuspended p pc m x hpc hpop
  have hxp : x ≠ p := by
    rintro rfl
    rw [hpc] at hx; cases hx
  have hown : ∀ y, (s.pc y).owns → y = p := fun y hy => h.unique y p hy (by rw [hpc]; rfl)
  have hkp : kind p ≠ .pthread := h.kind_ne hpc rfl
  have hkx : kind x ≠ .pthread := h.kind_ne hx rfl
  have hl : s.word.locked = true := h.locked_of_owns hpc rfl rfl
  have howner : ∀ y, ((({ s with queue := m }.goto x .granted).goto p (.submit x)).pc y).owns → y = x := by
    intro y hy
    by_contra hyx
    by_cases hyp : y = p
    · rw [hyp, goto_self] at hy; cases hy
    · rw [handed_of_ne hyp hyx] at hy
      exact hyp (hown y hy)
  refine ⟨fun y z hy hz => (howner y hy).trans (howner z hz).symm, fun _ _ => Or.inl hl, fun y hk hy => ?_, fun y => ?_,
    fun y first w hy => ?_, ?_⟩
  · have hyp : y ≠ p := fun e => hkp (e ▸ hk)
    have hyx : y ≠ x := fun e => hkx (e ▸ hk)
    rw [handed_of_ne hyp hyx] at hy
    exact h.native y hk hy
  · by_cases hyp : y = p
    · rw [hyp, goto_self]
      simpa [Pc.fits] using hkp
    by_cases hyx : y = x
    · rw [hyx, handed_to hxp]
      simpa [Pc.fits] using hkx
    · rw [handed_of_ne hyp hyx]
      exact h.fits y
  · by_cases hyp : y = p
    · rw [hyp, goto_self] at hy; cases hy
    by_cases hyx : y = x
    · rw [hyx, handed_to hxp] at hy; cases hy
    · rw [handed_of_ne hyp hyx] at hy
      exact h.free y first w hy
  · have hok := (L.item (h.queue.of_dequeue hpc) hpop).2
    refine QueueOk.popped none ((goto_of_ne hxp.symm).trans hpc) (fun y c hy => ?_) ?_ rfl rfl
      fun c => iff_of_false nofun nofun
    · have hyx : y ≠ x := by
        rintro rfl
        rw [goto_self] at hy; cases hy
      rw [goto_of_ne hyx] at hy
      exact hown y (by rw [show s.pc y = _ from hy]; rfl)
    · rw [goto_push, goto_place]
      have hpush : Function.update (fun q => (s.pc q).push) x (Pc.granted : Pc Q).push = fun q => (s.pc q).push :=
        Function.update_eq_self_iff.mpr (by rw [hx]; rfl)
      rw [hpush]
      exact hok

theorem Inv.dequeue {pc : Q.PopPc} (h : Inv L kind s) (hpc : s.pc p = .dequeue pc) : Inv L kind (s.dequeue p pc) := by
  have hl : s.word.locked = true := h.locked_of_owns hpc rfl rfl
  have hk : kind p ≠ .pthread := h.kind_ne hpc rfl
  have honly : ∀ q c, s.pc q = .dequeue c → q = p :=
    fun q c hq => h.unique q p (by rw [hq]; rfl) (by rw [hpc]; rfl)
  unfold State.dequeue
  split
  case h_1 m pc' hpop =>
    refine h.goto hpc rfl (fun _ => Or.inl rfl) (fun _ => Or.inl hl) (fun _ _ _ hl => hl) (fun hk' => absurd hk' hk)
      (fun _ _ hq => hq) (by simpa [Pc.fits] using hk) nofun ?_
    refine QueueOk.popped _ hpc honly (L.running (h.queue.of_dequeue hpc) hpop) rfl rfl fun c => ?_
    rw [Option.some.injEq, Pc.dequeue.injEq]
  case h_2 m hpop =>
    refine h.goto hpc rfl (fun _ => Or.inl rfl) (fun _ => Or.inl hl) (fun _ _ _ hl => hl) (fun hk' => absurd hk' hk)
      (fun _ _ hq => hq) (by simpa [Pc.fits] using hk) nofun ?_
    exact QueueOk.popped _ hpc honly (L.null (h.queue.of_dequeue hpc) hpop) rfl rfl fun c => iff_of_false nofun nofun
  case h_3 m x hpop => exact h.hand hpc hpop

/-- The coroutine that was taken out is resumed. -/
theorem Inv.submit {x : P} (h : Inv L kind s) (hp : Parked s) (hpc : s.pc p = .submit x) :
    Inv L kind ((s.goto x .holding).goto p .idle) := by
  have hx : s.pc x = .granted := hp.given p x hpc
  have hpx : p ≠ x := by
    rintro rfl
    rw [hpc] at hx; cases hx
  have hi : Inv L kind (s.goto x .holding) :=
    h.quiet hx rfl rfl rfl rfl rfl rfl (fun _ => rfl) (fun _ hb => hb) (fun hk => absurd hk (h.kind_ne hx rfl))
      (fun _ => rfl) nofun
  exact hi.quiet ((goto_of_ne hpx).trans hpc) rfl rfl rfl rfl rfl rfl nofun (fun _ hb => hb) nofun (fun _ => rfl) nofun

/-- A sleeping bthread goes on. -/
theorem Inv.rouse (h : Inv L kind s) (hpc : s.pc p = .asleep) : Inv L kind (s.rouse p) :=
  h.move hpc rfl rfl rfl rfl rfl rfl (fun hf => hf) nofun

/-- `Wake(1)`, and the party goes on. -/
theorem Inv.wake (h : Inv L kind s) (hp : Parked s) (hpc : s.pc p = .wake) :
    Inv L kind (s.wakeFirst.goto p (if kind p = .pthread then .nativeUnlock else .subPending)) := by
  have hi : Inv L kind s.wakeFirst ∧ s.wakeFirst.pc p = .wake := by
    rcases hp.wakeFirst_cases with ⟨-, hw⟩ | ⟨q, hq, hw⟩
    · rw [hw]; exact ⟨h, hpc⟩
    · have hpq : p ≠ q := by
        rintro rfl
        rw [hpc] at hq; cases hq
      rw [hw]
      exact ⟨h.rouse hq, (rouse_of_ne hpq).trans hpc⟩
  split
  case isTrue hk =>
    exact hi.1.quiet hi.2 rfl rfl rfl rfl rfl rfl nofun (fun _ hb => hb) (fun _ _ => rfl)
      (fun _ => by simp [Pc.fits, hk]) nofun
  case isFalse hk =>
    exact hi.1.quiet hi.2 rfl rfl rfl rfl rfl rfl nofun (fun _ hb => hb) (fun hk' => absurd hk' hk)
      (fun _ => by simp [Pc.fits, hk]) nofun

theorem Inv.pthread (h : Inv L kind s) (hpc : s.pc p = a) (ha : ∀ k, a.fits k = decide (k = .pthread)) :
    kind p = .pthread := by
  have hf := h.fits p
  rw [hpc, ha] at hf
  exact of_decide_eq_true hf

omit [DecidableEq P] in
theorem Pc.native_of_bare (h : a.bare) : a.native := by cases a <;> first | rfl | cases h

/-- Nobody owns the mutex while `LOCKED` is clear and no pthread but `p` has the native mutex. -/
theorem Inv.no_owner (h : Inv L kind s) (hpc : s.pc p = a) (ha : a.owns = false) (hl : s.word.locked = false)
    (hn : ∀ q, s.native = some q → q = p) (q : P) : ¬(s.pc q).owns := by
  intro hq
  rcases h.locked q hq with hl' | ⟨hk, hb⟩
  · rw [hl] at hl'; cases hl'
  · obtain rfl := hn q (h.native q hk (Pc.native_of_bare hb))
    rw [hpc, ha] at hq; cases hq

/-- **`fetch_or` sets `LOCKED`**, which was clear. -/
theorem Inv.fetchOr (h : Inv L kind s) (hpc : s.pc p = .fetchOr) (hok : ¬Crossed kind s (.party p)) :
    Inv L kind ({ s with word := { s.word with locked := true } }.goto p .holding) := by
  have hl : s.word.locked = false := by
    rw [← Bool.not_eq_true]
    intro hl
    exact hok (by simpa only [Crossed, hpc] using hl)
  have hn : s.native = some p := h.native p (h.pthread hpc fun _ => rfl) (by rw [hpc]; rfl)
  have hnone := h.no_owner hpc rfl hl fun q hq => Option.some.inj (hq.symm.trans hn)
  exact h.goto hpc rfl (fun _ => Or.inr hnone) (fun _ => Or.inl rfl) (fun _ _ _ _ => rfl) (fun _ _ => hn)
    (fun _ _ hq => hq) rfl nofun (h.queue.quiet hpc rfl rfl rfl rfl)

/-- **A pthread's `try_lock`** takes the native mutex while `LOCKED` is clear. -/
theorem Inv.nativeTry (h : Inv L kind s) (hpc : s.pc p = .nativeTry) (hok : ¬Crossed kind s (.party p))
    (hn : s.native = none) : Inv L kind ({ s with native := some p }.goto p .nativeOnly) := by
  have hl : s.word.locked = false := by
    rw [← Bool.not_eq_true]
    intro hl
    exact hok (by simpa only [Crossed, hpc] using ⟨hn, hl⟩)
  have hk := h.pthread hpc fun _ => rfl
  have hnone := h.no_owner hpc rfl hl fun q hq => by rw [hn] at hq; cases hq
  refine h.goto hpc rfl (fun _ => Or.inr hnone) (fun _ => Or.inr ⟨hk, rfl⟩) (fun _ _ _ hl => hl) (fun _ _ => rfl)
    (fun q _ hq => ?_) (by simp [Pc.fits, hk]) nofun (h.queue.quiet hpc rfl rfl rfl rfl)
  rw [hn] at hq; cases hq

/-! ## Every step -/

omit [DecidableEq P] in
/-- An access that sets `LOCKED` is taken while no pthread owns the mutex by its `try_lock`. -/
theorem no_bare (hok : ¬Crossed kind s (.party p)) (hpc : s.pc p = a) (ht : s.takes a = true) (q : P)
    (hk : kind q = .pthread) : (s.pc q).bare ≠ true := by
  intro hb
  apply hok
  simp only [Crossed, hpc]
  cases a <;> first | cases ht | exact ⟨ht, q, hk, hb⟩

attribute [local simp] Pc.owns Pc.bare Pc.native Pc.fits

/-- `lock_bthread`. -/
theorem Inv.lockBthread_access (h : Inv L kind s) (hok : ¬Crossed kind s (.party p))
    (hpart : a.part = .lockBthread) (hpc : s.pc p = a) (hst : s.access (kind p) p a = some t) : Inv L kind t := by
  have hno := no_bare hok hpc
  have hwk : a.fits .pthread = false → kind p ≠ .pthread := h.kind_ne hpc
  cases a with
  | fastLoad | loadButex =>
    cases hst
    split <;> exact h.move hpc rfl rfl rfl rfl rfl rfl (fun hf => hf) (by simp)
  | fastCas =>
    cases hst
    exact h.tryLock hpc rfl (hwk rfl) (fun hw => hno (by simpa [State.takes] using hw)) (Or.inl rfl)
      (h.move hpc rfl rfl rfl rfl rfl rfl (fun hf => hf) (by simp))
  | createButex | generation first =>
    cases hst
    exact h.move hpc rfl rfl rfl rfl rfl rfl (fun hf => hf) (by simp)
  | load first =>
    cases hst
    split
    case isTrue hl =>
      exact h.move hpc rfl rfl rfl rfl rfl rfl (fun hf => hf) (by rintro _ _ ⟨⟩; exact hl)
    case isFalse =>
      split <;> exact h.move hpc rfl rfl rfl rfl rfl rfl (fun hf => hf) (by simp)
  | casFree first w =>
    cases hst
    unfold State.cas
    split
    case isTrue hw =>
      have hl : s.word.locked = false := by rw [hw]; exact h.free p first w hpc
      exact h.take hpc rfl hl (hno (by simpa [State.takes] using hw)) (hwk rfl) rfl (Or.inl rfl)
    case isFalse => exact h.move hpc rfl rfl rfl rfl rfl rfl (fun hf => hf) (by simp)
  | casWaiters first w =>
    cases hst
    unfold State.cas
    split
    case isTrue hw =>
      exact h.move hpc rfl (by rw [← hw]) rfl rfl rfl rfl (fun hf => hf) (by simp)
    case isFalse => exact h.move hpc rfl rfl rfl rfl rfl rfl (fun hf => hf) (by simp)
  | recheck first =>
    cases hst
    split
    case isTrue hl =>
      exact h.move hpc rfl rfl rfl rfl rfl rfl (fun hf => hf) (by rintro _ _ ⟨⟩; exact hl)
    case isFalse => exact h.move hpc rfl rfl rfl rfl rfl rfl (fun hf => hf) (by simp)
  | wait first g =>
    cases hst
    split <;> exact h.move hpc rfl rfl rfl rfl rfl rfl (fun hf => hf) (by simp)
  | _ => cases hpart

/-- `lock_async`, and `try_lock` but for the native mutex. -/
theorem Inv.lockAsync_access (h : Inv L kind s) (hok : ¬Crossed kind s (.party p))
    (hpart : a.part = .lockAsync) (hpc : s.pc p = a) (hst : s.access (kind p) p a = some t) : Inv L kind t := by
  have hno := no_bare hok hpc
  have hwk : a.fits .pthread = false → kind p ≠ .pthread := h.kind_ne hpc
  cases a with
  | tryCas retry =>
    cases hst
    refine h.tryLock hpc rfl (hwk rfl) (fun hw => hno (by simpa [State.takes] using hw)) (Or.inl rfl) ?_
    split
    · exact h.move hpc rfl rfl rfl rfl rfl rfl (fun hf => hf) (by simp)
    · exact h.move hpc rfl rfl rfl rfl rfl rfl (fun _ => rfl) (by simp)
  | ready =>
    cases hst
    exact h.tryLock hpc rfl (hwk rfl) (fun hw => hno (by simpa [State.takes] using hw)) (Or.inl rfl)
      (h.move hpc rfl rfl rfl rfl rfl rfl (fun hf => hf) (by simp))
  | suspendTry =>
    cases hst
    exact h.tryLock hpc rfl (hwk rfl) (fun hw => hno (by simpa [State.takes] using hw)) (Or.inl rfl)
      (h.move hpc rfl rfl rfl rfl rfl rfl (fun hf => hf) (by simp))
  | setWaiters =>
    cases hst
    exact h.move hpc rfl rfl rfl rfl rfl rfl (fun hf => hf) (by simp)
  | retryTry =>
    cases hst
    refine h.tryLock hpc rfl (hwk rfl) (fun hw => hno (by simpa [State.takes] using hw)) (Or.inr rfl) ?_
    refine h.goto hpc rfl (by simp) (by simp) (fun _ _ _ hl => hl) (by simp) (fun _ _ hq => hq) ?_ (by simp)
      (h.queue.start_push hpc rfl)
    simpa [Pc.fits] using hwk rfl
  | clearWaiters =>
    cases hst
    exact h.quiet hpc rfl rfl rfl rfl rfl rfl (fun _ => rfl) (fun _ hb => hb) (fun hk => absurd hk (hwk rfl))
      (fun _ => rfl) (by simp)
  | enqueue pc =>
    cases hst
    refine h.goto hpc rfl ?_ ?_ (fun _ _ _ hl => hl) ?_ (fun _ _ hq => hq) ?_ ?_ (h.queue.pushStep hpc)
    · split <;> simp
    · split <;> simp
    · split <;> simp
    · have hk := hwk rfl
      split <;> simpa [Pc.fits] using hk
    · split <;> simp
  | _ => cases hpart

/-- The native mutex, and the `fetch_or` of `lock_pthread`. -/
theorem Inv.native_access (h : Inv L kind s) (hok : ¬Crossed kind s (.party p))
    (hpart : a.part = .native) (hpc : s.pc p = a) (hst : s.access (kind p) p a = some t) : Inv L kind t := by
  cases a with
  | nativeLock =>
    simp only [State.access, Option.ite_none_right_eq_some, Option.some.injEq, Option.isNone_iff_eq_none] at hst
    obtain ⟨hn, rfl⟩ := hst
    refine h.goto hpc rfl (by simp) (by simp) (fun _ _ _ hl => hl) (fun _ _ => rfl) (fun q _ hq => ?_) ?_ (by simp)
      (h.queue.quiet hpc rfl rfl rfl rfl)
    · rw [hn] at hq; cases hq
    · have hf := h.fits p
      rw [hpc] at hf
      exact hf
  | fetchOr =>
    cases hst
    exact h.fetchOr hpc hok
  | nativeTry =>
    cases hst
    split
    case isTrue hn => exact h.nativeTry hpc hok (Option.isNone_iff_eq_none.mp hn)
    case isFalse => exact h.move hpc rfl rfl rfl rfl rfl rfl (fun _ => rfl) (by simp)
  | nativeUnlock =>
    cases hst
    have hn : s.native = some p := h.native p (h.pthread hpc fun _ => rfl) (by rw [hpc]; rfl)
    refine h.goto hpc rfl (by simp) (by simp) (fun _ _ _ hl => hl) (by simp) (fun q hqp hq => ?_) rfl (by simp)
      (h.queue.quiet hpc rfl rfl rfl rfl)
    rw [hn] at hq
    exact absurd (Option.some.inj hq).symm hqp
  | _ => cases hpart

/-- `unlock`, up to its `fetch_and` or its `Submit`. -/
theorem Inv.unlock_access (h : Inv L kind s) (hp : Parked s) (hpart : a.part = .unlock) (hpc : s.pc p = a)
    (hst : s.access (kind p) p a = some t) : Inv L kind t := by
  have hwk : a.fits .pthread = false → kind p ≠ .pthread := h.kind_ne hpc
  cases a with
  | dequeue pc =>
    cases hst
    exact h.dequeue hpc
  | submit x =>
    cases hst
    exact h.submit hp hpc
  | loadPending =>
    cases hst
    split
    · exact h.quiet hpc rfl rfl rfl rfl rfl rfl (fun _ => rfl) (fun _ hb => hb) (by simp) (fun hf => hf) (by simp)
    · exact h.quiet hpc rfl rfl rfl rfl rfl rfl (fun _ => rfl) (by simp) (fun hk => absurd hk (hwk rfl)) (fun _ => rfl)
        (by simp)
  | clearOnly =>
    cases hst
    exact h.release hpc rfl rfl rfl rfl (by simp) (fun _ => rfl) (by simp)
  | clear =>
    cases hst
    by_cases hk : kind p = .pthread
    · split <;> exact h.release hpc rfl rfl rfl rfl (fun _ _ => rfl) (by simp [hk]) (by simp)
    · split <;> exact h.release hpc rfl rfl rfl rfl (fun hk' => absurd hk' hk) (by simp [hk]) (by simp)
  | _ => cases hpart

/-- What an unlock does after its `fetch_and`. -/
theorem Inv.wake_access (h : Inv L kind s) (hp : Parked s) (hpart : a.part = .wake) (hpc : s.pc p = a)
    (hst : s.access (kind p) p a = some t) : Inv L kind t := by
  have hwk : a.fits .pthread = false → kind p ≠ .pthread := h.kind_ne hpc
  cases a with
  | addPending =>
    cases hst
    exact h.quiet hpc rfl rfl rfl rfl rfl rfl (by simp) (by simp) (fun hk => absurd hk (hwk rfl)) (fun _ => rfl)
      (by simp)
  | getButex =>
    cases hst
    split
    · exact h.quiet hpc rfl rfl rfl rfl rfl rfl (by simp) (by simp) (fun _ hb => hb) (fun _ => rfl) (by simp)
    split
    case isTrue hk =>
      exact h.quiet hpc rfl rfl rfl rfl rfl rfl (by simp) (by simp) (fun _ _ => rfl) (by simp [hk]) (by simp)
    case isFalse hk =>
      exact h.quiet hpc rfl rfl rfl rfl rfl rfl (by simp) (by simp) (by simp) (by simp [hk]) (by simp)
  | loadValue | storeValue v =>
    cases hst
    exact h.quiet hpc rfl rfl rfl rfl rfl rfl (by simp) (by simp) (fun _ hb => hb) (fun _ => rfl) (by simp)
  | wake =>
    cases hst
    exact h.wake hp hpc
  | subPending =>
    cases hst
    exact h.move hpc rfl rfl rfl rfl rfl rfl (fun _ => rfl) (by simp)
  | _ => cases hpart

/-- **Every access** of parties that do not cross keeps one owner at most. -/
theorem inv_access (h : Inv L kind s) (hp : Parked s) (hok : ¬Crossed kind s (.party p)) (hpc : s.pc p = a)
    (hst : s.access (kind p) p a = some t) : Inv L kind t := by
  cases hpart : a.part with
  | away => rw [access_of_away hpart] at hst; cases hst
  | lockBthread => exact h.lockBthread_access hok hpart hpc hst
  | lockAsync => exact h.lockAsync_access hok hpart hpc hst
  | native => exact h.native_access hok hpart hpc hst
  | unlock => exact h.unlock_access hp hpart hpc hst
  | wake => exact h.wake_access hp hpart hpc hst

/-- **Every step** of parties that do not cross keeps one owner at most. -/
theorem inv_step {l : Label P} (h : Inv L kind s) (hp : Parked s) (hok : ¬Crossed kind s l)
    (hst : step kind s l = some t) : Inv L kind t := by
  rcases step_cases hst with ⟨p, b, hpc, rfl, hb⟩ | ⟨p, hpc, rfl⟩ | ⟨p, rfl, hst⟩ | ⟨p, hpc, rfl⟩
  case inl =>
    have hall : b.outside ∧ b.fits (kind p) ∧ ∀ first w, b ≠ .casFree first w := by
      rcases hb with ⟨rfl, -⟩ | rfl | ⟨hk, rfl | rfl⟩
      · unfold lockStart
        split
        · exact ⟨rfl, decide_eq_true ‹_›, nofun⟩
        · exact ⟨rfl, decide_eq_true ‹_›, nofun⟩
      · unfold tryStart
        split
        · exact ⟨rfl, decide_eq_true ‹_›, nofun⟩
        · exact ⟨rfl, decide_eq_true ‹_›, nofun⟩
      · rw [hk]; exact ⟨rfl, rfl, nofun⟩
      · rw [hk]; exact ⟨rfl, rfl, nofun⟩
    exact h.move hpc rfl rfl rfl rfl rfl hall.1 (fun _ => hall.2.1) fun first w e => absurd e (hall.2.2 first w)
  case inr.inl =>
    unfold unlockStart
    split
    case isTrue hk =>
      rcases hpc with hpc | hpc
      · exact h.quiet hpc rfl rfl rfl rfl rfl rfl (fun _ => rfl) nofun (fun _ _ => rfl) (fun _ => rfl) nofun
      · exact h.quiet hpc rfl rfl rfl rfl rfl rfl (fun _ => rfl) (fun _ _ => rfl) (fun _ _ => rfl) (fun _ => rfl) nofun
    case isFalse hk =>
      have hpc : s.pc p = .holding := hpc.resolve_right fun hpc => hk (h.pthread hpc fun _ => rfl)
      have hl := h.locked_of_owns hpc rfl rfl
      have hno : ∀ q pc, s.pc q ≠ .dequeue pc := by
        intro q pc hq
        obtain rfl := h.unique q p (by rw [hq]; rfl) (by rw [hpc]; rfl)
        rw [hpc] at hq; cases hq
      exact h.goto hpc rfl (fun _ => Or.inl rfl) (fun _ => Or.inl hl) (fun _ _ _ hl => hl) (fun hk' => absurd hk' hk)
        (fun _ _ hq => hq) (decide_eq_true hk) nofun (h.queue.start_pop hpc rfl hno)
  case inr.inr.inl => exact inv_access h hp hok rfl hst
  case inr.inr.inr => exact h.rouse hpc

/-- Without pthreads nobody crosses. -/
theorem Inv.not_crossed {l : Label P} (h : Inv L kind s) (hk : ∀ p, kind p ≠ .pthread) : ¬Crossed kind s l := by
  intro hc
  cases l with
  | party p =>
    simp only [Crossed] at hc
    split at hc
    case h_1 hpc => exact hk p (h.pthread hpc fun _ => rfl)
    case h_2 hpc => exact hk p (h.pthread hpc fun _ => rfl)
    case h_3 =>
      obtain ⟨-, q, hq, -⟩ := hc
      exact hk q hq
  | _ => exact hc

end Step

/-! ## Runs -/

section Runs

variable {kind : P → Kind}

theorem inv_new (L : Lawful Q) : Inv L kind (State.new Q) where
  unique _ _ h := nomatch h
  locked _ h := nomatch h
  native _ _ h := nomatch h
  fits _ := rfl
  free _ _ _ h := nomatch h
  queue := ⟨none, L.empty, fun _ => iff_of_false nofun fun ⟨_, h⟩ => nomatch h⟩

/-- **One owner at most**, in any run in which the two sides do not cross. -/
theorem reach_inv (L : Lawful Q) (kind : P → Kind) {s : State Q}
    (hs : Reach (system Q kind) (fun s l => ¬Crossed kind s l) s) : Parked s ∧ Inv L kind s := by
  refine hs.invariant (I := fun s => Parked s ∧ Inv L kind s) ?_ ?_
  · rintro _ rfl
    exact ⟨parked_new, inv_new L⟩
  · rintro s t l ⟨hp, hi⟩ hok hst
    exact ⟨parked_step hp hi.queue.popsSuspended hst, inv_step hi hp hok hst⟩

/-- **Bthreads and coroutines exclude each other**, in every run without pthreads, and `LOCKED` is set while somebody
owns the mutex. -/
theorem worker_side_exclusive (kind : P → Kind) (hk : ∀ p, kind p ≠ .pthread) (s : State (mpsc P))
    (hs : Reachable (system (mpsc P) kind) s) :
    (∀ p q, (s.pc p).owns → (s.pc q).owns → p = q) ∧ ∀ p, (s.pc p).owns → s.word.locked = true := by
  have hi : Parked s ∧ Inv lawful_mpsc kind s := by
    refine hs.invariant (I := fun s => Parked s ∧ Inv lawful_mpsc kind s) ?_ ?_
    · rintro _ rfl
      exact ⟨parked_new, inv_new _⟩
    · rintro s t l ⟨hp, hi⟩ - hst
      exact ⟨parked_step hp hi.queue.popsSuspended hst, inv_step hi hp (hi.not_crossed hk) hst⟩
  refine ⟨hi.2.unique, fun p hp => ?_⟩
  rcases hi.2.locked p hp with hl | ⟨hkp, -⟩
  · exact hl
  · exact absurd hkp (hk p)

/-- A bthread hands the mutex to a coroutine. -/
theorem worker_side_exclusive_handed : ∃ s : State (mpsc Bool), (s.pc true).owns ∧ s.word.locked = true ∧
    (∀ p q, (s.pc p).owns → (s.pc q).owns → p = q) ∧ ∀ p, (s.pc p).owns → s.word.locked = true :=
  ⟨_, rfl, rfl, worker_side_exclusive (fun p => if p then .coroutine else .bthread) (by decide) _
    (reachable_exec (.init rfl) (show exec (system (mpsc Bool) fun p => if p then .coroutine else .bthread) _
      (.lock false :: List.replicate 2 (.party false) ++ .lockAsync true :: List.replicate 7 (.party true) ++
        .unlock false :: List.replicate 5 (.party false)) = some _ from rfl))⟩

/-- **Pthreads and bthreads exclude each other**, in any run in which the two sides do not cross. -/
theorem excluded (kind : P → Kind) (s : State (mpsc P))
    (hs : Reach (system (mpsc P) kind) (fun s l => ¬Crossed kind s l) s) (p b : P) (hp : kind p = .pthread)
    (hb : kind b = .bthread) : ¬((s.pc p).owns ∧ (s.pc b).owns) := by
  rintro ⟨hpo, hbo⟩
  obtain rfl := (reach_inv lawful_mpsc kind hs).2.unique p b hpo hbo
  rw [hp] at hb; cases hb

/-- A bthread and a pthread. -/
def side (p : Bool) : Kind := if p then .pthread else .bthread

/-- A pthread locks the mutex after a bthread has unlocked it. -/
theorem excluded_after_unlock : ∃ s : State (mpsc Bool), (s.pc true).owns ∧
    ¬((s.pc true).owns ∧ (s.pc false).owns) := by
  -- nobody is in a `try_lock` of a pthread, and `LOCKED` is clear when a pthread acts
  have himp : ∀ (s : State (mpsc Bool)) l, (∀ q, side q = .pthread → (s.pc q).bare = false) ∧
      (s.word.locked = true → ∀ p, l = .party p → (s.pc p).fits .bthread = true) → ¬Crossed side s l := by
    rintro s l ⟨hbare, hfits⟩ hc
    cases l with
    | party p =>
      simp only [Crossed] at hc
      split at hc
      case h_1 hpc => exact absurd (hfits hc p rfl) (by rw [hpc]; exact Bool.false_ne_true)
      case h_2 hpc => exact absurd (hfits hc.2 p rfl) (by rw [hpc]; exact Bool.false_ne_true)
      case h_3 =>
        obtain ⟨-, q, hq, hb⟩ := hc
        rw [hbare q hq] at hb; cases hb
    | _ => exact hc
  exact ⟨_, rfl, excluded side _ (reach_exec himp (.init rfl) (show exec (system (mpsc Bool) side) _
    (.lock false :: List.replicate 2 (.party false) ++ .unlock false :: List.replicate 3 (.party false) ++
      .lock true :: List.replicate 2 (.party true)) = some _ from rfl) (by decide)) true false rfl rfl⟩

end Runs

/-! ## A bthread and a pthread that both own the mutex -/

/-- The bthread has set `LOCKED`; the pthread locks the native mutex and sets `LOCKED` once more. -/
def crossedRun : List (Label Bool) :=
  .lock false :: List.replicate 2 (.party false) ++ .lock true :: List.replicate 2 (.party true)

/-- **Both own the mutex.** -/
theorem crossed_owners : ∃ s, exec (system (mpsc Bool) side) (.new (mpsc Bool)) crossedRun = some s ∧
    Reachable (system (mpsc Bool) side) s ∧ side true = .pthread ∧ side false = .bthread ∧
    s.pc true = .holding ∧ s.pc false = .holding := by
  exact ⟨_, rfl, reachable_exec (.init rfl) (show exec _ _ crossedRun = some _ from rfl), rfl, rfl, rfl, rfl⟩

end Cothread.Mutex
