import Cothread.Sync.Mutex

/-!
# `Mutex`: sleeping bthreads and hand-offs

`Parked` says that the wait queue of the butex holds exactly the sleeping bthreads, and that a coroutine that an
`unlock` is about to submit has been taken out of the waiter queue by this `unlock` only. It is kept by every step in
which `Pop` returns no party but a suspended coroutine (`parked_step`). Most accesses leave the generation and
`HAS_WAITERS` alone; `moved_access` says of all of them at once what they do.
-/

namespace Cothread.Mutex

open Run

universe u

variable {P : Type u} {Q : WaiterQueue P}

/-- The sleepers and the hand-offs. -/
structure Parked (s : State Q) : Prop where
  nodup : s.sleepers.Nodup
  asleep : ∀ q, q ∈ s.sleepers ↔ s.pc q = .asleep
  given : ∀ p t, s.pc p = .submit t → s.pc t = .granted
  giver : ∀ p q t, s.pc p = .submit t → s.pc q = .submit t → p = q

/-- `Pop` returns only suspended coroutines. -/
def PopsSuspended (s : State Q) : Prop :=
  ∀ p pc m t, s.pc p = .dequeue pc → Q.popStep s.queue pc = (m, .returned (some t)) → s.pc t = .suspended

/-- Where a party is in neither queue of waiters, and hands nothing over. -/
def Pc.awake : Pc Q → Bool
  | .asleep | .granted | .submit _ => false
  | _ => true

/-- The part of the program that an access belongs to. -/
inductive Part
  | away  -- none: no call, or the party waits
  | lockBthread
  | lockAsync  -- and `try_lock`
  | native  -- the native mutex, and the `fetch_or` of `lock_pthread`
  | unlock
  | wake  -- `unlock`, after its `fetch_and`

def Pc.part : Pc Q → Part
  | .idle | .holding | .nativeOnly | .asleep | .suspended | .granted => .away
  | .fastLoad | .fastCas | .loadButex | .createButex | .load _ | .casFree .. | .casWaiters .. | .recheck _
  | .generation _ | .wait .. => .lockBthread
  | .tryCas _ | .ready | .suspendTry | .setWaiters | .retryTry | .clearWaiters | .enqueue _ => .lockAsync
  | .nativeLock | .fetchOr | .nativeTry | .nativeUnlock => .native
  | .dequeue _ | .submit _ | .loadPending | .clearOnly | .clear => .unlock
  | .addPending | .getButex | .loadValue | .storeValue _ | .wake | .subPending => .wake

variable [DecidableEq P] {kind : P → Kind} {s r t : State Q} {p q : P} {a b : Pc Q}

theorem access_of_away {k : Kind} (h : a.part = .away) : s.access k p a = none := by cases a <;> first | rfl | cases h

@[simp] theorem goto_self : (r.goto p b).pc p = b := Function.update_self ..

theorem goto_of_ne (h : q ≠ p) : (r.goto p b).pc q = r.pc q := Function.update_of_ne h ..

/-- What holds of every party where it was, and of `p` where it goes. -/
theorem forall_goto {C : P → Pc Q → Prop} (hr : r.pc = s.pc) (hb : C p b) (hs : ∀ q, C q (s.pc q)) (q : P) :
    C q ((r.goto p b).pc q) := by
  apply (Function.forall_update_iff r.pc C).mpr
  rw [hr]
  exact ⟨hb, fun q _ => hs q⟩

@[simp] theorem goto_word : (r.goto p b).word = r.word := rfl

@[simp] theorem goto_native : (r.goto p b).native = r.native := rfl

@[simp] theorem goto_queue : (r.goto p b).queue = r.queue := rfl

@[simp] theorem goto_sleepers : (r.goto p b).sleepers = r.sleepers := rfl

/-- A party that was handed nothing goes on: the sleepers are as before, up to itself. -/
theorem Parked.goto (h : Parked s) (hpc : s.pc p = a) (hr : r.pc = s.pc) (hnd : r.sleepers.Nodup)
    (hmem : ∀ q, q ∈ r.sleepers ↔ (if q = p then b = .asleep else q ∈ s.sleepers)) (ha : a ≠ .granted)
    (hb : ∀ t, b ≠ .submit t) : Parked (r.goto p b) where
  nodup := hnd
  asleep q := by
    rw [goto_sleepers, hmem]
    by_cases hq : q = p
    · rw [hq, goto_self, if_pos rfl]
    · rw [goto_of_ne hq, hr, if_neg hq, h.asleep]
  given q t hq := by
    have hqp : q ≠ p := by
      rintro rfl
      exact hb t (goto_self.symm.trans hq)
    rw [goto_of_ne hqp, hr] at hq
    have htp : t ≠ p := by
      rintro rfl
      exact ha (hpc.symm.trans (h.given q t hq))
    rw [goto_of_ne htp, hr]
    exact h.given q t hq
  giver x y t hx hy := by
    have hne : ∀ x, (r.goto p b).pc x = .submit t → x ≠ p := by
      rintro x hx rfl
      exact hb t (goto_self.symm.trans hx)
    rw [goto_of_ne (hne x hx), hr] at hx
    rw [goto_of_ne (hne y hy), hr] at hy
    exact h.giver x y t hx hy

/-- A party goes on, awake before and after. -/
theorem Parked.move (h : Parked s) (hpc : s.pc p = a) (hr : r.pc = s.pc) (hs : r.sleepers = s.sleepers)
    (ha : a.awake) (hb : b.awake) : Parked (r.goto p b) := by
  refine h.goto hpc hr (hs ▸ h.nodup) (fun q => ?_) (by rintro rfl; cases ha) (by rintro t rfl; cases hb)
  rw [hs]
  split
  case isTrue hq =>
    rw [hq, h.asleep, hpc]
    exact iff_of_false (by rintro rfl; cases ha) (by rintro rfl; cases hb)
  case isFalse => exact Iff.rfl

/-- `Wait` puts the bthread to sleep. -/
theorem Parked.sleep {l : List P} (h : Parked s) (hpc : s.pc p = a) (ha : a.awake) (hl : l.Perm (p :: s.sleepers)) :
    Parked ({ s with sleepers := l }.goto p .asleep) := by
  have hp : p ∉ s.sleepers := by
    rw [h.asleep, hpc]
    rintro rfl; cases ha
  refine h.goto hpc rfl (hl.nodup_iff.mpr (List.nodup_cons.mpr ⟨hp, h.nodup⟩)) (fun q => ?_) (by rintro rfl; cases ha)
    nofun
  rw [hl.mem_iff, List.mem_cons]
  split
  case isTrue hq => exact iff_of_true (Or.inl hq) rfl
  case isFalse hq => simp [hq]

/-- A sleeping bthread goes on. -/
theorem Parked.rouse (h : Parked s) (hpc : s.pc p = .asleep) : Parked (s.rouse p) := by
  refine h.goto hpc rfl (h.nodup.erase p) (fun q => ?_) nofun nofun
  rw [h.nodup.mem_erase_iff]
  split
  case isTrue hq => exact iff_of_false (fun hm => hm.1 hq) nofun
  case isFalse hq => simp [hq]

/-- `Wake(1)` pops nobody, or a sleeping bthread. -/
theorem Parked.wakeFirst_cases (h : Parked s) :
    s.sleepers = [] ∧ s.wakeFirst = s ∨ ∃ q, s.pc q = .asleep ∧ s.wakeFirst = s.rouse q := by
  unfold State.wakeFirst
  split
  case h_1 hs => exact Or.inl ⟨hs, rfl⟩
  case h_2 q rest hs => exact Or.inr ⟨q, (h.asleep q).mp (by rw [hs]; exact List.mem_cons_self), rfl⟩

/-- The party at `Wake` is not the one that is woken. -/
theorem rouse_of_ne (h : q ≠ p) : (s.rouse p).pc q = s.pc q := goto_of_ne h

/-- `Wake(1)`, and the party goes on. -/
theorem Parked.wake (h : Parked s) (hpc : s.pc p = .wake) (hb : b.awake) : Parked (s.wakeFirst.goto p b) := by
  rcases h.wakeFirst_cases with ⟨-, hw⟩ | ⟨q, hq, hw⟩
  · rw [hw]
    exact h.move hpc rfl rfl rfl hb
  · have hne : p ≠ q := by
      rintro rfl
      rw [hpc] at hq; cases hq
    rw [hw]
    exact (h.rouse hq).move ((rouse_of_ne hne).trans hpc) rfl rfl rfl hb

/-- `Pop` returns a suspended coroutine. -/
theorem Parked.hand {m : Q.Mem} {pc : Q.PopPc} {x : P} (h : Parked s) (hpc : s.pc p = .dequeue pc)
    (hx : s.pc x = .suspended) : Parked (({ s with queue := m }.goto x .granted).goto p (.submit x)) := by
  have hxp : x ≠ p := by
    rintro rfl
    rw [hpc] at hx; cases hx
  have hpcs : ∀ y, y ≠ p → y ≠ x → (({ s with queue := m }.goto x .granted).goto p (.submit x)).pc y = s.pc y :=
    fun y hyp hyx => by rw [goto_of_ne hyp, goto_of_ne hyx]
  have hpx : (({ s with queue := m }.goto x .granted).goto p (.submit x)).pc x = .granted := by
    rw [goto_of_ne hxp, goto_self]
  have hgiven : ∀ y z, y ≠ p → (({ s with queue := m }.goto x .granted).goto p (.submit x)).pc y = .submit z →
      s.pc y = .submit z ∧ z ≠ p ∧ z ≠ x := by
    intro y z hyp hy
    have hyx : y ≠ x := by
      rintro rfl
      rw [hpx] at hy; cases hy
    rw [hpcs y hyp hyx] at hy
    have hz := h.given y z hy
    refine ⟨hy, ?_, ?_⟩ <;> rintro rfl
    · rw [hpc] at hz; cases hz
    · rw [hx] at hz; cases hz
  refine ⟨h.nodup, fun y => (h.asleep y).trans ?_, fun y z hy => ?_, fun y y' z hy hy' => ?_⟩
  · by_cases hyp : y = p
    · rw [hyp, goto_self, hpc]; simp
    by_cases hyx : y = x
    · rw [hyx, hpx, hx]; simp
    · rw [hpcs y hyp hyx]
  · by_cases hyp : y = p
    · rw [hyp, goto_self] at hy
      cases hy
      exact hpx
    · obtain ⟨hy, hzp, hzx⟩ := hgiven y z hyp hy
      rw [hpcs z hzp hzx]
      exact h.given y z hy
  · by_cases hyp : y = p <;> by_cases hyp' : y' = p
    · rw [hyp, hyp']
    · rw [hyp, goto_self] at hy
      cases hy
      exact absurd rfl (hgiven y' x hyp' hy').2.2
    · rw [hyp', goto_self] at hy'
      cases hy'
      exact absurd rfl (hgiven y x hyp hy).2.2
    · exact h.giver y y' z (hgiven y z hyp hy).1 (hgiven y' z hyp' hy').1

/-- The coroutine that was taken out is resumed. -/
theorem Parked.submit {x : P} (h : Parked s) (hpc : s.pc p = .submit x) :
    Parked ((s.goto x .holding).goto p .idle) := by
  have hx := h.given p x hpc
  have hxp : x ≠ p := by
    rintro rfl
    rw [hpc] at hx; cases hx
  have hpcs : ∀ y, y ≠ p → y ≠ x → ((s.goto x .holding).goto p .idle).pc y = s.pc y :=
    fun y hyp hyx => by rw [goto_of_ne hyp, goto_of_ne hyx]
  have hpx : ((s.goto x .holding).goto p .idle).pc x = .holding := by rw [goto_of_ne hxp, goto_self]
  have hgiven : ∀ y z, ((s.goto x .holding).goto p .idle).pc y = .submit z → s.pc y = .submit z ∧ z ≠ p ∧ z ≠ x := by
    intro y z hy
    have hyp : y ≠ p := by
      rintro rfl
      rw [goto_self] at hy; cases hy
    have hyx : y ≠ x := by
      rintro rfl
      rw [hpx] at hy; cases hy
    rw [hpcs y hyp hyx] at hy
    have hz := h.given y z hy
    refine ⟨hy, ?_, ?_⟩ <;> rintro rfl
    · rw [hpc] at hz; cases hz
    · exact hyp (h.giver y p z hy hpc)
  refine ⟨h.nodup, fun y => (h.asleep y).trans ?_, fun y z hy => ?_, fun y y' z hy hy' => ?_⟩
  · by_cases hyp : y = p
    · rw [hyp, goto_self, hpc]; simp
    by_cases hyx : y = x
    · rw [hyx, hpx, hx]; simp
    · rw [hpcs y hyp hyx]
  · obtain ⟨hy, hzp, hzx⟩ := hgiven y z hy
    rw [hpcs z hzp hzx]
    exact h.given y z hy
  · exact h.giver y y' z (hgiven y z hy).1 (hgiven y' z hy').1

/-- A successful or failed exchange of `state_`. -/
theorem Parked.cas {w w' : Word} {c : Pc Q} (h : Parked s) (hpc : s.pc p = a) (ha : a.awake) (hb : b.awake)
    (hc : c.awake) : Parked (s.cas p w w' b c) := by
  unfold State.cas
  split
  · exact h.move (r := { s with word := w' }) hpc rfl rfl ha hb
  · exact h.move hpc rfl rfl ha hc

/-- **Every access** keeps the sleepers and the hand-offs. -/
theorem parked_access {k : Kind} (h : Parked s) (hq : PopsSuspended s) (hpc : s.pc p = a)
    (hst : s.access k p a = some t) : Parked t := by
  cases a with
  | idle | holding | nativeOnly | asleep | suspended | granted => cases hst
  | fastLoad | loadButex | load first | recheck first | loadPending | clear | getButex =>
    cases hst
    refine h.move hpc rfl rfl rfl ?_
    repeat' split
    all_goals rfl
  | createButex | generation first | fetchOr | setWaiters | clearWaiters | clearOnly | addPending | loadValue
  | storeValue v | subPending | nativeUnlock =>
    cases hst
    exact h.move hpc rfl rfl rfl rfl
  | fastCas | casFree first w | casWaiters first w | ready | suspendTry | retryTry =>
    cases hst
    exact h.cas hpc rfl rfl rfl
  | tryCas retry =>
    cases hst
    refine h.cas hpc rfl rfl ?_
    split <;> rfl
  | wait first g =>
    cases hst
    split
    · refine h.sleep hpc rfl ?_
      split
      · exact List.perm_append_singleton p s.sleepers
      · exact List.Perm.refl _
    · exact h.move hpc rfl rfl rfl rfl
  | nativeLock =>
    simp only [State.access, Option.ite_none_right_eq_some, Option.some.injEq] at hst
    obtain ⟨-, rfl⟩ := hst
    exact h.move hpc rfl rfl rfl rfl
  | nativeTry =>
    cases hst
    split <;> exact h.move hpc rfl rfl rfl rfl
  | enqueue pc =>
    cases hst
    refine h.move hpc rfl rfl rfl ?_
    split <;> rfl
  | dequeue pc =>
    cases hst
    unfold State.dequeue
    split
    case h_1 | h_2 => exact h.move hpc rfl rfl rfl rfl
    case h_3 m x hx => exact h.hand hpc (hq p pc m x hpc hx)
  | submit x =>
    cases hst
    exact h.submit hpc
  | wake =>
    cases hst
    refine h.wake hpc ?_
    split <;> rfl

theorem cas_of_ne {w w' : Word} {c : Pc Q} (h : q ≠ p) : (s.cas p w w' b c).pc q = s.pc q := by
  unfold State.cas
  split <;> exact goto_of_ne h

/-- **A party that is in no call** stays so while others perform their accesses. -/
theorem idle_access {k : Kind} (h : Parked s) (hpop : PopsSuspended s) (hpc : s.pc p = a)
    (hst : s.access k p a = some t) (hq : s.pc q = .idle) (hne : q ≠ p) : t.pc q = .idle := by
  cases a with
  | idle | holding | nativeOnly | asleep | suspended | granted => cases hst
  | fastCas | casFree first w | casWaiters first w | tryCas retry | ready | suspendTry | retryTry =>
    cases hst
    exact (cas_of_ne hne).trans hq
  | wait first g | nativeTry =>
    cases hst
    split <;> exact (goto_of_ne hne).trans hq
  | nativeLock =>
    obtain ⟨-, hst⟩ := Option.ite_none_right_eq_some.mp hst
    cases hst
    exact (goto_of_ne hne).trans hq
  | dequeue pc =>
    cases hst
    unfold State.dequeue
    split
    case h_1 | h_2 => exact (goto_of_ne hne).trans hq
    case h_3 m x hx =>
      have hqx : q ≠ x := by
        rintro rfl
        rw [hpop p pc m q hpc hx] at hq
        cases hq
      exact (goto_of_ne hne).trans ((goto_of_ne hqx).trans hq)
  | submit x =>
    cases hst
    have hqx : q ≠ x := by
      rintro rfl
      rw [h.given p q hpc] at hq
      cases hq
    exact (goto_of_ne hne).trans ((goto_of_ne hqx).trans hq)
  | wake =>
    cases hst
    refine (goto_of_ne hne).trans ?_
    obtain ⟨-, hw⟩ | ⟨x, hx, hw⟩ := h.wakeFirst_cases
    · rw [hw]
      exact hq
    · have hqx : q ≠ x := by
        rintro rfl
        rw [hx] at hq
        cases hq
      rw [hw]
      exact (rouse_of_ne hqx).trans hq
  | _ =>
    cases hst
    exact (goto_of_ne hne).trans hq

omit [DecidableEq P] in
theorem Pc.eq_idle_of_matches {a : Pc Q} (h : (a matches .idle) = true) : a = .idle := by
  cases a <;> first | rfl | cases h

/-- A call starts, a call goes on, or a sleeping bthread is resumed. -/
theorem step_cases {l : Label P} (h : step kind s l = some t) :
    (∃ p b, s.pc p = .idle ∧ t = s.goto p b ∧
      (b = lockStart (kind p) ∧ kind p ≠ .coroutine ∨ b = tryStart (kind p) ∨
        kind p = .coroutine ∧ (b = .tryCas true ∨ b = .ready))) ∨
    (∃ p, (s.pc p = .holding ∨ s.pc p = .nativeOnly) ∧ t = s.goto p (unlockStart (kind p))) ∨
    (∃ p, l = .party p ∧ s.access (kind p) p (s.pc p) = some t) ∨
    ∃ p, s.pc p = .asleep ∧ t = s.rouse p := by
  cases l with
  | lock p =>
    simp only [step, Option.ite_none_right_eq_some, Option.some.injEq] at h
    obtain ⟨⟨hp, hk⟩, rfl⟩ := h
    exact Or.inl ⟨p, _, Pc.eq_idle_of_matches hp, rfl, Or.inl ⟨rfl, hk⟩⟩
  | tryLock p =>
    simp only [step, Option.ite_none_right_eq_some, Option.some.injEq] at h
    obtain ⟨hp, rfl⟩ := h
    exact Or.inl ⟨p, _, Pc.eq_idle_of_matches hp, rfl, Or.inr (Or.inl rfl)⟩
  | reacquire p =>
    simp only [step, Option.ite_none_right_eq_some, Option.some.injEq] at h
    obtain ⟨⟨hp, hk⟩, rfl⟩ := h
    exact Or.inl ⟨p, _, Pc.eq_idle_of_matches hp, rfl, Or.inr (Or.inr ⟨hk, Or.inl rfl⟩)⟩
  | lockAsync p =>
    simp only [step, Option.ite_none_right_eq_some, Option.some.injEq] at h
    obtain ⟨⟨hp, hk⟩, rfl⟩ := h
    exact Or.inl ⟨p, _, Pc.eq_idle_of_matches hp, rfl, Or.inr (Or.inr ⟨hk, Or.inr rfl⟩)⟩
  | unlock p =>
    simp only [step, Option.ite_none_right_eq_some, Option.some.injEq] at h
    obtain ⟨hp, rfl⟩ := h
    refine Or.inr (Or.inl ⟨p, ?_, rfl⟩)
    cases ha : s.pc p <;> rw [ha] at hp <;> first | exact Or.inl rfl | exact Or.inr rfl | cases hp
  | party p => exact Or.inr (Or.inr (Or.inl ⟨p, rfl, h⟩))
  | resume p =>
    simp only [step, Option.ite_none_right_eq_some, Option.some.injEq] at h
    obtain ⟨hp, rfl⟩ := h
    refine Or.inr (Or.inr (Or.inr ⟨p, ?_, rfl⟩))
    cases ha : s.pc p <;> rw [ha] at hp <;> first | rfl | cases hp

/-- **Every step** keeps the sleepers and the hand-offs. -/
theorem parked_step {l : Label P} (h : Parked s) (hq : PopsSuspended s) (hst : step kind s l = some t) : Parked t := by
  rcases step_cases hst with ⟨p, b, hp, rfl, hb⟩ | ⟨p, hp, rfl⟩ | ⟨p, -, hst⟩ | ⟨p, hp, rfl⟩
  case inl =>
    refine h.move hp rfl rfl rfl ?_
    rcases hb with ⟨rfl, -⟩ | rfl | ⟨-, rfl | rfl⟩
    · unfold lockStart
      split <;> rfl
    · unfold tryStart
      split <;> rfl
    · rfl
    · rfl
  case inr.inl =>
    have hb : (unlockStart (kind p) : Pc Q).awake := by
      unfold unlockStart
      split <;> rfl
    rcases hp with hp | hp
    · exact h.move hp rfl rfl rfl hb
    · exact h.move hp rfl rfl rfl hb
  case inr.inr.inl => exact parked_access h hq rfl hst
  case inr.inr.inr => exact h.rouse hp

omit [DecidableEq P] in
theorem parked_new : Parked (State.new Q) where
  nodup := List.nodup_nil
  asleep _ := iff_of_false List.not_mem_nil nofun
  given _ _ h := nomatch h
  giver _ _ _ h := nomatch h

/-! ## Steps that leave the generation and `HAS_WAITERS` alone -/

/-- The party is not in the middle of a wait for a generation, of a store of one or of a change of `HAS_WAITERS`. -/
def Pc.neutral : Pc Q → Bool
  | .wait _ _ | .storeValue _ | .retryTry | .clearWaiters => false
  | _ => true

/-- The access leaves the generation and `HAS_WAITERS` alone, and leads to a neutral place. -/
def Pc.quiet : Pc Q → Bool
  | .generation _ | .loadValue | .storeValue _ | .casWaiters _ _ | .setWaiters | .retryTry | .clearWaiters => false
  | _ => true

/-- Parties go to neutral places. -/
inductive Moved (s : State Q) : State Q → Prop
  | refl : Moved s s
  | goto {r r' : State Q} {p : P} {b : Pc Q} : Moved s r → r'.pc = r.pc → r'.value = r.value →
      r'.word.hasWaiters = r.word.hasWaiters → b.neutral → Moved s (r'.goto p b)

/-- One party goes to a neutral place. -/
theorem Moved.one (hr : r.pc = s.pc) (hv : r.value = s.value) (hw : r.word.hasWaiters = s.word.hasWaiters)
    (hb : b.neutral) : Moved s (r.goto p b) := .goto .refl hr hv hw hb

theorem Moved.cas {w w' : Word} {d : Pc Q} (hw : w'.hasWaiters = w.hasWaiters) (hb : b.neutral) (hd : d.neutral) :
    Moved s (s.cas p w w' b d) := by
  unfold State.cas
  split
  case isTrue he => exact .one (r := { s with word := w' }) rfl rfl (by rw [he]; exact hw) hb
  case isFalse => exact .one rfl rfl rfl hd

/-- **Every quiet access** moves parties only. -/
theorem moved_access {k : Kind} (ha : a.quiet) (hst : s.access k p a = some t) : Moved s t := by
  cases a with
  | idle | holding | nativeOnly | asleep | suspended | granted => cases hst
  | generation | loadValue | storeValue | casWaiters | setWaiters | retryTry | clearWaiters => cases ha
  | fastCas | casFree first w | ready | suspendTry =>
    cases hst
    exact .cas rfl rfl rfl
  | tryCas retry =>
    cases hst
    refine .cas rfl rfl ?_
    split <;> rfl
  | wait first g | nativeTry =>
    cases hst
    split <;> exact .one rfl rfl rfl rfl
  | nativeLock =>
    obtain ⟨-, hst⟩ := Option.ite_none_right_eq_some.mp hst
    cases hst
    exact .one rfl rfl rfl rfl
  | dequeue pc =>
    cases hst
    unfold State.dequeue
    split
    case h_1 | h_2 => exact .one rfl rfl rfl rfl
    case h_3 m x hx =>
      have hgiven : Moved s ({ s with queue := m }.goto x .granted) := .one rfl rfl rfl rfl
      exact hgiven.goto rfl rfl rfl rfl
  | submit x =>
    cases hst
    have hresumed : Moved s (s.goto x .holding) := .one rfl rfl rfl rfl
    exact hresumed.goto rfl rfl rfl rfl
  | wake =>
    cases hst
    have hwoken : Moved s s.wakeFirst := by
      unfold State.wakeFirst
      split
      · exact .refl
      · exact .one rfl rfl rfl rfl
    refine hwoken.goto rfl rfl rfl ?_
    split <;> rfl
  | _ =>
    cases hst
    refine .one rfl rfl rfl ?_
    repeat' split
    all_goals rfl

/-- A call that starts and a bthread that is resumed move a party only. -/
theorem moved_call {l : Label P} (hl : ∀ p, l ≠ .party p) (hst : step kind s l = some t) : Moved s t := by
  obtain ⟨p, b, -, rfl, hb⟩ | ⟨p, -, rfl⟩ | ⟨p, rfl, -⟩ | ⟨p, -, rfl⟩ := step_cases hst
  · refine .one rfl rfl rfl ?_
    obtain ⟨rfl, -⟩ | rfl | ⟨-, rfl | rfl⟩ := hb
    · unfold lockStart
      split <;> rfl
    · unfold tryStart
      split <;> rfl
    · rfl
    · rfl
  · refine .one rfl rfl rfl ?_
    unfold unlockStart
    split <;> rfl
  · exact absurd rfl (hl p)
  · exact .one rfl rfl rfl rfl

end Cothread.Mutex
