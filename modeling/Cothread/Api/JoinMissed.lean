import Cothread.Api.Join
import Cothread.Lib.Count

/-!
# `bthread_join` and the completion it can miss

The finisher bumps the join butex and wakes only when it finds `join_waiters` positive, and `bthread_join` registers
only after it has tested the state. A completion that falls in between is missed (`missed_completion`). While the
finisher does not read 0 from `join_waiters` with a `bthread_join` between its test and its increment, no `bthread_join`
is blocked once `HandleFinishedBthread` has returned (`not_blocked_after_finish`). Several joins have to be over when
one of them, or the target, releases the last reference: `DeallocTaskMeta` makes the state `READY` again
(`blocked_after_free`). A single join cannot be disturbed in this way (`not_premature`).
-/

namespace Cothread.Join

open Run Count

variable {J R : Type*}

/-- The state is `FINISHED`. -/
def TargetPc.over : TargetPc R → Bool
  | .running | .exit _ | .storeFinished => false
  | _ => true

/-- The butex value is not going to change any more. -/
def TargetPc.settled : TargetPc R → Bool
  | .wakeFutex | .wakeQueue | .release | .done => true
  | _ => false

/-- `join_waiters` counts this joiner. -/
def JoinPc.registered : JoinPc R → Bool
  | .wait _ | .blocked _ | .leave | .taskLoadButex | .taskReadGeneration => true
  | _ => false

/-- The finisher is about to read 0 from `join_waiters` while a `bthread_join` stands between its test of the state and
its increment. -/
def Missed (s : State J R) : Label J R → Prop
  | .target => s.target = .testWaiters ∧ s.joinWaiters ≤ 0 ∧ ∃ j g, s.joiner j = some (.register g)
  | _ => False

/-- The join has returned. -/
def JoinPc.ended : JoinPc R → Bool
  | .returned _ | .notFound => true
  | _ => false

/-- The joiner `j` is in a join. -/
def State.joining (s : State J R) (j : J) : Prop := ∃ pc, s.joiner j = some pc ∧ pc.ended = false

/-- The last reference is about to be released while a join is in progress, other than the one that releases it. -/
def Premature (s : State J R) : Label J R → Prop
  | .joiner j => (∃ v, s.joiner j = some (.release v)) ∧ s.refCount = 1 ∧ ∃ i, i ≠ j ∧ s.joining i
  | .target => s.target = .release ∧ s.refCount = 1 ∧ ∃ i, s.joining i
  | _ => False

/-- The joiner `j` is blocked in the wait of a `bthread_join`. -/
def Blocked (call : J → Call) (s : State J R) (j : J) : Prop :=
  call j = .bthreadJoin ∧ ∃ g, s.joiner j = some (.blocked g)

/-! ## The invariant -/

/-- The generation `g` tells whether the finisher has bumped the butex. -/
def Fresh (s : State J R) (g : Int) : Prop := s.joinButex ≠ none ∧ (s.joinButex = some g ↔ s.target.settled = false)

/-- What a `bthread_join` knows at its next access. -/
def Knows (s : State J R) (call : Call) (ctx : Context) : JoinPc R → Prop
  | .readGeneration => s.joinButex ≠ none
  | .testState g => s.joinButex ≠ none ∧ (s.joinButex = some g ∨ s.state = .finished)
  | .register g => Fresh s g
  | .wait g => call = .bthreadJoin → Fresh s g
  | .blocked g => call = .bthreadJoin →
      Fresh s g ∧ s.target ≠ .release ∧ s.target ≠ .done ∧ (ctx = .pthread → s.target ≠ .wakeQueue)
  | .taskTestState | .taskRegister | .taskLoadButex | .taskReadGeneration => call = .taskJoin
  | _ => True

structure Inv (call : J → Call) (ctx : J → Context) (s : State J R) : Prop where
  state_iff : s.state = .finished ↔ s.target.over = true
  counts : Counts (fun j => (s.joiner j).any JoinPc.registered = true) s.joinWaiters
  knows : ∀ j pc, s.joiner j = some pc → Knows s (call j) (ctx j) pc
  loaded : s.target = .loadValue → s.joinButex ≠ none
  stored : ∀ v, s.target = .storeValue v → s.joinButex = some v

theorem not_settled_of_not_over {p : TargetPc R} (h : p.over = false) : p.settled = false := by
  cases p <;> first | rfl | cases h

section Steps

variable [DecidableEq J] {call : J → Call} {ctx : J → Context} {s t : State J R} {j : J} {pc : JoinPc R}

omit [DecidableEq J] in
/-- `Release()`: `DeallocTaskMeta` is called, or one reference less is all that changes. -/
theorem drop_cases (s : State J R) (toCache : Bool) :
    s.refCount = 1 ∧ s.drop toCache = s.dealloc ∨ s.drop toCache = { s with refCount := s.refCount - 1 } := by
  unfold State.drop
  split
  · next h => exact .inl ⟨h.1, rfl⟩
  · exact .inr rfl

omit [DecidableEq J] in
/-- The `TaskMeta` has not been given to `DeallocTaskMeta`. -/
theorem drop_eq {toCache : Bool} (hf : (s.drop toCache).freed = false) :
    s.drop toCache = { s with refCount := s.refCount - 1 } := by
  obtain ⟨-, hs⟩ | hs := drop_cases s toCache
  · rw [hs] at hf
    cases hf
  · exact hs

/-- What an access of a joiner leaves alone, unless it is the end of the `TaskMeta`. -/
theorem join_frame {c : Call} {x : Context} (h : s.join c x j pc = some t) (hf : t.freed = false) :
    t.target = s.target ∧ t.state = s.state ∧ t.result = s.result ∧ (∀ i, i ≠ j → t.joiner i = s.joiner i) ∧
      (∀ v, s.joinButex = some v → t.joinButex = some v) := by
  cases pc with
  | release v =>
    cases h
    rw [show State.drop s _ = _ from drop_eq hf]
    exact ⟨rfl, rfl, rfl, fun i hi => Function.update_of_ne hi _ _, fun v hv => hv⟩
  | _ =>
    simp only [State.join, Option.some.injEq, reduceCtorEq] at h <;> subst h <;>
      refine ⟨rfl, rfl, rfl, fun i hi => Function.update_of_ne hi _ _, fun v hv => ?_⟩ <;>
      simp [State.goto, hv]

omit [DecidableEq J] in
/-- What the other joiners know is not affected by a joiner. -/
theorem Knows.congr {c : Call} {x : Context} (h : Knows s c x pc) (ht : t.target = s.target) (hs : t.state = s.state)
    (hb : ∀ v, s.joinButex = some v → t.joinButex = some v) : Knows t c x pc := by
  have hnone : s.joinButex ≠ none → t.joinButex ≠ none := by
    intro hne
    obtain ⟨v, hv⟩ := Option.ne_none_iff_exists'.mp hne
    rw [hb v hv]
    exact Option.some_ne_none v
  have hfresh : ∀ g, Fresh s g → Fresh t g := by
    rintro g ⟨h₁, h₂⟩
    refine ⟨hnone h₁, ?_⟩
    obtain ⟨v, hv⟩ := Option.ne_none_iff_exists'.mp h₁
    rw [ht, ← h₂, hv, hb v hv]
  cases pc <;> simp only [Knows, ht, hs] at h ⊢ <;> grind

section Counts

variable {n : Int}

omit [DecidableEq J] in
theorem counts_stay (h : Counts (fun i => (s.joiner i).any JoinPc.registered = true) n)
    (hne : ∀ i, i ≠ j → t.joiner i = s.joiner i)
    (hj : (t.joiner j).any JoinPc.registered = (s.joiner j).any JoinPc.registered) :
    Counts (fun i => (t.joiner i).any JoinPc.registered = true) n := by
  refine h.congr fun i => ?_
  by_cases hi : i = j
  · rw [hi, hj]
  · rw [hne i hi]

omit [DecidableEq J] in
theorem counts_enter (h : Counts (fun i => (s.joiner i).any JoinPc.registered = true) n)
    (hne : ∀ i, i ≠ j → t.joiner i = s.joiner i) (hs : (s.joiner j).any JoinPc.registered = false)
    (ht : (t.joiner j).any JoinPc.registered = true) :
    Counts (fun i => (t.joiner i).any JoinPc.registered = true) (n + 1) := by
  refine h.insert (j := j) (by simp [hs]) fun i => ?_
  by_cases hi : i = j
  · simp [hi, ht]
  · simp [hi, hne i hi]

theorem counts_leave (h : Counts (fun i => (s.joiner i).any JoinPc.registered = true) n)
    (hne : ∀ i, i ≠ j → t.joiner i = s.joiner i) (hs : (s.joiner j).any JoinPc.registered = true)
    (ht : (t.joiner j).any JoinPc.registered = false) :
    Counts (fun i => (t.joiner i).any JoinPc.registered = true) (n - 1) := by
  refine h.erase (j := j) hs fun i => ?_
  by_cases hi : i = j
  · simp [hi, ht]
  · simp [hi, hne i hi]

end Counts

/-- The next access of a joiner, and what it knows then. -/
theorem join_knows (hi : Inv call ctx s) (hj : s.joiner j = some pc) (h : s.join (call j) (ctx j) j pc = some t) :
    ∃ pc', t.joiner j = some pc' ∧ Knows t (call j) (ctx j) pc' := by
  have hk := hi.knows j pc hj
  cases pc <;> simp only [State.join, Option.some.injEq, reduceCtorEq] at h <;> subst h <;>
    refine ⟨_, Function.update_self .., ?_⟩
  case checkButex => cases hb : s.joinButex <;> simp [Knows, State.goto, hb]
  case createButex => simp [Knows, State.goto]
  case readGeneration =>
    obtain ⟨v, hv⟩ := Option.ne_none_iff_exists'.mp hk
    simp [Knows, State.goto, hv]
  case testState g =>
    by_cases hf : s.state = .finished
    · simp [hf, Knows]
    · -- the target has not finished, so the butex still has the value that was read
      have hover : s.target.over = false := by simpa [hf] using hi.state_iff
      have hset : s.target.settled = false := not_settled_of_not_over hover
      simp only [hf, if_false]
      exact ⟨hk.1, by simp [State.goto, hset, hk.2.resolve_right hf]⟩
  case register g => exact fun _ => hk
  case taskTestState =>
    by_cases hf : s.state = .finished
    · simp [hf, Knows]
    · simpa [hf, Knows] using hk
  case taskRegister => exact hk
  case taskLoadButex =>
    cases hb : s.joinButex
    · simp [Knows]
    · simpa [Knows] using hk
  case taskReadGeneration =>
    intro hc
    rw [show call j = .taskJoin from hk] at hc
    cases hc
  case wait g =>
    split
    · trivial
    · rename_i hw
      simp only [not_or, not_and, not_not] at hw
      intro hc
      have hf := hk hc
      have hset := hf.2.mp hw.2
      refine ⟨hf, ?_, ?_, fun _ => ?_⟩ <;> intro he <;> simp [State.goto] at he <;> simp [he, TargetPc.settled] at hset
  case leave => cases call j <;> trivial
  all_goals trivial

/-- `join_waiters` goes on counting the registered joiners. -/
theorem join_counts {c : Call} {x : Context}
    (hc : Counts (fun i => (s.joiner i).any JoinPc.registered = true) s.joinWaiters) (hj : s.joiner j = some pc)
    (h : s.join c x j pc = some t) (hf : t.freed = false) :
    Counts (fun i => (t.joiner i).any JoinPc.registered = true) t.joinWaiters := by
  obtain ⟨_, _, _, hne, _⟩ := join_frame h hf
  cases pc <;> simp only [State.join, Option.some.injEq, reduceCtorEq] at h <;> subst h
  case register g => exact counts_enter hc hne (by rw [hj]; rfl) (by simp [State.goto, JoinPc.registered])
  case taskRegister => exact counts_enter hc hne (by rw [hj]; rfl) (by simp [State.goto, JoinPc.registered])
  case leave =>
    refine counts_leave hc hne (by rw [hj]; rfl) ?_
    cases c <;> simp [State.goto, JoinPc.registered, JoinPc.afterwards]
  case release v =>
    have hdrop : s.drop (c.toCache x) = { s with refCount := s.refCount - 1 } := drop_eq hf
    rw [hdrop] at hne ⊢
    exact counts_stay hc hne (by simp [State.goto, hj, JoinPc.registered])
  all_goals
    refine counts_stay hc hne ?_
    simp only [State.goto, Function.update_self, hj, Option.any_some]
    first | rfl | (split <;> rfl)

/-- The access of a joiner keeps the invariant. -/
theorem Inv.join (hi : Inv call ctx s) (hj : s.joiner j = some pc) (h : s.join (call j) (ctx j) j pc = some t)
    (hf : t.freed = false) : Inv call ctx t := by
  obtain ⟨ht, hst, hr, hne, hb⟩ := join_frame h hf
  obtain ⟨pc', hj', hk'⟩ := join_knows hi hj h
  refine ⟨by rw [hst, ht]; exact hi.state_iff, ?_, fun i pci hpci => ?_, fun hl => ?_, fun v hv => ?_⟩
  · exact join_counts hi.counts hj h hf
  · by_cases he : i = j
    · subst he
      rw [hj'] at hpci
      cases hpci
      exact hk'
    · rw [hne i he] at hpci
      exact (hi.knows i pci hpci).congr ht hst hb
  · obtain ⟨v, hv⟩ := Option.ne_none_iff_exists'.mp (hi.loaded (ht ▸ hl))
    rw [hb v hv]
    exact Option.some_ne_none v
  · exact hb v (hi.stored v (ht ▸ hv))

/-- A wait that is cut short keeps the invariant. -/
theorem Inv.cut {p : JoinPc R → Bool} (hi : Inv call ctx s) (hp : ∀ pc, p pc = true → pc.registered = true)
    (h : s.cut j p = some t) : Inv call ctx t := by
  simp only [State.cut, Option.ite_none_right_eq_some, Option.some.injEq] at h
  obtain ⟨hj, rfl⟩ := h
  obtain ⟨pc, hj, hpc⟩ := (Option.any_eq_true _ _).mp hj
  have hne : ∀ i, i ≠ j → (s.goto j .leave).joiner i = s.joiner i := fun i hi => Function.update_of_ne hi _ _
  refine ⟨hi.state_iff, ?_, fun i pci hpci => ?_, hi.loaded, hi.stored⟩
  · refine counts_stay hi.counts hne ?_
    simp only [State.goto, Function.update_self, hj, Option.any_some, hp pc hpc]
    rfl
  · by_cases he : i = j
    · subst he
      simp only [State.goto, Function.update_self, Option.some.injEq] at hpci
      subst hpci
      trivial
    · rw [hne i he] at hpci
      exact (hi.knows i pci hpci).congr rfl rfl fun _ h => h

omit [DecidableEq J]

/-- What a joiner knows, when the target goes on without changing the butex. -/
theorem Knows.advance {c : Call} {x : Context} (h : Knows s c x pc) (hb : t.joinButex = s.joinButex)
    (hs : s.state = .finished → t.state = .finished) (hset : t.target.settled = s.target.settled)
    (hbl : ∀ g, pc = .blocked g → c = .bthreadJoin →
      t.target ≠ .release ∧ t.target ≠ .done ∧ (x = .pthread → t.target ≠ .wakeQueue)) : Knows t c x pc := by
  have hfresh : ∀ g, Fresh s g → Fresh t g := by
    rintro g ⟨h₁, h₂⟩
    exact ⟨by rw [hb]; exact h₁, by rw [hb, hset]; exact h₂⟩
  cases pc with
  | readGeneration => exact fun hn => h (hb ▸ hn)
  | testState g => exact ⟨by rw [hb]; exact h.1, h.2.imp (by rw [hb]; exact id) hs⟩
  | register g => exact hfresh g h
  | wait g => exact fun hc => hfresh g (h hc)
  | blocked g => exact fun hc => ⟨hfresh g (h hc).1, hbl g rfl hc⟩
  | taskTestState | taskRegister | taskLoadButex | taskReadGeneration => exact h
  | _ => trivial

/-- A joiner that is between its test of the state and the end of its wait, in `bthread_join`. -/
def JoinPc.pending (c : Call) : JoinPc R → Prop
  | .register _ => True
  | .wait _ | .blocked _ => c = .bthreadJoin
  | _ => False

/-- When no `bthread_join` is pending the finisher may skip the bump. -/
theorem Knows.skip {c : Call} {x : Context} (h : Knows s c x pc) (hp : ¬pc.pending c)
    (hb : t.joinButex = s.joinButex) (hs : t.state = s.state) : Knows t c x pc := by
  cases pc with
  | readGeneration => exact fun hn => h (hb ▸ hn)
  | testState g => exact ⟨by rw [hb]; exact h.1, by rw [hb, hs]; exact h.2⟩
  | register g => exact absurd trivial hp
  | wait g => exact fun hc => absurd hc hp
  | blocked g => exact fun hc => absurd hc hp
  | taskTestState | taskRegister | taskLoadButex | taskReadGeneration => exact h
  | _ => trivial

/-- What a joiner knows after the bump. -/
theorem Knows.bump {c : Call} {x : Context} {v : Int} (h : Knows s c x pc) (hv : s.joinButex = some v)
    (hset : s.target.settled = false) (hs : s.state = .finished) :
    Knows { s with joinButex := some (wrap32 (v + 1)), target := .wakeFutex } c x pc := by
  have hfresh : ∀ g, Fresh s g → Fresh { s with joinButex := some (wrap32 (v + 1)), target := .wakeFutex } g := by
    rintro g ⟨_, h₂⟩
    have hg : v = g := by simpa [hv] using h₂.mpr hset
    subst hg
    refine ⟨Option.some_ne_none _, ?_⟩
    simp [TargetPc.settled, wrap32_succ_ne]
  cases pc with
  | readGeneration => exact Option.some_ne_none _
  | testState g => exact ⟨Option.some_ne_none _, Or.inr hs⟩
  | register g => exact hfresh g h
  | wait g => exact fun hc => hfresh g (h hc)
  | blocked g => exact fun hc => ⟨hfresh g (h hc).1, by simp, by simp, by simp⟩
  | taskTestState | taskRegister | taskLoadButex | taskReadGeneration => exact h
  | _ => trivial

/-- A joiner after a wake: it was woken, or it stands where it stood and was not blocked. -/
theorem wake_cases {c : Context} (h : (s.wake ctx c).joiner j = some pc) :
    pc = .leave ∨ s.joiner j = some pc ∧ ∀ g, pc = .blocked g → ctx j ≠ c := by
  simp only [State.wake] at h
  split at h
  · rename_i g hg
    split at h
    · cases h; exact Or.inl rfl
    · rename_i hc
      cases h; exact Or.inr ⟨hg, fun _ _ => hc⟩
  · rename_i hno
    exact Or.inr ⟨h, fun g hg => absurd (hg ▸ h) (hno g)⟩

theorem wake_counts {c : Context} {n : Int} (h : Counts (fun i => (s.joiner i).any JoinPc.registered = true) n) :
    Counts (fun i => ((s.wake ctx c).joiner i).any JoinPc.registered = true) n := by
  refine h.congr fun i => ?_
  simp only [State.wake]
  split
  · rename_i g hg
    rw [hg]
    split <;> simp [JoinPc.registered]
  · exact Iff.rfl

/-- The target tests whether somebody joins it. -/
theorem Inv.testWaiters (hi : Inv call ctx s) (hpc : s.target = .testWaiters) (hok : ¬Missed s .target)
    (h : s.finish ctx .testWaiters = some t) : Inv call ctx t := by
  have ho := hi.state_iff
  rw [hpc] at ho
  by_cases hw : s.joinWaiters > 0
  · simp only [State.finish, if_pos hw, Option.some.injEq] at h
    subst h
    refine ⟨ho, hi.counts, fun j pc hj => (hi.knows j pc hj).advance rfl id (by rw [hpc]; rfl) ?_, nofun, nofun⟩
    exact fun _ _ _ => ⟨nofun, nofun, nofun⟩
  · simp only [State.finish, if_neg hw, Option.some.injEq] at h
    subst h
    -- no joiner is registered, and by assumption none is about to register
    refine ⟨ho, hi.counts, fun j pc hj => (hi.knows j pc hj).skip (fun hp => ?_) rfl rfl, nofun, nofun⟩
    cases pc with
    | register g => exact hok ⟨hpc, by omega, j, g, hj⟩
    | wait g => exact hw (hi.counts.pos (j := j) (by rw [hj]; rfl))
    | blocked g => exact hw (hi.counts.pos (j := j) (by rw [hj]; rfl))
    | _ => exact hp

/-- The target tests whether there is a butex to wake. -/
theorem Inv.testButex (hi : Inv call ctx s) (hpc : s.target = .testButex) (h : s.finish ctx .testButex = some t) :
    Inv call ctx t := by
  have ho := hi.state_iff
  rw [hpc] at ho
  cases hb : s.joinButex with
  | none =>
    simp only [State.finish, hb, Option.isNone_none, if_true, Option.some.injEq] at h
    subst h
    refine ⟨ho, hi.counts, fun j pc hj => (hi.knows j pc hj).skip (fun hp => ?_) hb.symm rfl, nofun, nofun⟩
    have hk := hi.knows j pc hj
    cases pc with
    | register g => exact hk.1 hb
    | wait g => exact (hk hp).1 hb
    | blocked g => exact (hk hp).1.1 hb
    | _ => exact hp
  | some v =>
    simp only [State.finish, hb, Option.isNone_some, Bool.false_eq_true, if_false, Option.some.injEq] at h
    subst h
    refine ⟨ho, hi.counts, fun j pc hj => (hi.knows j pc hj).advance hb.symm id (by rw [hpc]; rfl) ?_,
      fun _ => Option.some_ne_none v, nofun⟩
    exact fun _ _ _ => ⟨nofun, nofun, nofun⟩

/-- **The access of the target keeps the invariant**, unless it misses a joiner. -/
theorem Inv.finish (hi : Inv call ctx s) (hok : ¬Missed s .target) (h : s.finish ctx s.target = some t)
    (hf : t.freed = false) : Inv call ctx t := by
  have ho := hi.state_iff
  cases hpc : s.target with
  | running => rw [hpc] at h; cases h
  | done => rw [hpc] at h; cases h
  | exit r =>
    rw [hpc] at h ho
    cases h
    refine ⟨ho, hi.counts, fun j pc hj => (hi.knows j pc hj).advance rfl id (by rw [hpc]; rfl) ?_, nofun, nofun⟩
    exact fun _ _ _ => ⟨nofun, nofun, nofun⟩
  | storeFinished =>
    rw [hpc] at h
    cases h
    refine ⟨by simp [TargetPc.over], hi.counts,
      fun j pc hj => (hi.knows j pc hj).advance rfl (fun _ => rfl) (by rw [hpc]; rfl) ?_, nofun, nofun⟩
    exact fun _ _ _ => ⟨nofun, nofun, nofun⟩
  | testWaiters => exact hi.testWaiters hpc hok (hpc ▸ h)
  | testButex => exact hi.testButex hpc (hpc ▸ h)
  | loadValue =>
    obtain ⟨v, hv⟩ := Option.ne_none_iff_exists'.mp (hi.loaded hpc)
    rw [hpc] at h ho
    simp only [State.finish, hv, Option.getD_some, Option.some.injEq] at h
    subst h
    refine ⟨ho, hi.counts, fun j pc hj => (hi.knows j pc hj).advance hv.symm id (by rw [hpc]; rfl) ?_, nofun, ?_⟩
    · exact fun _ _ _ => ⟨nofun, nofun, nofun⟩
    · rintro w ⟨⟩
      rfl
  | storeValue v =>
    have hv := hi.stored v hpc
    rw [hpc] at h ho
    simp only [State.finish, hv, Option.map_some, Option.some.injEq] at h
    subst h
    have hs : s.state = .finished := ho.mpr rfl
    exact ⟨ho, hi.counts, fun j pc hj => (hi.knows j pc hj).bump hv (by rw [hpc]; rfl) hs, nofun, nofun⟩
  | wakeFutex =>
    rw [hpc] at h ho
    cases h
    refine ⟨ho, wake_counts hi.counts, fun j pc hj => ?_, nofun, nofun⟩
    rcases wake_cases hj with rfl | ⟨hj, hno⟩
    · trivial
    · exact (hi.knows j pc hj).advance rfl id (by rw [hpc]; rfl)
        fun g hg _ => ⟨nofun, nofun, fun hx => absurd hx (hno g hg)⟩
  | wakeQueue =>
    rw [hpc] at h ho
    cases h
    refine ⟨ho, wake_counts hi.counts, fun j pc hj => ?_, nofun, nofun⟩
    rcases wake_cases hj with rfl | ⟨hj, hno⟩
    · trivial
    · have hk := hi.knows j pc hj
      refine hk.advance rfl id (by rw [hpc]; rfl) fun g hg hc => ?_
      -- the pthreads have been woken before, the bthreads are woken now
      subst hg
      cases hx : ctx j with
      | bthread => exact absurd hx (hno g rfl)
      | pthread => exact absurd hpc ((hk hc).2.2.2 hx)
  | release =>
    rw [hpc] at h ho
    simp only [State.finish, Option.some.injEq] at h
    subst h
    rw [show s.drop true = _ from drop_eq hf]
    refine ⟨ho, hi.counts, fun j pc hj => (hi.knows j pc hj).advance rfl id (by rw [hpc]; rfl) ?_, nofun, nofun⟩
    rintro g rfl hc
    exact absurd hpc ((hi.knows j _ hj) hc).2.1

end Steps

/-! ## Every run -/

section Runs

variable [DecidableEq J] {c : Creator} {call : J → Call} {ctx : J → Context} {s t : State J R} {l : Label J R}

omit [DecidableEq J] in
/-- The target's function ends. -/
theorem Inv.exit {r r' : Option R} (hi : Inv call ctx s) (ht : s.target = .running) :
    Inv call ctx { s with result := r', target := .exit r } := by
  have ho := hi.state_iff
  rw [ht] at ho
  refine ⟨ho, hi.counts, fun j pc hj => (hi.knows j pc hj).advance rfl id (by rw [ht]; rfl) ?_, nofun, nofun⟩
  exact fun _ _ _ => ⟨nofun, nofun, nofun⟩

/-- A join is called. -/
theorem Inv.start {j : J} (hi : Inv call ctx s) (hj : s.joiner j = none) {pc : JoinPc R} (hr : pc.registered = false)
    (hk : ∀ t : State J R, Knows t (call j) (ctx j) pc) : Inv call ctx (s.goto j pc) := by
  have hne : ∀ i, i ≠ j → (s.goto j pc).joiner i = s.joiner i := fun i hi => Function.update_of_ne hi _ _
  refine ⟨hi.state_iff, ?_, fun i pci hpci => ?_, hi.loaded, hi.stored⟩
  · refine counts_stay hi.counts hne ?_
    simp [State.goto, hj, hr]
  · by_cases he : i = j
    · subst he
      simp only [State.goto, Function.update_self, Option.some.injEq] at hpci
      subst hpci
      exact hk _
    · rw [hne i he] at hpci
      exact (hi.knows i pci hpci).congr rfl rfl fun _ h => h

/-- **Every step keeps the invariant**, unless the target misses a joiner, or the step is the end of the `TaskMeta`. -/
theorem inv_step (hi : Inv call ctx s) (hok : ¬Missed s l) (h : step call ctx s l = some t) (hf : t.freed = false) :
    Inv call ctx t := by
  have hblocked : ∀ pc : JoinPc R, pc.isBlocked = true → pc.registered = true := by
    intro pc hpc
    cases pc <;> first | rfl | cases hpc
  have hwait : ∀ pc : JoinPc R, pc.isWait = true → pc.registered = true := by
    intro pc hpc
    cases pc <;> first | rfl | cases hpc
  cases l with
  | call j =>
    simp only [step, Option.isNone_iff_eq_none, Option.ite_none_right_eq_some, Option.some.injEq] at h
    obtain ⟨hj, rfl⟩ := h
    cases hc : call j with
    | bthreadJoin =>
      rw [show s.freed = false from hf]
      exact hi.start hj rfl fun _ => trivial
    | taskJoin => exact hi.start hj rfl fun _ => hc
  | joiner j =>
    obtain ⟨pc, hj, ht⟩ := Option.bind_eq_some_iff.mp h
    exact hi.join hj ht hf
  | entryReturns r =>
    simp only [step] at h
    cases hr : s.target <;> rw [hr] at h <;> cases h
    exact hi.exit hr
  | exitCalled r =>
    simp only [step] at h
    cases hr : s.target <;> rw [hr] at h <;> cases h
    exact hi.exit hr
  | target => exact hi.finish hok h hf
  | interrupt j =>
    simp only [step, Option.ite_none_right_eq_some] at h
    exact hi.cut hblocked h.2
  | alreadyWaiting j =>
    simp only [step, Option.ite_none_right_eq_some] at h
    exact hi.cut hwait h.2
  | shutdown | cache full =>
    cases h
    exact ⟨hi.state_iff, hi.counts, hi.knows, hi.loaded, hi.stored⟩
  | requeue j =>
    simp only [step, Option.ite_none_right_eq_some] at h
    exact hi.cut hblocked h.2
  | staleWake j =>
    simp only [step, Option.ite_none_right_eq_some] at h
    exact hi.cut hblocked h.2

omit [DecidableEq J] in
theorem inv_created : Inv call ctx (State.created c : State J R) where
  state_iff := by simp [State.created, TargetPc.over]
  counts := Counts.zero nofun
  knows := nofun
  loaded := nofun
  stored := nofun

/-- An access of a joiner frees the `TaskMeta` when it releases the last reference. -/
theorem join_freed {c : Call} {x : Context} {j : J} {pc : JoinPc R} (h : s.join c x j pc = some t) :
    t.freed = s.freed ∨ s.refCount = 1 ∧ ∃ v, pc = .release v ∧ t = s.dealloc.goto j (.returned v) := by
  cases pc with
  | release v =>
    cases h
    obtain ⟨hone, hdrop⟩ | hdrop := drop_cases s (c.toCache x)
    · exact .inr ⟨hone, v, rfl, by rw [hdrop]⟩
    · exact .inl (by rw [hdrop]; rfl)
  | _ =>
    simp only [State.join, Option.some.injEq, reduceCtorEq] at h <;> subst h <;> exact .inl rfl

omit [DecidableEq J] in
/-- An access of the target frees the `TaskMeta` when it releases the last reference. -/
theorem finish_freed (h : s.finish ctx s.target = some t) :
    t.freed = s.freed ∨ s.refCount = 1 ∧ s.target = .release ∧ t = { s.dealloc with target := .done } := by
  cases hpc : s.target with
  | release =>
    rw [hpc] at h
    simp only [State.finish, Option.some.injEq] at h
    obtain ⟨hone, hdrop⟩ | hdrop := drop_cases s true <;> rw [hdrop] at h
    · exact .inr ⟨hone, rfl, h.symm⟩
    · exact .inl (by rw [← h])
  | _ =>
    rw [hpc] at h
    simp only [State.finish, Option.some.injEq, reduceCtorEq] at h <;> subst h <;> exact .inl rfl

/-- **How the `TaskMeta` is freed**: somebody releases the last reference. -/
theorem freed_cases (h : step call ctx s l = some t) :
    t.freed = s.freed ∨ s.refCount = 1 ∧
      ((∃ j v, l = .joiner j ∧ s.joiner j = some (.release v) ∧ t = s.dealloc.goto j (.returned v)) ∨
        l = .target ∧ s.target = .release ∧ t = { s.dealloc with target := .done }) := by
  cases l with
  | joiner j =>
    obtain ⟨pc, hj, h⟩ := Option.bind_eq_some_iff.mp h
    obtain hsame | ⟨hone, v, rfl, rfl⟩ := join_freed h
    · exact .inl hsame
    · exact .inr ⟨hone, .inl ⟨j, v, rfl, hj, rfl⟩⟩
  | target =>
    obtain hsame | ⟨hone, hpc, rfl⟩ := finish_freed h
    · exact .inl hsame
    · exact .inr ⟨hone, .inr ⟨rfl, hpc, rfl⟩⟩
  | call j =>
    obtain ⟨-, h⟩ := Option.ite_none_right_eq_some.mp h
    cases h
    exact .inl rfl
  | entryReturns r | exitCalled r =>
    obtain ⟨-, h⟩ := Option.ite_none_right_eq_some.mp h
    cases h
    exact .inl rfl
  | interrupt j | alreadyWaiting j | requeue j | staleWake j =>
    obtain ⟨-, h⟩ := Option.ite_none_right_eq_some.mp h
    obtain ⟨-, h⟩ := Option.ite_none_right_eq_some.mp h
    cases h
    exact .inl rfl
  | shutdown | cache full =>
    cases h
    exact .inl rfl

theorem freed_step (hs : s.freed = true) (h : step call ctx s l = some t) : t.freed = true := by
  obtain hsame | ⟨-, ⟨j, v, -, -, rfl⟩ | ⟨-, -, rfl⟩⟩ := freed_cases h
  · rw [hsame, hs]
  · rfl
  · rfl

/-- When nobody else is in a join, all joins are over. -/
theorem ended_of_freed (hs : s.freed = false) (ht : t.freed = true) (hok : ¬Premature s l)
    (h : step call ctx s l = some t) {i : J} {pc : JoinPc R} (hi : t.joiner i = some pc) : pc.ended = true := by
  obtain hsame | ⟨hone, ⟨j, v, rfl, hj, rfl⟩ | ⟨rfl, hpc, rfl⟩⟩ := freed_cases h
  · rw [hs, ht] at hsame
    cases hsame
  · by_cases hij : i = j
    · subst hij
      simp only [State.goto, Function.update_self, Option.some.injEq] at hi
      rw [← hi]
      rfl
    · simp only [State.goto, State.dealloc, Function.update_of_ne hij] at hi
      by_contra hpc
      exact hok ⟨⟨v, hj⟩, hone, i, hij, pc, hi, by simpa using hpc⟩
  · by_contra hend
    exact hok ⟨hpc, hone, i, pc, hi, by simpa using hend⟩

/-- Every `bthread_join` has returned, and what those that returned 0 have stored meets `p`. -/
def Over (call : J → Call) (p : Option R → Prop) (s : State J R) : Prop :=
  ∀ j pc, s.joiner j = some pc → call j = .bthreadJoin → pc.ended = true ∧ ∀ v, pc = .returned v → p v

variable {p : Option R → Prop}

theorem Over.goto {u : State J R} {j : J} {pc : JoinPc R} (h : Over call p s) (hu : u.joiner = s.joiner)
    (hpc : call j = .bthreadJoin → pc.ended = true ∧ ∀ v, pc = .returned v → p v) : Over call p (u.goto j pc) := by
  intro i pci hi hc
  by_cases hij : i = j
  · subst hij
    simp only [State.goto, Function.update_self, Option.some.injEq] at hi
    exact hi ▸ hpc hc
  · simp only [State.goto, Function.update_of_ne hij, hu] at hi
    exact h i pci hi hc

omit [DecidableEq J] in
theorem Over.not_bthreadJoin {j : J} {pc : JoinPc R} (h : Over call p s) (hj : s.joiner j = some pc)
    (hpc : pc.ended = false) : call j ≠ .bthreadJoin := by
  intro hc
  rw [(h j pc hj hc).1] at hpc
  cases hpc

theorem Over.join {c : Call} {x : Context} {j : J} {pc : JoinPc R} (h : Over call p s) (hj : s.joiner j = some pc)
    (hst : s.join c x j pc = some t) : Over call p t := by
  have hc : call j ≠ .bthreadJoin := h.not_bthreadJoin hj (by cases pc <;> first | rfl | cases hst)
  cases pc with
  | release v =>
    cases hst
    refine h.goto ?_ fun hcall => absurd hcall hc
    obtain ⟨-, hdrop⟩ | hdrop := drop_cases s (c.toCache x) <;> rw [hdrop]
    rfl
  | _ =>
    simp only [State.join, Option.some.injEq, reduceCtorEq] at hst <;> subst hst <;>
      exact h.goto rfl fun hcall => absurd hcall hc

theorem Over.cut {b : JoinPc R → Bool} {j : J} (h : Over call p s) (hb : ∀ pc, b pc = true → pc.ended = false)
    (hst : s.cut j b = some t) : Over call p t := by
  obtain ⟨hj, hst⟩ := Option.ite_none_right_eq_some.mp hst
  cases hst
  obtain ⟨pc, hj, hpc⟩ := (Option.any_eq_true _ _).mp hj
  exact h.goto rfl fun hcall => absurd hcall (h.not_bthreadJoin hj (hb pc hpc))

omit [DecidableEq J] in
theorem Over.wake {c : Context} (h : Over call p s) : Over call p (s.wake ctx c) := by
  intro j pc hj hc
  simp only [State.wake] at hj
  split at hj
  · next g hg => exact absurd hc (h.not_bthreadJoin hg rfl)
  · exact h j pc hj hc

omit [DecidableEq J] in
theorem Over.finish (h : Over call p s) (hst : s.finish ctx s.target = some t) : Over call p t := by
  cases hpc : s.target with
  | release =>
    rw [hpc] at hst
    cases hst
    have hsame : (s.drop true).joiner = s.joiner := by
      obtain ⟨-, hdrop⟩ | hdrop := drop_cases s true <;> rw [hdrop]
      rfl
    exact fun j pc hj => h j pc (hsame ▸ hj)
  | wakeFutex | wakeQueue =>
    rw [hpc] at hst
    cases hst
    exact h.wake
  | _ =>
    rw [hpc] at hst
    simp only [State.finish, Option.some.injEq, reduceCtorEq] at hst <;> subst hst <;> exact h

/-- **When the `TaskMeta` has been freed** no `bthread_join` gets any further. -/
theorem Over.step (h : Over call p s) (hs : s.freed = true) (hst : step call ctx s l = some t) : Over call p t := by
  have hblocked : ∀ pc : JoinPc R, pc.isBlocked = true → pc.ended = false := by
    intro pc hpc
    cases pc <;> first | rfl | cases hpc
  have hwait : ∀ pc : JoinPc R, pc.isWait = true → pc.ended = false := by
    intro pc hpc
    cases pc <;> first | rfl | cases hpc
  cases l with
  | call j =>
    obtain ⟨-, hst⟩ := Option.ite_none_right_eq_some.mp hst
    cases hst
    refine h.goto rfl fun hc => ?_
    rw [hc, hs]
    exact ⟨rfl, fun v hv => by cases hv⟩
  | joiner j =>
    obtain ⟨pc, hj, hst⟩ := Option.bind_eq_some_iff.mp hst
    exact h.join hj hst
  | target => exact h.finish hst
  | entryReturns r | exitCalled r =>
    obtain ⟨-, hst⟩ := Option.ite_none_right_eq_some.mp hst
    cases hst
    exact h
  | interrupt j | requeue j | staleWake j =>
    obtain ⟨-, hst⟩ := Option.ite_none_right_eq_some.mp hst
    exact h.cut hblocked hst
  | alreadyWaiting j =>
    obtain ⟨-, hst⟩ := Option.ite_none_right_eq_some.mp hst
    exact h.cut hwait hst
  | shutdown | cache full =>
    cases hst
    exact h

/-- **What a run keeps**: the invariant, until the `TaskMeta` is freed; from then on all calls of `bthread_join` are
over. -/
structure Kept (call : J → Call) (ctx : J → Context) (s : State J R) : Prop where
  inv : s.freed = false → Inv call ctx s
  ended : s.freed = true → Over call (fun _ => True) s

theorem Kept.step (hk : Kept call ctx s) (hok : ¬Missed s l) (hlast : ¬Premature s l)
    (h : step call ctx s l = some t) : Kept call ctx t := by
  refine ⟨fun ht => ?_, fun ht => ?_⟩
  · have hs : s.freed = false := by
      by_contra hs
      rw [freed_step (by simpa using hs) h] at ht
      cases ht
    exact inv_step (hk.inv hs) hok h ht
  · cases hs : s.freed with
    | false => exact fun i pc hi _ => ⟨ended_of_freed hs ht hlast h hi, fun _ _ => trivial⟩
    | true => exact (hk.ended hs).step hs h

/-- Nobody has released a reference. -/
def State.Unreleased (s : State J R) : Prop := s.target ≠ .done ∧ ∀ i v, s.joiner i ≠ some (.returned v)

theorem State.Unreleased.of_goto {u : State J R} {j : J} {p : JoinPc R} (h : (u.goto j p).Unreleased)
    (hu : u.joiner = s.joiner) (ht : u.target = s.target) (hj : ∀ v, s.joiner j ≠ some (.returned v)) :
    s.Unreleased := by
  refine ⟨fun hd => h.1 (ht.trans hd), fun i v hi => ?_⟩
  by_cases hij : i = j
  · exact hj v (hij ▸ hi)
  · refine h.2 i v ?_
    simp only [State.goto, Function.update_of_ne hij, hu]
    exact hi

omit [DecidableEq J] in
theorem State.Unreleased.of_wake {c : Context} (h : (s.wake ctx c).Unreleased) : s.Unreleased := by
  refine ⟨h.1, fun i v hi => h.2 i v ?_⟩
  simp only [State.wake, hi]

/-- A step after which nobody has released a reference has not released one. -/
theorem unreleased_step (h : step call ctx s l = some t) (ht : t.Unreleased) :
    s.Unreleased ∧ t.refCount = s.refCount := by
  cases l with
  | call j =>
    obtain ⟨hj, h⟩ := Option.ite_none_right_eq_some.mp h
    cases h
    exact ⟨State.Unreleased.of_goto ht rfl rfl fun v hv => by simp [hv] at hj, rfl⟩
  | joiner j =>
    obtain ⟨pc, hj, h⟩ := Option.bind_eq_some_iff.mp h
    cases pc with
    | release v =>
      cases h
      exact absurd (by simp [State.goto]) (ht.2 j v)
    | _ =>
      simp only [State.join, Option.some.injEq, reduceCtorEq] at h <;> subst h <;>
        exact ⟨State.Unreleased.of_goto ht rfl rfl fun v hv => by simp [hj] at hv, rfl⟩
  | target =>
    simp only [step] at h
    cases hpc : s.target with
    | release =>
      rw [hpc] at h
      cases h
      exact absurd rfl ht.1
    | wakeFutex | wakeQueue =>
      rw [hpc] at h
      cases h
      exact ⟨⟨by simp [hpc], (State.Unreleased.of_wake (s := s) ⟨by simp [State.wake, hpc], ht.2⟩).2⟩, rfl⟩
    | _ =>
      rw [hpc] at h
      simp only [State.finish, Option.some.injEq, reduceCtorEq] at h <;> subst h <;>
        exact ⟨⟨by simp [hpc], ht.2⟩, rfl⟩
  | entryReturns r | exitCalled r =>
    obtain ⟨hpc, h⟩ := Option.ite_none_right_eq_some.mp h
    cases h
    refine ⟨⟨fun hd => ?_, ht.2⟩, rfl⟩
    rw [hd] at hpc
    cases hpc
  | interrupt j | alreadyWaiting j | requeue j | staleWake j =>
    obtain ⟨-, h⟩ := Option.ite_none_right_eq_some.mp h
    obtain ⟨hj, h⟩ := Option.ite_none_right_eq_some.mp h
    cases h
    refine ⟨State.Unreleased.of_goto ht rfl rfl fun v hv => ?_, rfl⟩
    rw [hv] at hj
    cases hj
  | shutdown | cache full =>
    cases h
    exact ⟨ht, rfl⟩

omit [DecidableEq J] in
/-- A join in progress, and nobody else who could call one: the target does not release the last reference. -/
theorem not_premature [Subsingleton J] (hs : s.Unreleased → s.refCount = 2 ∨ s.refCount = 0) : ¬Premature s l := by
  cases l with
  | joiner j =>
    rintro ⟨-, -, i, hij, -⟩
    exact hij (Subsingleton.elim i j)
  | target =>
    rintro ⟨hpc, hone, i, pc, hi, hend⟩
    have hun : s.Unreleased := by
      refine ⟨by simp [hpc], fun k v hk => ?_⟩
      rw [Subsingleton.elim k i, hi] at hk
      cases hk
      cases hend
    have href := hs hun
    omega
  | _ => exact id

/-- **No `bthread_join` is blocked once the target has been handled**, in any run in which no completion is missed and,
when there are several joins, the last reference is not released under one of them. -/
theorem not_blocked_after_finish (c : Creator) (call : J → Call) (ctx : J → Context) (s : State J R)
    (hs : Reach (system c call ctx) (fun s l => ¬Missed s l ∧ (Subsingleton J ∨ ¬Premature s l)) s) (j : J) :
    ¬(Blocked call s j ∧ s.target = .done) := by
  have href (s : State J R) (hs : Reach (system c call ctx) (fun s l => ¬Missed s l ∧
      (Subsingleton J ∨ ¬Premature s l)) s) : s.Unreleased → s.refCount = 2 ∨ s.refCount = 0 := by
    refine hs.invariant (I := fun s => s.Unreleased → s.refCount = 2 ∨ s.refCount = 0) (fun s hs _ => ?_)
      fun s t l hi _ h ht => ?_
    · cases hs
      cases c
      · exact .inl rfl
      · exact .inr rfl
    · obtain ⟨hun, hsame⟩ := unreleased_step h ht
      rw [hsame]
      exact hi hun
  have hk : Kept call ctx s := by
    refine hs.invariant_of href ?_ fun s t l href hk hok h => ?_
    · rintro _ rfl
      exact ⟨fun _ => inv_created, nofun⟩
    · obtain ⟨hmissed, hone | hlast⟩ := hok
      · exact hk.step hmissed (not_premature href) h
      · exact hk.step hmissed hlast h
  rintro ⟨⟨hc, g, hj⟩, hd⟩
  cases hf : s.freed with
  | false => exact ((hk.inv hf).knows j _ hj hc).2.2.1 hd
  | true => cases (hk.ended hf j _ hj hc).1

/-- A joiner that registers before the target ends, and is woken. -/
theorem not_blocked_after_wake : ∃ s : State Unit ℕ, s.target = .done ∧ s.joiner () = some .leave ∧
    ¬(Blocked (fun _ => .bthreadJoin) s () ∧ s.target = .done) := by
  have himp : ∀ (s : State Unit ℕ) l, ¬(s.target = .testWaiters ∧ s.joinWaiters ≤ 0) →
      ¬Missed s l ∧ (Subsingleton Unit ∨ ¬Premature s l) := by
    intro s l hno
    refine ⟨?_, .inl inferInstance⟩
    cases l with
    | target => exact fun hm => hno ⟨hm.1, hm.2.1⟩
    | _ => exact not_false
  exact ⟨_, rfl, rfl, not_blocked_after_finish .bthreadCreate _ (fun _ => .bthread) _
    (reach_exec himp (.init rfl) (show exec (system .bthreadCreate (fun _ => .bthreadJoin) fun _ => .bthread) _
      (.call () :: List.replicate 6 (.joiner ()) ++ .entryReturns (some 7) :: List.replicate 9 .target) =
        some _ from rfl)
      (by decide)) ()⟩

end Runs

/-! ## A completion that is missed -/

/-- The target ends between the joiner's test of the state and its increment of `join_waiters`. -/
def missedRun : List (Label Unit ℕ) :=
  .call () :: List.replicate 4 (.joiner ()) ++ .entryReturns (some 7) :: List.replicate 4 .target ++
    List.replicate 2 (.joiner ())

/-- **The joiner is blocked after the target has been handled.** -/
theorem missed_completion : ∃ s,
    exec (system .bthreadCreate (fun _ => .bthreadJoin) fun _ => .bthread)
      (.created .bthreadCreate) missedRun = some s ∧
      Reachable (system .bthreadCreate (fun _ => .bthreadJoin) fun _ => .bthread) s ∧
      Blocked (fun _ => .bthreadJoin) s () ∧ s.target = .done := by
  refine ⟨_, rfl, reachable_exec (.init rfl) (show exec _ _ missedRun = some _ from rfl), ⟨rfl, 0, rfl⟩, rfl⟩

/-- Two joins from pthreads, both past `DecodeId`: the first releases the last reference, and the second finds a
`TaskMeta` that is `READY`, with no join butex. -/
def freedRun : List (Label Bool ℕ) :=
  [.call true, .joiner true, .call false] ++ List.replicate 3 (.joiner false) ++ .entryReturns (some 7) ::
    List.replicate 4 .target ++ List.replicate 3 (.joiner false) ++ List.replicate 5 (.joiner true)

/-- **The second join is blocked after the target has been handled**, though no completion was missed. -/
theorem blocked_after_free : ∃ s : State Bool ℕ,
    Reach (system .bthreadCreate (fun _ => .bthreadJoin) fun _ => .pthread) (fun s l => ¬Missed s l) s ∧
      Blocked (fun _ => .bthreadJoin) s true ∧ s.target = .done := by
  have himp : ∀ (s : State Bool ℕ) l, (s.target = .testWaiters →
      s.joiner true = some .createButex ∧ s.joiner false = some (.testState 0)) → ¬Missed s l := by
    intro s l hwhere
    cases l with
    | target =>
      rintro ⟨hpc, -, j, g, hj⟩
      obtain ⟨htrue, hfalse⟩ := hwhere hpc
      cases j
      · rw [hfalse] at hj
        cases hj
      · rw [htrue] at hj
        cases hj
    | _ => exact id
  exact ⟨_, reach_exec himp (.init rfl) (show exec _ _ freedRun = some _ from rfl) (by decide), ⟨rfl, 0, rfl⟩, rfl⟩

end Cothread.Join
