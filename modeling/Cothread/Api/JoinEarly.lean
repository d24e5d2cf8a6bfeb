import Cothread.Api.JoinMissed

/-!
# Joins that return before the target has finished

Neither join tests the state again after its wait. A wait that ends early, or that `Task::join` skips since `spawn`
created no join butex, ends the join with the target still running; and a join that comes to read the result after
another one has released the last reference finds what `DeallocTaskMeta` has left there (`joined_early`). While waits
are cut short or skipped only after the target has stored `FINISHED`, and the last reference is not released under
another join, a join that has returned found the target finished, and `bthread_join` stored its final result
(`finished_of_returned`).
-/

namespace Cothread.Join

open Run

variable {J R : Type*}

/-- **Joining means finished**: when a join has returned, the target has stored `FINISHED`, and the value that
`bthread_join` stored is the result of the target. Both are still there unless the `TaskMeta` has been freed. -/
def JoinedFinished (call : J → Call) (s : State J R) : Prop :=
  ∀ j v, s.joiner j = some (.returned v) → ∃ r, s.outcome = some r ∧ (call j = .bthreadJoin → v = r) ∧
    (s.freed = false → s.state = .finished ∧ s.result = r)

/-- The step ends a wait that nobody woke, or skips the wait. -/
def CutShort [DecidableEq J] (ctx : J → Context) (s : State J R) : Label J R → Bool
  | .interrupt _ | .alreadyWaiting _ | .requeue _ | .staleWake _ => true
  | .joiner j => match s.joiner j with
    | some (.wait _) => decide (ctx j = .bthread ∧ s.running = false)
    | some .taskLoadButex => s.joinButex.isNone
    | _ => false
  | _ => false

/-! ## The invariant -/

/-- What a joiner has found out about the target. -/
def Found (s : State J R) (call : Call) : JoinPc R → Prop
  | .readGeneration | .taskReadGeneration => s.joinButex ≠ none
  | .testState g | .register g | .wait g | .blocked g => s.joinButex = some g ∨ s.state = .finished
  | .leave | .readResult => s.state = .finished
  | .release v | .returned v => s.state = .finished ∧ (call = .bthreadJoin → v = s.result)
  | .taskTestState | .taskRegister | .taskLoadButex => call = .taskJoin
  | .checkButex | .createButex | .notFound => True

structure Sound (call : J → Call) (s : State J R) : Prop where
  state_iff : s.state = .finished ↔ s.target.over = true
  outcome : s.outcome = if s.target.over then some s.result else none
  found : ∀ j pc, s.joiner j = some pc → Found s (call j) pc

section Steps

variable {call : J → Call} {ctx : J → Context} {s t : State J R} {j : J} {pc : JoinPc R}

/-- What was found stays true while finishing is for good and the butex changes only when the target has finished. -/
theorem Found.mono {c : Call} (h : Found s c pc) (hs : s.state = .finished → t.state = .finished ∧ t.result = s.result)
    (hb : ∀ v, s.joinButex = some v → t.joinButex = some v ∨ t.joinButex ≠ none ∧ t.state = .finished) :
    Found t c pc := by
  have hnone : s.joinButex ≠ none → t.joinButex ≠ none := by
    intro hne
    obtain ⟨v, hv⟩ := Option.ne_none_iff_exists'.mp hne
    rcases hb v hv with h | h
    · rw [h]; exact Option.some_ne_none v
    · exact h.1
  have hgen : ∀ g, s.joinButex = some g ∨ s.state = .finished → t.joinButex = some g ∨ t.state = .finished := by
    rintro g (h | h)
    · exact (hb g h).imp_right And.right
    · exact Or.inr (hs h).1
  cases pc with
  | readGeneration | taskReadGeneration => exact hnone h
  | testState g | register g | wait g | blocked g => exact hgen g h
  | leave | readResult => exact (hs h).1
  | release v | returned v => exact ⟨(hs h.1).1, fun hc => (h.2 hc).trans (hs h.1).2.symm⟩
  | taskTestState | taskRegister | taskLoadButex => exact h
  | checkButex | createButex | notFound => trivial

theorem Sound.outcome_of (hi : Sound call s) (h : s.target.over = true) : s.outcome = some s.result := by
  rw [hi.outcome, if_pos h]

theorem Sound.outcome_eq_none (hi : Sound call s) (h : s.state ≠ .finished) : s.outcome = none := by
  rw [hi.outcome, if_neg fun hover => h (hi.state_iff.mpr hover)]

variable [DecidableEq J]

/-- A joiner does not change what the target does. -/
theorem join_target {c : Call} {x : Context} (h : s.join c x j pc = some t) :
    t.target = s.target ∧ t.outcome = s.outcome := by
  cases pc with
  | release v =>
    cases h
    obtain ⟨-, hdrop⟩ | hdrop := drop_cases s (c.toCache x) <;> rw [hdrop] <;> exact ⟨rfl, rfl⟩
  | _ => simp only [State.join, Option.some.injEq, reduceCtorEq] at h <;> subst h <;> exact ⟨rfl, rfl⟩

/-- The next access of a joiner, and what it has found out then. -/
theorem join_found (hi : Sound call s) (hj : s.joiner j = some pc)
    (hok : CutShort ctx s (.joiner j) = true → s.state = .finished)
    (h : s.join (call j) (ctx j) j pc = some t) (hf : t.freed = false) :
    ∃ pc', t.joiner j = some pc' ∧ Found t (call j) pc' := by
  have hk := hi.found j pc hj
  cases pc <;> simp only [State.join, Option.some.injEq, reduceCtorEq] at h <;> subst h <;>
    refine ⟨_, Function.update_self .., ?_⟩
  case checkButex => cases hb : s.joinButex <;> simp [Found, State.goto, hb]
  case createButex => simp [Found, State.goto]
  case readGeneration =>
    obtain ⟨v, hv⟩ := Option.ne_none_iff_exists'.mp hk
    simp [Found, State.goto, hv]
  case testState g =>
    split
    · rename_i hf
      exact hf
    · exact hk
  case register g => exact hk
  case taskTestState =>
    split
    · rename_i hf
      exact ⟨hf, fun hc => absurd (hc.symm.trans hk) (by simp)⟩
    · exact hk
  case taskRegister => exact hk
  case taskLoadButex =>
    cases hb : s.joinButex with
    | none => simpa [Found, State.goto] using hok (by simp [CutShort, hj, hb])
    | some v => simp [Found, State.goto, hb]
  case taskReadGeneration =>
    obtain ⟨v, hv⟩ := Option.ne_none_iff_exists'.mp hk
    simp [Found, State.goto, hv]
  case wait g =>
    split
    · rename_i hw
      rcases hw with hc | hb
      · exact hok (by simp [CutShort, hj, hc])
      · exact hk.resolve_left hb
    · exact hk
  case leave =>
    cases hc : call j with
    | bthreadJoin => exact hk
    | taskJoin => exact ⟨hk, by simp⟩
  case readResult => exact ⟨hk, fun _ => rfl⟩
  case release v =>
    rw [show s.drop ((call j).toCache (ctx j)) = _ from drop_eq hf]
    exact hk

/-- The access of a joiner keeps the invariant, unless it ends or skips a wait too early. -/
theorem Sound.join (hi : Sound call s) (hj : s.joiner j = some pc)
    (hok : CutShort ctx s (.joiner j) = true → s.state = .finished)
    (h : s.join (call j) (ctx j) j pc = some t) (hf : t.freed = false) : Sound call t := by
  obtain ⟨ht, hst, hr, hne, hb⟩ := join_frame h hf
  obtain ⟨pc', hj', hk'⟩ := join_found hi hj hok h hf
  refine ⟨by rw [hst, ht]; exact hi.state_iff, by rw [hr, ht, (join_target h).2]; exact hi.outcome,
    fun i pci hpci => ?_⟩
  by_cases he : i = j
  · subst he
    rw [hj'] at hpci
    cases hpci
    exact hk'
  · rw [hne i he] at hpci
    exact (hi.found i pci hpci).mono (fun hf => ⟨hst.trans hf, hr⟩) fun v hv => Or.inl (hb v hv)

/-- A wait is cut short when the target has finished. -/
theorem Sound.cut {p : JoinPc R → Bool} (hi : Sound call s) (hf : s.state = .finished) (h : s.cut j p = some t) :
    Sound call t := by
  simp only [State.cut, Option.ite_none_right_eq_some, Option.some.injEq] at h
  obtain ⟨_, rfl⟩ := h
  refine ⟨hi.state_iff, hi.outcome, fun i pci hpci => ?_⟩
  by_cases he : i = j
  · subst he
    simp only [State.goto, Function.update_self, Option.some.injEq] at hpci
    subst hpci
    exact hf
  · rw [show (s.goto j .leave).joiner i = s.joiner i from Function.update_of_ne he _ _] at hpci
    exact (hi.found i pci hpci).mono (fun hf => ⟨hf, rfl⟩) fun v hv => Or.inl hv

omit [DecidableEq J] in
/-- The access of the target keeps the invariant. -/
theorem Sound.finish (hi : Sound call s) (h : s.finish ctx s.target = some t) (hf : t.freed = false) :
    Sound call t := by
  -- the target has finished, or the step does not touch the butex
  have hframe : ∀ u : State J R, (s.state = .finished → u.state = .finished ∧ u.result = s.result) →
      (∀ v, s.joinButex = some v → u.joinButex = some v ∨ u.joinButex ≠ none ∧ u.state = .finished) →
      u.joiner = s.joiner → ∀ j pc, u.joiner j = some pc → Found u (call j) pc := by
    intro u hs hb hj j pc hpc
    rw [hj] at hpc
    exact (hi.found j pc hpc).mono hs hb
  have hsame : ∀ v, s.joinButex = some v → s.joinButex = some v ∨ s.joinButex ≠ none ∧ s.state = .finished :=
    fun v => Or.inl
  have ho := hi.state_iff
  have hout := hi.outcome
  cases hpc : s.target with
  | running | done => rw [hpc] at h; cases h
  | exit r =>
    rw [hpc] at h ho hout
    cases h
    have hno : s.state ≠ .finished := fun hf => nomatch ho.mp hf
    exact ⟨ho, hout, hframe _ (fun hf => absurd hf hno) (fun v hv => Or.inl hv) rfl⟩
  | storeFinished =>
    rw [hpc] at h ho hout
    cases h
    exact ⟨by simp [TargetPc.over], rfl, hframe _ (fun _ => ⟨rfl, rfl⟩) (fun v hv => Or.inl hv) rfl⟩
  | testWaiters =>
    rw [hpc] at h ho hout
    cases h
    refine ⟨?_, by split <;> exact hout, hframe _ (fun hf => ⟨hf, rfl⟩) (fun v hv => Or.inl hv) rfl⟩
    simp only [ho.mpr rfl, true_iff]
    split <;> rfl
  | testButex =>
    rw [hpc] at h ho hout
    cases h
    refine ⟨?_, by split <;> exact hout, hframe _ (fun hf => ⟨hf, rfl⟩) (fun v hv => Or.inl hv) rfl⟩
    simp only [ho.mpr rfl, true_iff]
    split <;> rfl
  | loadValue =>
    rw [hpc] at h ho hout
    cases h
    exact ⟨ho, hout, hframe _ (fun hf => ⟨hf, rfl⟩) (fun v hv => Or.inl hv) rfl⟩
  | release =>
    rw [hpc] at h ho hout
    simp only [State.finish, Option.some.injEq] at h
    subst h
    rw [show s.drop true = _ from drop_eq hf]
    exact ⟨ho, hout, hframe _ (fun hf => ⟨hf, rfl⟩) (fun v hv => Or.inl hv) rfl⟩
  | storeValue v =>
    rw [hpc] at h ho hout
    cases h
    have hf : s.state = .finished := ho.mpr rfl
    refine ⟨ho, hout, hframe _ (fun hf => ⟨hf, rfl⟩) (fun w hw => Or.inr ⟨?_, hf⟩) rfl⟩
    simp [hw]
  | wakeFutex | wakeQueue =>
    rw [hpc] at h ho hout
    cases h
    have hf : s.state = .finished := ho.mpr rfl
    refine ⟨ho, hout, fun j pc hj => ?_⟩
    rcases wake_cases hj with rfl | ⟨hj, _⟩
    · exact hf
    · exact (hi.found j pc hj).mono (fun hf => ⟨hf, rfl⟩) fun v hv => Or.inl hv

omit [DecidableEq J] in
/-- The target's function ends. -/
theorem Sound.exit {r r' : Option R} (hi : Sound call s) (ht : s.target = .running) :
    Sound call { s with result := r', target := .exit r } := by
  have ho := hi.state_iff
  have hout := hi.outcome
  rw [ht] at ho hout
  have hno : s.state ≠ .finished := fun hf => nomatch ho.mp hf
  exact ⟨ho, hout, fun j pc hj => (hi.found j pc hj).mono (fun hf => absurd hf hno) fun v hv => Or.inl hv⟩

omit [DecidableEq J] in
theorem sound_created (c : Creator) : Sound call (State.created c : State J R) :=
  ⟨by simp [State.created, TargetPc.over], rfl, nofun⟩

end Steps

section Runs

variable [DecidableEq J] {c : Creator} {call : J → Call} {ctx : J → Context} {s t : State J R} {l : Label J R}

/-- A join is called. -/
theorem Sound.start {j : J} {pc : JoinPc R} (hi : Sound call s) (hk : ∀ t : State J R, Found t (call j) pc) :
    Sound call (s.goto j pc) := by
  refine ⟨hi.state_iff, hi.outcome, fun i pci hpci => ?_⟩
  by_cases he : i = j
  · subst he
    simp only [State.goto, Function.update_self, Option.some.injEq] at hpci
    subst hpci
    exact hk _
  · rw [show (s.goto j pc).joiner i = s.joiner i from Function.update_of_ne he _ _] at hpci
    exact (hi.found i pci hpci).mono (fun hf => ⟨hf, rfl⟩) fun v hv => Or.inl hv

/-- **Every step keeps the invariant**, unless it ends or skips a wait before the target has finished, or is the end of
the `TaskMeta`. -/
theorem sound_step (hi : Sound call s) (hok : CutShort ctx s l = true → s.state = .finished)
    (h : step call ctx s l = some t) (hf : t.freed = false) : Sound call t := by
  cases l with
  | call j =>
    simp only [step, Option.ite_none_right_eq_some, Option.some.injEq] at h
    obtain ⟨_, rfl⟩ := h
    cases hc : call j with
    | bthreadJoin =>
      rw [show s.freed = false from hf]
      exact hi.start fun _ => trivial
    | taskJoin => exact hi.start fun _ => hc
  | joiner j =>
    obtain ⟨pc, hj, ht⟩ := Option.bind_eq_some_iff.mp h
    exact hi.join hj hok ht hf
  | entryReturns r =>
    simp only [step] at h
    cases hr : s.target <;> rw [hr] at h <;> cases h
    exact hi.exit hr
  | exitCalled r =>
    simp only [step] at h
    cases hr : s.target <;> rw [hr] at h <;> cases h
    exact hi.exit hr
  | target => exact hi.finish h hf
  | interrupt j | alreadyWaiting j | requeue j | staleWake j =>
    simp only [step, Option.ite_none_right_eq_some] at h
    exact hi.cut (hok rfl) h.2
  | shutdown | cache full =>
    cases h
    exact ⟨hi.state_iff, hi.outcome, fun j pc hj => (hi.found j pc hj).mono (fun hf => ⟨hf, rfl⟩) fun v hv => Or.inl hv⟩

/-- Once the target has stored `FINISHED`, its outcome does not change. -/
theorem outcome_step (hover : s.target.over = true) (h : step call ctx s l = some t) :
    t.outcome = s.outcome ∧ t.target.over = true := by
  cases l with
  | call j =>
    obtain ⟨-, h⟩ := Option.ite_none_right_eq_some.mp h
    cases h
    exact ⟨rfl, hover⟩
  | joiner j =>
    obtain ⟨pc, hj, h⟩ := Option.bind_eq_some_iff.mp h
    exact ⟨(join_target h).2, by rw [(join_target h).1, hover]⟩
  | target =>
    simp only [step] at h
    cases hpc : s.target with
    | running | exit r | storeFinished =>
      rw [hpc] at hover
      cases hover
    | done =>
      rw [hpc] at h
      cases h
    | testWaiters | testButex =>
      rw [hpc] at h
      cases h
      refine ⟨rfl, ?_⟩
      split <;> rfl
    | release =>
      rw [hpc] at h
      cases h
      obtain ⟨-, hdrop⟩ | hdrop := drop_cases s true <;> rw [hdrop] <;> exact ⟨rfl, rfl⟩
    | _ =>
      rw [hpc] at h
      cases h
      exact ⟨rfl, rfl⟩
  | entryReturns r | exitCalled r =>
    obtain ⟨hpc, h⟩ := Option.ite_none_right_eq_some.mp h
    cases hr : s.target with
    | running =>
      rw [hr] at hover
      cases hover
    | _ =>
      rw [hr] at hpc
      cases hpc
  | interrupt j | alreadyWaiting j | requeue j | staleWake j =>
    obtain ⟨-, h⟩ := Option.ite_none_right_eq_some.mp h
    obtain ⟨-, h⟩ := Option.ite_none_right_eq_some.mp h
    cases h
    exact ⟨rfl, hover⟩
  | shutdown | cache full =>
    cases h
    exact ⟨rfl, hover⟩

/-- The `TaskMeta` has been freed: the outcome is known, and every `bthread_join` has stored it. -/
structure Settled (call : J → Call) (s : State J R) (r : Option R) : Prop where
  outcome : s.outcome = some r
  target : s.target.over = true
  ended : Over call (· = r) s

/-- **What is true when the `TaskMeta` is freed.** -/
theorem Sound.settled (hi : Sound call s) (hlast : ¬Premature s l) (hs : s.freed = false) (ht : t.freed = true)
    (h : step call ctx s l = some t) : Settled call t s.result := by
  have hend (i : J) (pc : JoinPc R) (hpc : t.joiner i = some pc) : pc.ended = true :=
    ended_of_freed hs ht hlast h hpc
  obtain hsame | ⟨-, ⟨j, v, rfl, hj, rfl⟩ | ⟨rfl, hpc, rfl⟩⟩ := freed_cases h
  · rw [hs, ht] at hsame
    cases hsame
  · obtain ⟨hfinished, hv⟩ := hi.found j _ hj
    have hover := hi.state_iff.mp hfinished
    refine ⟨by rw [← hi.outcome_of hover]; rfl, hover, fun i pc hpc hc => ⟨hend i pc hpc, fun u hu => ?_⟩⟩
    subst hu
    by_cases hij : i = j
    · subst hij
      simp only [State.goto, Function.update_self, Option.some.injEq, JoinPc.returned.injEq] at hpc
      exact hpc ▸ hv hc
    · simp only [State.goto, State.dealloc, Function.update_of_ne hij] at hpc
      exact (hi.found i _ hpc).2 hc
  · have hover : s.target.over = true := by rw [hpc]; rfl
    refine ⟨by rw [← hi.outcome_of hover]; rfl, rfl, fun i pc hpc hc => ⟨hend i pc hpc, fun u hu => ?_⟩⟩
    subst hu
    exact (hi.found i _ hpc).2 hc

/-- **What a run keeps.** -/
structure Joins (call : J → Call) (s : State J R) : Prop where
  sound : s.freed = false → Sound call s
  settled : s.freed = true → ∃ r, Settled call s r

theorem Joins.step (hk : Joins call s) (hok : CutShort ctx s l = true → s.outcome ≠ none) (hlast : ¬Premature s l)
    (h : step call ctx s l = some t) : Joins call t := by
  cases hs : s.freed with
  | false =>
    have hi := hk.sound hs
    refine ⟨fun ht => sound_step hi (fun hcut => ?_) h ht, fun ht => ⟨s.result, hi.settled hlast hs ht h⟩⟩
    by_contra hstate
    exact hok hcut (hi.outcome_eq_none hstate)
  | true =>
    obtain ⟨r, hr⟩ := hk.settled hs
    have ht := freed_step hs h
    obtain ⟨houtcome, hover⟩ := outcome_step hr.target h
    refine ⟨fun hf => ?_, fun _ => ⟨r, houtcome.trans hr.outcome, hover, hr.ended.step hs h⟩⟩
    rw [ht] at hf
    cases hf

/-- **Joining means finished** in any run in which waits are cut short or skipped only when the target has finished, and
the last reference is not released under another join. -/
theorem finished_of_returned (c : Creator) (call : J → Call) (ctx : J → Context) (s : State J R)
    (hs : Reach (system c call ctx) (fun s l => (CutShort ctx s l = true → s.outcome ≠ none) ∧ ¬Premature s l) s) :
    JoinedFinished call s := by
  have hk : Joins call s := by
    refine hs.invariant ?_ fun _ _ _ hk hok h => hk.step hok.1 hok.2 h
    rintro _ rfl
    exact ⟨fun _ => sound_created c, nofun⟩
  intro j v hj
  cases hf : s.freed with
  | false =>
    have hi := hk.sound hf
    obtain ⟨hfinished, hv⟩ := hi.found j _ hj
    exact ⟨s.result, hi.outcome_of (hi.state_iff.mp hfinished), hv, fun _ => ⟨hfinished, rfl⟩⟩
  | true =>
    obtain ⟨r, hr⟩ := hk.settled hf
    exact ⟨r, hr.outcome, fun hc => (hr.ended j _ hj hc).2 v rfl, nofun⟩

/-- A joiner that waits, is woken and returns. -/
theorem finished_of_woken : ∃ s : State Unit ℕ, s.joiner () = some (.returned (some 7)) ∧
    JoinedFinished (fun _ => .bthreadJoin) s := by
  have himp : ∀ (s : State Unit ℕ) l, (CutShort (fun _ => .bthread) s l = true → s.outcome ≠ none) ∧
      (s.target = .release → s.refCount ≠ 1) →
      (CutShort (fun _ => .bthread) s l = true → s.outcome ≠ none) ∧ ¬Premature s l := by
    rintro s l ⟨hcut, hone⟩
    refine ⟨hcut, ?_⟩
    cases l with
    | target => exact fun hp => hone hp.1 hp.2.1
    | joiner j =>
      rintro ⟨-, -, i, hij, -⟩
      exact hij rfl
    | _ => exact id
  exact ⟨_, rfl, finished_of_returned .bthreadCreate _ (fun _ => .bthread) _
    (reach_exec himp (.init rfl)
      (show exec (system .bthreadCreate (fun _ => .bthreadJoin) fun _ => .bthread) _
        (.call () :: List.replicate 6 (.joiner ()) ++ .entryReturns (some 7) :: List.replicate 9 .target ++
          List.replicate 3 (.joiner ())) = some _ from rfl) (by decide))⟩

end Runs

/-! ## Joins that return too early, or too late -/

/-- Two joins from pthreads. Both are woken, and the first has released the last reference when the second comes to
read the result. -/
def lateRun : List (Label Bool ℕ) :=
  [.call true, .call false] ++ List.replicate 6 (.joiner true) ++ List.replicate 5 (.joiner false) ++
    .entryReturns (some 7) :: List.replicate 9 .target ++ List.replicate 3 (.joiner true) ++
      List.replicate 3 (.joiner false)

/-- `Task::join` of a task made by `spawn`, and `bthread_join` from a pthread whose futex is interrupted: the target is
still running. The second of two `bthread_join`s returns 0 and a null pointer: the `TaskMeta` is `READY` again. -/
theorem joined_early :
    (∃ s : State Unit ℕ, Reachable (system .spawn (fun _ => .taskJoin) fun _ => .bthread) s ∧
      s.state ≠ .finished ∧ ¬JoinedFinished (fun _ => .taskJoin) s) ∧
    (∃ s : State Unit ℕ, Reachable (system .bthreadCreate (fun _ => .bthreadJoin) fun _ => .pthread) s ∧
      s.state ≠ .finished ∧ ¬JoinedFinished (fun _ => .bthreadJoin) s) ∧
    (∃ s : State Bool ℕ, Reachable (system .bthreadCreate (fun _ => .bthreadJoin) fun _ => .pthread) s ∧
      s.joiner false = some (.returned none) ∧ s.outcome = some (some 7) ∧ s.state ≠ .finished ∧
      ¬JoinedFinished (fun _ => .bthreadJoin) s) := by
  refine ⟨?_, ?_, ?_⟩
  · refine ⟨_, reachable_exec (.init rfl) (show exec _ _ (.call () :: List.replicate 5 (.joiner ())) = some _ from rfl),
      nofun, fun h => ?_⟩
    obtain ⟨r, hr, -⟩ := h () none rfl
    cases hr
  · refine ⟨_, reachable_exec (.init rfl) (show exec _ _ (.call () :: List.replicate 6 (.joiner ()) ++ .interrupt () ::
      List.replicate 3 (.joiner ())) = some _ from rfl), nofun, fun h => ?_⟩
    obtain ⟨r, hr, -⟩ := h () none rfl
    cases hr
  · refine ⟨_, reachable_exec (.init rfl) (show exec _ _ lateRun = some _ from rfl), rfl, rfl, nofun, fun h => ?_⟩
    obtain ⟨r, hr, hv, -⟩ := h false none rfl
    cases hr
    cases hv rfl

end Cothread.Join
