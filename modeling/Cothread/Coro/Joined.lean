import Cothread.Coro.Lifetime
import Cothread.Coro.Recorded

/-!
# `Task::join` on a coroutine

`spawn_coro` gives its coroutine away and keeps a handle on the meta. `Task::join` on that handle waits until the meta
says `FINISHED`, and deletes the meta. The worker that has stored `FINISHED` reads the meta once more, in
`HandleTaskAfterRun`, and so does every worker that has come out of the coroutine before and is still in the
`RunCoroutine` of that time.

- **what a join has to wait for** (`no_use_after_join`): when a meta is deleted only once nothing leads to it
  (`Released`), no worker uses a deleted meta, and none is in a queue, whoever awaits whom;
- **when a join is too early** (`use_after_join_iff`): among coroutines that do not await one another, a meta that says
  `FINISHED` is used after its deletion, in some run, exactly when a worker has not come out of `RunCoroutine` or
  `HandleTaskAfterRun` with it.
-/

namespace Cothread.Coro

open Run

variable {C W : Type*}

/-- The metas that the worker's next access reads or writes, when `current_coro_meta_` is `current`. -/
def WorkerPc.metas (current : Option C) : WorkerPc C → List C
  | .storeRunning m | .enter m | .resume m | .test m | .storeFinished m => [m]
  | .storeState .. | .publish .. => current.toList
  | _ => []

/-- Coroutines, and the handles on them that are joined. -/
structure Joins (C W : Type*) where
  base : State C W
  handled : W → Option C  -- `HandleTaskAfterRun`: the meta that is read next
  seen : C → Bool  -- `Task::join` has found `is_done()`
  deleted : C → Bool

inductive JoinEvent (C W : Type*)
  | base (l : Label C W)
  | handle (w : W)
  | see (c : C)
  | delete (c : C)
  deriving DecidableEq

/-- A worker's next access uses the meta, or the meta is in a queue. -/
def Joins.Uses (a : Joins C W) (c : C) : Prop :=
  (∃ w, c ∈ (a.base.worker w).metas (a.base.current w) ∨ a.handled w = some c) ∨ 0 < a.base.queued c ∨ 0 < a.base.held c

/-- A meta that has been deleted is in use. -/
def Joins.Dangling (a : Joins C W) : Prop := ∃ c, a.deleted c = true ∧ a.Uses c

/-- The metas of which a step makes use are there. What the use of another meta does is not modelled. -/
def Joins.allows (a : Joins C W) : Label C W → Bool
  | .worker w => ((a.base.worker w).metas (a.base.current w)).all fun c => !a.deleted c
  | .pick w _ => (a.handled w).isNone
  | .wake m => !a.deleted m
  | _ => true

section Steps

variable [DecidableEq C] [DecidableEq W]

/-- A worker that leaves `RunCoroutine` goes on to `HandleTaskAfterRun`. -/
def Joins.after (a : Joins C W) (t : State C W) : Label C W → W → Option C
  | .worker w => if t.worker w = .idle then Function.update a.handled w (a.base.worker w).inside else a.handled
  | _ => a.handled

/-- One step. `spawn_coro` takes the `Task`, so that nobody awaits a coroutine that is joined. -/
def joinStep (parent : C → Option C) (a : Joins C W) : JoinEvent C W → Option (Joins C W)
  | .base l =>
    if a.allows l then (step parent a.base l).map fun t => { a with base := t, handled := a.after t l } else none
  | .handle w => match a.handled w with
    | some m => if a.deleted m then none else some { a with handled := Function.update a.handled w none }
    | none => none
  | .see c =>
    if parent c = none ∧ a.base.state c = .finished then some { a with seen := Function.update a.seen c true } else none
  | .delete c =>
    if a.seen c = true ∧ a.deleted c = false then some { a with deleted := Function.update a.deleted c true } else none

end Steps

/-- Coroutines that are joined. -/
def joins {C : Type*} (W : Type*) [DecidableEq C] [DecidableEq W] (parent : C → Option C) :
    System (Joins C W) (JoinEvent C W) where
  init a := a = ⟨.start, fun _ => none, fun _ => false, fun _ => false⟩
  step := joinStep parent

/-- Nothing leads to the meta: nothing leads to the coroutine, and no worker has the meta in its hands. -/
structure Released (a : Joins C W) (c : C) : Prop where
  forgotten : Forgotten a.base c
  storing : ∀ w, a.base.worker w ≠ .storeFinished c
  handled : ∀ w, a.handled w ≠ some c

/-- A meta is deleted only when nothing leads to it. -/
def Waits (a : Joins C W) : JoinEvent C W → Prop
  | .delete c => Released a c
  | _ => True

section Finite

variable [DecidableEq C] [Fintype C] [Fintype W]

instance (a : Joins C W) (c : C) : Decidable (Released a c) :=
  decidable_of_iff (Forgotten a.base c ∧ (∀ w, a.base.worker w ≠ .storeFinished c) ∧ ∀ w, a.handled w ≠ some c)
    ⟨fun ⟨h₁, h₂, h₃⟩ => ⟨h₁, h₂, h₃⟩, fun ⟨h₁, h₂, h₃⟩ => ⟨h₁, h₂, h₃⟩⟩

instance (a : Joins C W) (e : JoinEvent C W) : Decidable (Waits a e) :=
  match e with
  | .delete c => inferInstanceAs (Decidable (Released a c))
  | .base _ | .handle _ | .see _ => .isTrue trivial

end Finite

/-! ## What a join has to wait for -/

section Safe

variable [DecidableEq C] [DecidableEq W] {parent : C → Option C} {s t : State C W} {a b : Joins C W} {w v : W}
  {c m : C} {l : Label C W}

theorem joinStep_base (hst : joinStep parent a (.base l) = some b) : a.allows l = true ∧
    step parent a.base l = some b.base ∧ b.handled = a.after b.base l ∧ b.seen = a.seen ∧ b.deleted = a.deleted := by
  obtain ⟨hl, hst⟩ := Option.ite_none_right_eq_some.mp hst
  obtain ⟨t, ht, rfl⟩ := Option.map_eq_some_iff.mp hst
  exact ⟨hl, ht, rfl, rfl, rfl⟩

/-- A run with joins is a run of the coroutines. -/
theorem Reach.of_joins {ok : Joins C W → JoinEvent C W → Prop} (ha : Reach (joins W parent) ok a) :
    Reachable (system W parent) a.base := by
  induction ha with
  | init h =>
    cases h
    exact .init rfl
  | @step a b e _ _ hst ih =>
    cases e with
    | base l => exact .step ih trivial (joinStep_base hst).2.1
    | handle w =>
      simp only [joins, joinStep] at hst
      split at hst
      · obtain ⟨-, hst⟩ := Option.ite_none_left_eq_some.mp hst
        cases hst
        exact ih
      · cases hst
    | see c | delete c =>
      obtain ⟨-, hst⟩ := Option.ite_none_right_eq_some.mp hst
      cases hst
      exact ih

/-- What a step does with coroutines that are done, and with `FINISHED`. -/
structure Settles (s t : State C W) : Prop where
  frame : ∀ c, s.frame c = .final → t.frame c = .final
  state : ∀ c, t.state c = .finished → s.state c = .finished ∨ ∃ w, s.worker w = .storeFinished c
  storing : ∀ w c, t.worker w = .storeFinished c →
    s.worker w = .storeFinished c ∨ s.worker w = .test c ∧ s.frame c = .final

omit [DecidableEq W] in
/-- Another state than `FINISHED` is stored. -/
theorem finished_of_update {x : TaskState} (hx : x ≠ .finished) (h : Function.update s.state m x c = .finished) :
    s.state c = .finished := by
  by_cases hc : c = m
  · subst hc
    rw [Function.update_self] at h
    exact absurd h hx
  · rwa [Function.update_of_ne hc] at h

omit [DecidableEq C] in
/-- An access of a worker that stores another state, or none. -/
theorem Settles.of_update {pc : WorkerPc C} (hworker : t.worker = Function.update s.worker w pc)
    (hframe : ∀ c, s.frame c = .final → t.frame c = .final)
    (hstate : ∀ c, t.state c = .finished → s.state c = .finished)
    (hpc : ∀ c, pc ≠ .storeFinished c) : Settles s t := by
  refine ⟨hframe, fun c hc => .inl (hstate c hc), fun v c hv => ?_⟩
  rw [hworker, Function.update_apply] at hv
  split_ifs at hv
  · exact absurd hv (hpc c)
  · exact .inl hv

/-- **A worker's next access.** -/
theorem settles_workerStep (hi : Inv parent s) (hst : s.workerStep w (s.worker w) = some t) : Settles s t := by
  have hmine := hi.relies w
  cases hw : s.worker w with
  | idle | exec m x =>
    rw [hw] at hst
    cases hst
  | storeRunning m | enter m =>
    rw [hw] at hst
    cases hst
    exact .of_update rfl (fun _ => id) (fun c => finished_of_update (by simp)) (by simp)
  | storeAwaiter m x d | storeMeta m x d | leave m =>
    rw [hw] at hst
    cases hst
    exact .of_update rfl (fun _ => id) (fun _ => id) (by simp)
  | resume m =>
    rw [hw] at hst
    simp only [State.workerStep] at hst
    split_ifs at hst with hm
    · cases hst
      exact .of_update rfl (fun _ => id) (fun _ => id) (by simp)
    · cases hst
      exact .of_update rfl (fun _ => update_final hm) (fun _ => id) (by simp)
  | storeState m x k =>
    rw [hw] at hst hmine
    obtain ⟨y, hy, -⟩ := hmine.2
    simp only [State.workerStep, hy] at hst
    cases hst
    exact .of_update rfl (fun _ => id) (fun c => finished_of_update (by cases k <;> simp [Kind.stored])) (by simp)
  | publish m x k =>
    rw [hw] at hst hmine
    obtain ⟨y, hy, -⟩ := hmine.2
    have hx : s.frame x ≠ .final := by simp [hmine.1]
    simp only [State.workerStep, hy] at hst
    cases hst
    cases k with
    | yield => exact .of_update rfl (fun _ => update_final hx) (fun c => finished_of_update (by simp)) (by simp)
    | wait => exact .of_update rfl (fun _ => update_final hx) (fun _ => id) (by simp)
  | awaitReady m x d =>
    rw [hw] at hst hmine
    have hx : s.frame x ≠ .final := by simp [hmine.1]
    simp only [State.workerStep] at hst
    split_ifs at hst
    · cases hst
      exact .of_update rfl (fun _ => id) (fun _ => id) (by simp)
    · cases hst
      exact .of_update rfl (fun _ => update_final hx) (fun _ => id) (by simp)
  | readAwaiter m x =>
    rw [hw] at hst
    cases hst
    cases s.awaiter x with
    | none => exact .of_update rfl (fun _ => id) (fun _ => id) (by simp)
    | some p => exact .of_update rfl (fun _ => id) (fun _ => id) (by simp)
  | readMeta m x p =>
    rw [hw] at hst
    cases hst
    cases s.awaiterMeta x with
    | none => exact .of_update rfl (fun _ => id) (fun _ => id) (by simp)
    | some y => exact .of_update rfl (fun _ => id) (fun _ => id) (by simp)
  | transfer m x p =>
    rw [hw] at hst hmine
    cases hst
    have hp : s.frame p ≠ .final := by simp [hmine.2.2.1]
    exact .of_update rfl (fun _ => update_final hp) (fun _ => id) (by simp)
  | test m =>
    rw [hw] at hst
    cases hst
    refine ⟨fun _ => id, fun _ hc => .inl hc, fun v c hv => ?_⟩
    simp only [State.goto, Function.update_apply] at hv
    split_ifs at hv with hvw hm
    · cases hv
      exact .inr ⟨hvw ▸ hw, hm⟩
    · exact .inl hv
  | storeFinished m =>
    rw [hw] at hst
    cases hst
    refine ⟨fun _ => id, fun c hc => ?_, fun v c hv => ?_⟩
    · by_cases hcm : c = m
      · exact .inr ⟨w, hcm ▸ hw⟩
      · exact .inl (by simpa [State.goto, State.setState, hcm] using hc)
    · simp only [State.goto, Function.update_apply] at hv
      split_ifs at hv
      exact .inl hv

/-- **What one step does with coroutines that are done.** -/
theorem settles_step (hi : Inv parent s) (hst : step parent s l = some t) : Settles s t := by
  cases l with
  | spawn x =>
    obtain ⟨hx, hst⟩ := Option.ite_none_right_eq_some.mp hst
    cases hst
    exact ⟨fun _ => update_final (by simp [hx]), fun _ hc => .inl (finished_of_update (by simp) hc), fun _ _ => .inl⟩
  | pick w m =>
    obtain ⟨-, hst⟩ := Option.ite_none_right_eq_some.mp hst
    cases hst
    exact .of_update rfl (fun _ => id) (fun _ => id) (by simp)
  | suspend w k =>
    simp only [step] at hst
    split at hst
    · cases hst
      exact .of_update rfl (fun _ => id) (fun _ => id) (by simp)
    · cases hst
  | await w d =>
    simp only [step] at hst
    split at hst
    · obtain ⟨-, hst⟩ := Option.ite_none_right_eq_some.mp hst
      cases hst
      exact .of_update rfl (fun _ => id) (fun _ => id) (by simp)
    · cases hst
  | finish w =>
    simp only [step] at hst
    split at hst
    · next m x hw =>
      cases hst
      have hx := hi.relies w
      rw [hw] at hx
      exact .of_update rfl (fun _ => update_final (by simp [hx.1])) (fun _ => id) (by simp)
    · cases hst
  | worker w => exact settles_workerStep hi hst
  | wake m =>
    obtain ⟨-, hst⟩ := Option.ite_none_right_eq_some.mp hst
    cases hst
    exact ⟨fun _ => id, fun _ hc => .inl (finished_of_update (by simp) hc), fun _ _ => .inl⟩

omit [DecidableEq C] [DecidableEq W] in
/-- A meta that nothing leads to is not in use. -/
theorem Released.not_uses (h : Released a c) : ¬a.Uses c := by
  rintro (⟨w, hw | hw⟩ | hqueued | hheld)
  · have howes := h.forgotten.owes w
    have hstoring := h.storing w
    have hcurrent := h.forgotten.current w
    cases hpc : a.base.worker w <;> simp_all [WorkerPc.metas, WorkerPc.owes]
  · exact h.handled w hw
  · exact absurd h.forgotten.queued hqueued.ne'
  · exact absurd h.forgotten.held hheld.ne'

/-- What says that a coroutine is done is right. -/
structure Truthful (s : State C W) : Prop where
  state : ∀ c, s.state c = .finished → s.frame c = .final
  storing : ∀ w c, s.worker w = .storeFinished c → s.frame c = .final

theorem reachable_truthful (hs : Reachable (system W parent) s) : Truthful s := by
  refine hs.invariant_of (J := Inv parent) (fun _ => reachable_inv) ?_ fun s t l hi h _ hst => ?_
  · rintro _ rfl
    exact ⟨nofun, nofun⟩
  · have hsettles := settles_step hi hst
    constructor
    case state =>
      intro c hc
      apply hsettles.frame
      obtain hc | ⟨w, hw⟩ := hsettles.state c hc
      · exact h.state c hc
      · exact h.storing w c hw
    case storing =>
      intro w c hw
      apply hsettles.frame
      obtain hw | ⟨-, hc⟩ := hsettles.storing w c hw
      · exact h.storing w c hw
      · exact hc

omit [DecidableEq C] [DecidableEq W] in
/-- A worker inside `RunCoroutine` is going to ask whether its coroutine is done, or has done so. -/
theorem WorkerPc.mem_owes_of_inside {pc : WorkerPc C} (h : pc.inside = some c) :
    c ∈ pc.owes ∨ pc = .storeFinished c := by
  cases pc <;> cases h <;> simp [owes]

omit [DecidableEq C] [DecidableEq W] in
theorem Released.inside_ne (h : Released a c) (w : W) : (a.base.worker w).inside ≠ some c := by
  intro hw
  obtain howes | hstoring := WorkerPc.mem_owes_of_inside hw
  · exact h.forgotten.owes w howes
  · exact h.storing w hstoring

/-- **What one step preserves**, when nobody awaits the coroutine. -/
theorem Released.step {e : JoinEvent C W} (h : Released a c) (hi : Inv parent a.base) (hc : parent c = none)
    (hst : joinStep parent a e = some b) : Released b c := by
  cases e with
  | base l =>
    obtain ⟨-, hst, hhandled, -, -⟩ := joinStep_base hst
    constructor
    case forgotten =>
      refine h.forgotten.step hi (fun w hl => ?_) hst
      subst hl
      simp only [Coro.step] at hst
      split at hst
      · simp [hc] at hst
      · cases hst
    case storing =>
      intro w hw
      obtain hw | ⟨hw, -⟩ := (settles_step hi hst).storing w c hw
      · exact h.storing w hw
      · exact h.forgotten.owes w (by simp [hw, WorkerPc.owes])
    case handled =>
      intro w hw
      rw [hhandled] at hw
      cases l with
      | worker v =>
        simp only [Joins.after] at hw
        split_ifs at hw
        · rw [Function.update_apply] at hw
          split_ifs at hw
          · exact h.inside_ne v hw
          · exact h.handled w hw
        · exact h.handled w hw
      | _ => exact h.handled w hw
  | handle w =>
    simp only [joinStep] at hst
    split at hst
    · obtain ⟨-, hst⟩ := Option.ite_none_left_eq_some.mp hst
      cases hst
      refine ⟨h.forgotten, h.storing, fun v hv => ?_⟩
      simp only [Function.update_apply] at hv
      split_ifs at hv
      exact h.handled v hv
    · cases hst
  | see d | delete d =>
    obtain ⟨-, hst⟩ := Option.ite_none_right_eq_some.mp hst
    cases hst
    exact ⟨h.forgotten, h.storing, h.handled⟩

/-- What a join has seen is right, and it deletes what it has seen. -/
structure Handles (parent : C → Option C) (a : Joins C W) : Prop where
  parent : ∀ c, a.seen c = true → parent c = none
  final : ∀ c, a.seen c = true → a.base.frame c = .final
  seen : ∀ c, a.deleted c = true → a.seen c = true

theorem Reach.handles {ok : Joins C W → JoinEvent C W → Prop} (ha : Reach (joins W parent) ok a) :
    Handles parent a := by
  refine ha.invariant_of (J := fun a => Reachable (system W parent) a.base) (fun _ => Reach.of_joins) ?_
    fun a b e hs h _ hst => ?_
  · rintro _ rfl
    exact ⟨nofun, nofun, nofun⟩
  cases e with
  | base l =>
    obtain ⟨-, hst, -, hseen, hdeleted⟩ := joinStep_base hst
    constructor <;> intro c hc
    case parent => exact h.parent c (hseen ▸ hc)
    case final => exact (settles_step (reachable_inv hs) hst).frame c (h.final c (hseen ▸ hc))
    case seen => exact hseen ▸ h.seen c (hdeleted ▸ hc)
  | handle w =>
    simp only [joins, joinStep] at hst
    split at hst
    · obtain ⟨-, hst⟩ := Option.ite_none_left_eq_some.mp hst
      cases hst
      exact ⟨h.parent, h.final, h.seen⟩
    · cases hst
  | see d =>
    obtain ⟨⟨hd, hstate⟩, hst⟩ := Option.ite_none_right_eq_some.mp hst
    cases hst
    have hnew : ∀ c, Function.update a.seen d true c = true → c = d ∨ a.seen c = true := by
      intro c hc
      rw [Function.update_apply] at hc
      split_ifs at hc with hcd
      · exact .inl hcd
      · exact .inr hc
    constructor
    case parent =>
      intro c hc
      obtain rfl | hc := hnew c hc
      · exact hd
      · exact h.parent c hc
    case final =>
      intro c hc
      obtain rfl | hc := hnew c hc
      · exact (reachable_truthful hs).state c hstate
      · exact h.final c hc
    case seen =>
      intro c hc
      by_cases hcd : c = d
      · simp [hcd]
      · simpa [hcd] using h.seen c hc
  | delete d =>
    obtain ⟨⟨hd, -⟩, hst⟩ := Option.ite_none_right_eq_some.mp hst
    cases hst
    refine ⟨h.parent, h.final, fun c hc => ?_⟩
    by_cases hcd : c = d
    · exact hcd ▸ hd
    · exact h.seen c (by simpa [hcd] using hc)

/-- **What a join has to wait for**: in a run in which a meta is deleted only when nothing leads to it, no worker uses a
deleted meta, and none is in a queue. -/
theorem no_use_after_join (ha : Reach (joins W parent) Waits a) : ¬a.Dangling := by
  have hreleased : ∀ c, a.deleted c = true → Released a c := by
    refine ha.invariant_of (I := fun a => ∀ c, a.deleted c = true → Released a c)
      (J := fun a => Inv parent a.base ∧ Handles parent a)
      (fun a ha => ⟨reachable_inv (Reach.of_joins ha), Reach.handles ha⟩) ?_ ?_
    · rintro _ rfl c hc
      cases hc
    · rintro a b e ⟨hi, hh⟩ h hok hst c hc
      by_cases hac : a.deleted c = true
      · exact (h c hac).step hi (hh.parent c (hh.seen c hac)) hst
      · -- the meta is deleted by this step
        cases e with
        | delete d =>
          obtain ⟨⟨hd, -⟩, hb⟩ := Option.ite_none_right_eq_some.mp hst
          have hcd : c = d := by
            by_contra hcd
            cases hb
            exact hac (by simpa [hcd] using hc)
          subst hcd
          exact Released.step (e := .delete c) hok hi (hh.parent c hd) hst
        | base l => exact absurd ((joinStep_base hst).2.2.2.2 ▸ hc) hac
        | handle w =>
          simp only [joins, joinStep] at hst
          split at hst
          · obtain ⟨-, hst⟩ := Option.ite_none_left_eq_some.mp hst
            cases hst
            exact absurd hc hac
          · cases hst
        | see d =>
          obtain ⟨-, hst⟩ := Option.ite_none_right_eq_some.mp hst
          cases hst
          exact absurd hc hac
  rintro ⟨c, hc, huses⟩
  exact (hreleased c hc).not_uses huses

/-- The first awaits the second, is resumed by it, yields, comes to its end, and is joined when the workers have come
out. -/
theorem no_use_after_join_pair : ∃ a : Joins Bool Bool, a.deleted false = true ∧ ¬a.Dangling := by
  exact ⟨_, rfl, no_use_after_join (reach_exec (M := joins Bool pair) (fun _ _ => id) (.init rfl) (show
    exec (joins Bool pair) ⟨.start, fun _ => none, fun _ => false, fun _ => false⟩ (meet.map .base ++
      [.base (.worker false), .base (.worker false), .base (.worker false), .base (.worker false), .handle false,
        .base (.finish true), .base (.worker true), .base (.worker true), .base (.worker true),
        .base (.suspend true .yield), .base (.worker true), .base (.worker true), .base (.worker true),
        .base (.worker true), .base (.worker true), .base (.pick false false), .base (.worker false),
        .base (.worker false), .base (.worker false), .base (.finish false), .base (.worker false),
        .base (.worker false), .base (.worker false), .base (.worker false), .handle false, .see false,
        .delete false]) = some _ from rfl) (by decide))⟩

end Safe

/-! ## When a join is too early -/

/-- The meta that the worker is inside `RunCoroutine` with, and the coroutine that it executes there. -/
def WorkerPc.runs : WorkerPc C → Option (C × C)
  | .resume m => some (m, m)
  | .exec m x | .storeState m x _ | .publish m x _ | .readAwaiter m x => some (m, x)
  | _ => none

/-- The meta with which the worker has entered `RunCoroutine`, until it clears `current_coro_meta_`. -/
def WorkerPc.entered : WorkerPc C → Option C
  | .test _ | .storeFinished _ => none
  | pc => pc.inside

/-- A worker executes what it has picked, under its own meta. -/
structure Alone (s : State C W) : Prop where
  own : ∀ w m x, (s.worker w).runs = some (m, x) → x = m ∧ s.current w = some m
  current : ∀ w c, s.current w = some c → (s.worker w).entered = some c

section Early

variable [DecidableEq C] [DecidableEq W] {s t : State C W} {a b : Joins C W} {w v : W} {pc : WorkerPc C} {c m x : C}
  {l : Label C W}

omit [DecidableEq C] in
/-- An access of a worker. -/
theorem Alone.of_update (h : Alone s) (hworker : t.worker = Function.update s.worker w pc)
    (hcur : ∀ v, v ≠ w → t.current v = s.current v) (hown : ∀ m x, pc.runs = some (m, x) → x = m ∧ t.current w = some m)
    (hcurrent : ∀ c, t.current w = some c → pc.entered = some c) : Alone t := by
  constructor
  case own =>
    intro v m x hv
    rw [hworker, Function.update_apply] at hv
    split_ifs at hv with hvw
    · exact hvw ▸ hown m x hv
    · rw [hcur v hvw]
      exact h.own v m x hv
  case current =>
    intro v c hv
    rw [hworker, Function.update_apply]
    split_ifs with hvw
    · exact hcurrent c (hvw ▸ hv)
    · exact h.current v c (hcur v hvw ▸ hv)

omit [DecidableEq W] in
/-- Nobody awaits, so no worker is in an `await_suspend` of `co_await`, or transfers to an awaiter. -/
theorem Inv.awaiter_none (hi : Inv (fun _ => none) s) (c : C) : s.awaiter c = none := by
  cases hc : s.awaiter c with
  | none => rfl
  | some p => cases (hi.awaiter c p hc).1

omit [DecidableEq W] in
theorem Inv.awaiterMeta_none (hi : Inv (fun _ => none) s) (c : C) : s.awaiterMeta c = none := by
  cases hc : s.awaiterMeta c with
  | none => rfl
  | some y =>
    obtain ⟨p, hp, -⟩ := hi.awaiterMeta c y hc
    cases hp

/-- **A worker's next access.** -/
theorem Alone.workerStep (h : Alone s) (hi : Inv (fun _ => none) s) (hst : s.workerStep w (s.worker w) = some t) :
    Alone t := by
  have hmine := hi.relies w
  have hown := h.own w
  have hcurrent := h.current w
  cases hw : s.worker w with
  | idle | exec m x =>
    rw [hw] at hst
    cases hst
  | storeRunning m | storeFinished m =>
    rw [hw] at hst hcurrent
    cases hst
    refine h.of_update rfl (fun _ _ => rfl) (by simp [WorkerPc.runs]) fun c hc => ?_
    cases hcurrent c hc
  | test m =>
    rw [hw] at hst hcurrent
    cases hst
    refine h.of_update rfl (fun _ _ => rfl) ?_ fun c hc => ?_
    · split_ifs <;> simp [WorkerPc.runs]
    · cases hcurrent c hc
  | enter m =>
    rw [hw] at hst
    cases hst
    refine h.of_update rfl (fun v hv => Function.update_of_ne hv ..) ?_ ?_
    · simp [WorkerPc.runs, State.goto, State.setCurrent]
    · simp [WorkerPc.entered, WorkerPc.inside, State.goto, State.setCurrent]
  | resume m =>
    rw [hw] at hst hown hcurrent
    obtain ⟨-, hm⟩ := hown m m rfl
    simp only [State.workerStep] at hst
    split_ifs at hst
    · cases hst
      exact h.of_update rfl (fun _ _ => rfl) (by simp [WorkerPc.runs]) hcurrent
    · cases hst
      refine h.of_update rfl (fun _ _ => rfl) ?_ hcurrent
      rintro m' x' ⟨⟩
      exact ⟨rfl, hm⟩
  | storeState m x k =>
    rw [hw] at hst hown hcurrent
    obtain ⟨-, hm⟩ := hown m x rfl
    simp only [State.workerStep, hm] at hst
    cases hst
    exact h.of_update rfl (fun _ _ => rfl) hown hcurrent
  | publish m x k =>
    rw [hw] at hst hown hcurrent
    obtain ⟨-, hm⟩ := hown m x rfl
    simp only [State.workerStep, hm] at hst
    cases hst
    cases k with
    | yield => exact h.of_update rfl (fun _ _ => rfl) (by simp [WorkerPc.runs]) hcurrent
    | wait => exact h.of_update rfl (fun _ _ => rfl) (by simp [WorkerPc.runs]) hcurrent
  | readAwaiter m x =>
    rw [hw] at hst hcurrent
    simp only [State.workerStep, hi.awaiter_none x] at hst
    cases hst
    exact h.of_update rfl (fun _ _ => rfl) (by simp [WorkerPc.runs]) hcurrent
  | leave m =>
    rw [hw] at hst
    cases hst
    refine h.of_update rfl (fun v hv => Function.update_of_ne hv ..) (by simp [WorkerPc.runs]) ?_
    simp [State.goto, State.setCurrent]
  | awaitReady m x d =>
    rw [hw] at hmine
    cases hmine.2.2
  | storeAwaiter m x d =>
    rw [hw] at hmine
    cases hmine.2.2.2
  | storeMeta m x d =>
    rw [hw] at hmine
    cases hmine.2
  | readMeta m x p | transfer m x p =>
    rw [hw] at hmine
    cases (hi.awaiter_none x).symm.trans hmine.2.1

/-- **What one step preserves.** -/
theorem Alone.step (h : Alone s) (hi : Inv (fun _ => none) s) (hst : step (fun _ => none) s l = some t) : Alone t := by
  cases l with
  | spawn x | wake x =>
    obtain ⟨-, hst⟩ := Option.ite_none_right_eq_some.mp hst
    cases hst
    exact ⟨h.own, h.current⟩
  | pick w m =>
    obtain ⟨⟨hw, -⟩, hst⟩ := Option.ite_none_right_eq_some.mp hst
    cases hst
    refine h.of_update rfl (fun _ _ => rfl) (by simp [WorkerPc.runs]) fun c hc => ?_
    have hc := h.current w c hc
    rw [hw] at hc
    cases hc
  | suspend w k | finish w =>
    simp only [Coro.step] at hst
    split at hst
    · next m x hw =>
      cases hst
      have hown := h.own w
      have hcurrent := h.current w
      rw [hw] at hown hcurrent
      exact h.of_update rfl (fun _ _ => rfl) hown hcurrent
    · cases hst
  | await w c =>
    simp only [Coro.step] at hst
    split at hst
    · simp at hst
    · cases hst
  | worker w => exact h.workerStep hi hst

omit [DecidableEq C] [DecidableEq W] in
/-- Every coroutine suspends itself and comes to its end under its own meta. -/
theorem Alone.not_unrecorded (h : Alone s) (l : Label C W) : ¬Unrecorded s l := by
  intro hl
  cases l with
  | finish w =>
    obtain ⟨m, x, hw, hno⟩ := hl
    obtain ⟨rfl, -⟩ := h.own w m x (by rw [hw]; rfl)
    exact hno w (by rw [hw]; rfl)
  | worker w =>
    obtain ⟨m, x, k, hw, hno⟩ := hl
    obtain ⟨rfl, hm⟩ := h.own w m x (by rw [hw]; rfl)
    exact hno hm
  | _ => exact hl

theorem reachable_alone (hs : Reachable (system W fun _ => none) s) : Alone s ∧ Tracked s := by
  refine hs.invariant_of (I := fun s => Alone s ∧ Tracked s) (J := Inv fun _ => none) (fun _ => reachable_inv) ?_
    fun s t l hi h _ hst => ?_
  · rintro _ rfl
    exact ⟨⟨nofun, nofun⟩, ⟨nofun, nofun, nofun⟩⟩
  · exact ⟨h.1.step hi hst, tracked_step h.2 hi (h.1.not_unrecorded l) hst⟩

omit [DecidableEq W] in
/-- A worker owes a use to what it has picked only. -/
theorem Alone.mem_owes (h : Alone s) (hi : Inv (fun _ => none) s) (hc : c ∈ (s.worker w).owes) :
    (s.worker w).inside = some c ∨ (s.worker w).drives = some c := by
  have hmine := hi.relies w
  have hown := h.own w
  have hnone := hi.awaiter_none
  cases hpc : s.worker w <;>
    simp_all [WorkerPc.owes, WorkerPc.inside, WorkerPc.drives, WorkerPc.runs, Relies]

/-- When no worker has still to come out with it, nothing leads to a meta that a join has seen. -/
theorem released_of_out (ha : Reachable (joins W fun _ => none) a) (hseen : a.seen c = true)
    (hinside : ∀ w, (a.base.worker w).inside ≠ some c) (hhandled : ∀ w, a.handled w ≠ some c) : Released a c := by
  have hs := Reach.of_joins ha
  have hi := reachable_inv hs
  obtain ⟨halone, htracked⟩ := reachable_alone hs
  have hfinal := (Reach.handles ha).final c hseen
  constructor
  case storing =>
    intro w hw
    exact hinside w (by rw [hw]; rfl)
  case handled => exact hhandled
  case forgotten =>
    refine ⟨hfinal, fun w hw => ?_, htracked.gone c hfinal .queue, htracked.gone c hfinal .held, fun w hw => ?_,
      fun d hd => ?_⟩
    · obtain hw | hw := halone.mem_owes hi hw
      · exact hinside w hw
      · exact htracked.not_final hw hfinal
    · apply hinside w
      have hw := halone.current w c hw
      cases hpc : a.base.worker w <;> rw [hpc] at hw <;> first | exact hw | cases hw
    · cases (hi.awaiterMeta_none d).symm.trans hd

/-- A worker that is inside `RunCoroutine` with a meta whose coroutine is done. -/
theorem inside_cases (hs : Reachable (system W fun _ => none) s) (hc : s.frame c = .final)
    (hw : (s.worker w).inside = some c) :
    c ∈ (s.worker w).metas (s.current w) ∨ s.worker w = .leave c ∨ s.worker w = .readAwaiter c c := by
  have hmine := (reachable_inv hs).relies w
  have hown := (reachable_alone hs).1.own w
  have hnone := (reachable_inv hs).awaiter_none
  cases hpc : s.worker w <;> simp_all [WorkerPc.metas, WorkerPc.inside, WorkerPc.runs, Relies]

/-- The state after the deletion of a meta that a join has seen. -/
theorem joinStep_delete {parent : C → Option C} (hseen : a.seen c = true) (hdeleted : a.deleted c = false) :
    (joins W parent).step a (.delete c) = some { a with deleted := Function.update a.deleted c true } :=
  if_pos ⟨hseen, hdeleted⟩

/-- An access that uses no meta. -/
theorem joinStep_worker {parent : C → Option C} (hst : a.base.workerStep w (a.base.worker w) = some t)
    (hmetas : (a.base.worker w).metas (a.base.current w) = []) :
    (joins W parent).step a (.base (.worker w)) = some { a with base := t, handled := a.after t (.worker w) } := by
  simp [joins, joinStep, Joins.allows, step, hst, hmetas]

/-- A worker that leaves `RunCoroutine` asks whether the coroutine is done. -/
theorem uses_of_leave {parent : C → Option C} (hw : a.base.worker w = .leave c) :
    ∃ es b, exec (joins W parent) a es = some b ∧ b.Uses c := by
  let t := (a.base.setCurrent w none).goto w (.test c)
  have hst : a.base.workerStep w (a.base.worker w) = some t := by rw [hw]; rfl
  have hmetas : (a.base.worker w).metas (a.base.current w) = [] := by rw [hw]; rfl
  refine ⟨[.base (.worker w)], { a with base := t, handled := a.after t (.worker w) }, ?_, .inl ⟨w, .inl ?_⟩⟩
  · rw [exec_cons, joinStep_worker hst hmetas]
    rfl
  · simp [t, State.goto, WorkerPc.metas]

/-- A worker at the final suspend point of a coroutine without an awaiter leaves `RunCoroutine`. -/
theorem uses_of_readAwaiter {parent : C → Option C} (hw : a.base.worker w = .readAwaiter c c)
    (hnone : a.base.awaiter c = none) : ∃ es b, exec (joins W parent) a es = some b ∧ b.Uses c := by
  let t := a.base.goto w (.leave c)
  have hst : a.base.workerStep w (a.base.worker w) = some t := by simp only [hw, State.workerStep, hnone, t]
  have hmetas : (a.base.worker w).metas (a.base.current w) = [] := by rw [hw]; rfl
  obtain ⟨es, b, hes, hb⟩ := uses_of_leave (w := w) (c := c)
    (a := { a with base := t, handled := a.after t (.worker w) }) (Function.update_self ..)
  refine ⟨.base (.worker w) :: es, b, ?_, hb⟩
  rwa [exec_cons, joinStep_worker hst hmetas]

/-- **When a join is too early**: a meta that a join has seen is used after its deletion, in some run, exactly when a
worker is still in `RunCoroutine` or `HandleTaskAfterRun` with it. -/
theorem use_after_join_iff (ha : Reachable (joins W fun _ => none) a) (hseen : a.seen c = true)
    (hdeleted : a.deleted c = false) :
    (∃ es b, exec (joins W fun _ => none) a (.delete c :: es) = some b ∧ b.Uses c) ↔
      ∃ w, (a.base.worker w).inside = some c ∨ a.handled w = some c := by
  let d : Joins C W := { a with deleted := Function.update a.deleted c true }
  have hdelete : (joins W fun _ => none).step a (.delete c) = some d := joinStep_delete hseen hdeleted
  have hd : Reachable (joins W fun _ => none) d := .step ha trivial hdelete
  simp only [exec_cons, hdelete, Option.bind_some]
  constructor
  · rintro ⟨es, b, hes, huses⟩
    by_contra hout
    push Not at hout
    have hreleased : Released d c := released_of_out hd hseen (fun w => (hout w).1) fun w => (hout w).2
    have hb : Released b c := exec_invariant (I := fun a => Released a c)
      (fun a b e ha h hst => h.step (reachable_inv (Reach.of_joins ha)) rfl hst) hd hreleased hes
    exact hb.not_uses huses
  · rintro ⟨w, hw | hw⟩
    · have hfinal := (Reach.handles ha).final c hseen
      -- at most two accesses of the worker do not use the meta
      obtain hpc | hpc | hpc := inside_cases (Reach.of_joins ha) hfinal hw
      · exact ⟨[], d, rfl, .inl ⟨w, .inl hpc⟩⟩
      · exact uses_of_leave hpc
      · exact uses_of_readAwaiter hpc ((reachable_inv (Reach.of_joins ha)).awaiter_none c)
    · exact ⟨[], d, rfl, .inl ⟨w, .inr hw⟩⟩

/-- A coroutine yields on one worker, which has not come out of `RunCoroutine` when the coroutine has come to its end on
another one, and that one has handled it. -/
theorem use_after_join_iff_late : ∃ (a : Joins Unit Bool) (es : List (JoinEvent Unit Bool)) (b : Joins Unit Bool),
    a.base.worker false = .idle ∧ a.handled false = none ∧ a.base.worker true = .leave () ∧
    exec (joins Bool fun _ => none) a (.delete () :: es) = some b ∧ b.Uses () := by
  obtain ⟨es, b, hb⟩ := (use_after_join_iff (c := ()) (reachable_exec (M := joins Bool fun _ => none) (.init rfl) (show
    exec (joins Bool fun _ => none) ⟨.start, fun _ => none, fun _ => false, fun _ => false⟩
      [.base (.spawn ()), .base (.pick true ()), .base (.worker true), .base (.worker true), .base (.worker true),
        .base (.suspend true .yield), .base (.worker true), .base (.worker true), .base (.pick false ()),
        .base (.worker false), .base (.worker false), .base (.worker false), .base (.finish false),
        .base (.worker false), .base (.worker false), .base (.worker false), .base (.worker false), .handle false,
        .see ()] = some _ from rfl)) rfl rfl).mpr ⟨true, .inl rfl⟩
  exact ⟨_, es, b, rfl, rfl, rfl, hb⟩

end Early

end Cothread.Coro
