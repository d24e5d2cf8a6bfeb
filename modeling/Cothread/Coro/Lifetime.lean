import Cothread.Coro.ControlSteps
import Mathlib.Data.Fintype.Basic

/-!
# The frame of a coroutine that is done

`~Task` destroys the frame of its coroutine. When the coroutine is done (`is_done`), that can be at any time: another
thread has seen `handle.done()`, or the awaiter goes on and its local `Task` goes out of scope. But workers use the
frame after the final suspend point: `FinalAwaiter` reads the promise, and `RunCoroutine` asks `meta->handle.done()` of
the coroutine that it has picked, also after other coroutines have gone on inside the same `resume()`.

- `no_use_after_destroy`: when a frame is destroyed only once nothing leads to it (`Forgotten`), no worker uses a frame
  that is gone;
- `use_after_destroy`: a frame that is the first to be destroyed, while a worker is still going to use it or while the
  coroutine's meta is in a queue, is used afterwards, in some run.
-/

namespace Cothread.Coro

open Run

variable {C W : Type*}

/-- The frames that the worker's next access reads or writes. -/
def WorkerPc.uses : WorkerPc C → List C
  | .resume m | .test m => [m]
  | .exec _ x | .storeState _ x _ | .publish _ x _ => [x]
  | .awaitReady _ x c => [x, c]
  | .storeAwaiter _ _ c | .storeMeta _ _ c => [c]
  | .readAwaiter _ x | .readMeta _ x _ => [x]
  | .transfer _ x p => [x, p]
  | _ => []

/-- The frames that the worker is going to use before it is back in `Run`. -/
def WorkerPc.owes : WorkerPc C → List C
  | .idle | .storeFinished _ => []
  | .storeRunning m | .enter m | .resume m | .leave m | .test m => [m]
  | .exec m x | .storeState m x _ | .publish m x _ => [m, x]
  | .awaitReady m x c => [m, x, c]
  | .storeAwaiter m _ c | .storeMeta m _ c => [m, c]
  | .readAwaiter m x => [m, x]
  | .readMeta m x p | .transfer m x p => [m, x, p]

theorem WorkerPc.uses_subset (pc : WorkerPc C) : pc.uses ⊆ pc.owes := by
  cases pc <;> simp [uses, owes]

/-- Coroutines, and which frames have been destroyed. -/
structure Life (C W : Type*) where
  base : State C W
  dead : C → Bool

/-- A worker is about to use the frame. -/
def Life.Uses (s : Life C W) (c : C) : Prop := ∃ w, c ∈ (s.base.worker w).uses

/-- A worker is about to use a frame that has been destroyed. -/
def Life.Dangling (s : Life C W) : Prop := ∃ w, ∃ c ∈ (s.base.worker w).uses, s.dead c = true

inductive Event (C W : Type*)
  | base (l : Label C W)
  | destroy (c : C)
  deriving DecidableEq

/-- The frames of which a step makes use are there. What the use of another frame does is not modelled, and what has
been destroyed is not awaited: its `Task` is gone. -/
def Life.allows (s : Life C W) : Label C W → Bool
  | .worker w => (s.base.worker w).uses.all fun c => !s.dead c
  | .await _ c => !s.dead c
  | _ => true

section Steps

variable [DecidableEq C] [DecidableEq W]

/-- One step: one of the coroutines and the workers, or the destructor of the `Task` of a coroutine that is done. -/
def lifeStep (parent : C → Option C) (s : Life C W) : Event C W → Option (Life C W)
  | .base l => if s.allows l then (step parent s.base l).map fun t => { s with base := t } else none
  | .destroy c =>
    if s.base.frame c = .final ∧ s.dead c = false then some { s with dead := Function.update s.dead c true } else none

end Steps

/-- Coroutines whose frames are destroyed when they are done. -/
def lifetimes {C : Type*} (W : Type*) [DecidableEq C] [DecidableEq W] (parent : C → Option C) :
    System (Life C W) (Event C W) where
  init s := s = ⟨.start, fun _ => false⟩
  step := lifeStep parent

/-- Nothing leads to the coroutine. It is done; no worker is going to use its frame; its meta is in no queue, is no
worker's `current_coro_meta_`, and is not going to be that again by `awaiter_meta_`. -/
structure Forgotten (s : State C W) (c : C) : Prop where
  final : s.frame c = .final
  owes : ∀ w, c ∉ (s.worker w).owes
  queued : s.queued c = 0
  held : s.held c = 0
  current : ∀ w, s.current w ≠ some c
  awaiterMeta : ∀ d, s.awaiterMeta d = some c → s.frame d = .final ∧ ∀ w, (s.worker w).finishes ≠ some d

/-- A frame is destroyed only when nothing leads to its coroutine. -/
def Careful (a : Life C W) : Event C W → Prop
  | .base _ => True
  | .destroy c => Forgotten a.base c

section Finite

variable [DecidableEq C] [Fintype C] [Fintype W]

instance (s : State C W) (c : C) : Decidable (Forgotten s c) :=
  decidable_of_iff (s.frame c = .final ∧ (∀ w, c ∉ (s.worker w).owes) ∧ s.queued c = 0 ∧ s.held c = 0 ∧
    (∀ w, s.current w ≠ some c) ∧
    ∀ d, s.awaiterMeta d = some c → s.frame d = .final ∧ ∀ w, (s.worker w).finishes ≠ some d)
    ⟨fun ⟨h₁, h₂, h₃, h₄, h₅, h₆⟩ => ⟨h₁, h₂, h₃, h₄, h₅, h₆⟩, fun ⟨h₁, h₂, h₃, h₄, h₅, h₆⟩ => ⟨h₁, h₂, h₃, h₄, h₅, h₆⟩⟩

instance (a : Life C W) (e : Event C W) : Decidable (Careful a e) :=
  match e with
  | .base _ => .isTrue trivial
  | .destroy c => inferInstanceAs (Decidable (Forgotten a.base c))

end Finite

/-- After `meet`, the second comes to its end and resumes the first. -/
def transferred : List (Label Bool Bool) :=
  [.worker false, .worker false, .finish true, .worker true, .worker true, .worker true]

/-- The first yields, so that the worker comes back to `RunCoroutine` and to `Run`. -/
def backInRun : List (Label Bool Bool) :=
  [.suspend true .yield, .worker true, .worker true, .worker true, .worker true, .worker true, .worker false,
    .worker false]

section Safe

variable [DecidableEq C] [DecidableEq W] {parent : C → Option C} {s t : State C W} {w v : W} {pc : WorkerPc C}
  {c d m x : C} {l : Label C W}

omit [DecidableEq W] in
/-- A frame that is written is not that of a coroutine that is done. -/
theorem update_final {f : Frame C} (hx : s.frame x ≠ .final) (hd : s.frame d = .final) :
    Function.update s.frame x f d = .final := by
  rw [Function.update_of_ne, hd]
  rintro rfl
  exact hx hd

omit [DecidableEq C] in
/-- An access that does not lead to the coroutine. -/
theorem Forgotten.goto (h : Forgotten s c) (hworker : t.worker = Function.update s.worker w pc) (howes : c ∉ pc.owes)
    (hframe : ∀ d, s.frame d = .final → t.frame d = .final) (hqueued : t.queued c = 0) (hheld : t.held c = 0)
    (hcurrent : ∀ v, t.current v = s.current v ∨ t.current v ≠ some c)
    (hmeta : ∀ d, t.awaiterMeta d = s.awaiterMeta d ∨ t.awaiterMeta d ≠ some c)
    (hfin : ∀ d, pc.finishes = some d → (s.worker w).finishes = some d ∨ s.frame d ≠ .final) : Forgotten t c := by
  constructor
  case final => exact hframe c h.final
  case owes =>
    intro v
    rw [hworker, Function.update_apply]
    split_ifs
    · exact howes
    · exact h.owes v
  case queued => exact hqueued
  case held => exact hheld
  case current =>
    intro v
    obtain hv | hv := hcurrent v
    · rw [hv]
      exact h.current v
    · exact hv
  case awaiterMeta =>
    intro d hd
    obtain hm | hm := hmeta d
    · obtain ⟨hfd, hno⟩ := h.awaiterMeta d (hm.symm.trans hd)
      refine ⟨hframe d hfd, fun v hv => ?_⟩
      rw [hworker, Function.update_apply] at hv
      split_ifs at hv with hvw
      · obtain hw | hw := hfin d hv
        · exact hno w hw
        · exact hw hfd
      · exact hno v hv
    · exact absurd hd hm

omit [DecidableEq C] in
/-- An access after which the worker is not in a final suspension. -/
theorem Forgotten.pass (h : Forgotten s c) (hworker : t.worker = Function.update s.worker w pc) (howes : c ∉ pc.owes)
    (hframe : ∀ d, s.frame d = .final → t.frame d = .final) (hqueued : t.queued c = 0) (hheld : t.held c = 0)
    (hcurrent : ∀ v, t.current v = s.current v ∨ t.current v ≠ some c)
    (hmeta : ∀ d, t.awaiterMeta d = s.awaiterMeta d ∨ t.awaiterMeta d ≠ some c) (hfin : pc.finishes = none) :
    Forgotten t c := by
  refine h.goto hworker howes hframe hqueued hheld hcurrent hmeta fun d hd => ?_
  rw [hfin] at hd
  cases hd

omit [DecidableEq C] in
/-- An access that neither ends a coroutine nor writes a frame, a queue or a meta. -/
theorem Forgotten.quiet (h : Forgotten s c) (hworker : t.worker = Function.update s.worker w pc)
    (howes : pc.owes ⊆ (s.worker w).owes) (hframe : t.frame = s.frame) (hqueued : t.queued = s.queued)
    (hheld : t.held = s.held) (hcurrent : t.current = s.current) (hmeta : t.awaiterMeta = s.awaiterMeta)
    (hfin : pc.finishes = none) : Forgotten t c :=
  h.pass hworker (fun hc => h.owes w (howes hc)) (fun d hd => by rwa [hframe]) (by rw [hqueued, h.queued])
    (by rw [hheld, h.held]) (fun v => .inl (by rw [hcurrent])) (fun d => .inl (by rw [hmeta])) hfin

/-- The worker enters the coroutine of its meta, or leaves it. -/
theorem Forgotten.enter (h : Forgotten s c) (hw : s.worker w = .enter m) (hst : s.workerStep w (.enter m) = some t) :
    Forgotten t c := by
  have howes := h.owes w
  rw [hw] at howes
  cases hst
  have hm : m ≠ c := fun hm => howes (by simp [WorkerPc.owes, hm])
  refine h.pass rfl howes (fun _ => id) h.queued h.held (fun v => ?_) (fun _ => .inl rfl) rfl
  simp only [State.goto, State.setCurrent, State.setState, Function.update_apply]
  split_ifs
  · exact .inr (by simpa using hm)
  · exact .inl rfl

theorem Forgotten.leave (h : Forgotten s c) (hw : s.worker w = .leave m) (hst : s.workerStep w (.leave m) = some t) :
    Forgotten t c := by
  have howes := h.owes w
  rw [hw] at howes
  cases hst
  refine h.pass rfl howes (fun _ => id) h.queued h.held (fun v => ?_) (fun _ => .inl rfl) rfl
  simp only [State.goto, State.setCurrent, Function.update_apply]
  split_ifs
  · exact .inr (by simp)
  · exact .inl rfl

/-- The worker resumes the coroutine of its meta, which is not done. -/
theorem Forgotten.resume (h : Forgotten s c) (hw : s.worker w = .resume m)
    (hst : s.workerStep w (.resume m) = some t) : Forgotten t c := by
  have howes := h.owes w
  rw [hw] at howes
  simp only [State.workerStep] at hst
  split_ifs at hst with hm
  · cases hst
    exact h.quiet rfl (by simp [hw, WorkerPc.owes]) rfl rfl rfl rfl rfl rfl
  · cases hst
    exact h.pass rfl (by simpa [WorkerPc.owes] using howes) (fun d => update_final hm) h.queued h.held
      (fun _ => .inl rfl) (fun _ => .inl rfl) rfl

/-- **A suspension** gives away the current meta of the worker, which is another one. -/
theorem Forgotten.publish {k : Kind} (h : Forgotten s c) (hi : Inv parent s) (hw : s.worker w = .publish m x k)
    (hst : s.workerStep w (.publish m x k) = some t) : Forgotten t c := by
  have howes := h.owes w
  have hmine := hi.relies w
  rw [hw] at howes hmine
  obtain ⟨y, hy, -⟩ := hmine.2
  simp only [State.workerStep, hy] at hst
  cases hst
  have hyc : c ≠ y := fun hyc => h.current w (hyc ▸ hy)
  have hm : c ≠ m := fun hm => howes (by simp [WorkerPc.owes, hm])
  have hx : s.frame x ≠ .final := by simp [hmine.1]
  cases k with
  | yield =>
    exact h.pass rfl (by simpa [WorkerPc.owes] using hm) (fun d => update_final hx)
      ((Function.update_of_ne hyc _ _).trans h.queued) h.held (fun _ => .inl rfl) (fun _ => .inl rfl) rfl
  | wait =>
    exact h.pass rfl (by simpa [WorkerPc.owes] using hm) (fun d => update_final hx) h.queued
      ((Function.update_of_ne hyc _ _).trans h.held) (fun _ => .inl rfl) (fun _ => .inl rfl) rfl

/-- **An await** stores the current meta of the worker, which is another one. -/
theorem Forgotten.awaitReady (h : Forgotten s c) (hi : Inv parent s) (hw : s.worker w = .awaitReady m x d)
    (hst : s.workerStep w (.awaitReady m x d) = some t) : Forgotten t c := by
  have howes := h.owes w
  have hmine := hi.relies w
  rw [hw] at howes hmine
  simp only [State.workerStep] at hst
  split_ifs at hst with hd
  · cases hst
    exact h.quiet rfl (by simp [hw, WorkerPc.owes]) rfl rfl rfl rfl rfl rfl
  · cases hst
    have hx : s.frame x ≠ .final := by simp [hmine.1]
    have hm : c ≠ m ∧ c ≠ d := by simp_all [WorkerPc.owes]
    exact h.pass rfl (by simpa [WorkerPc.owes] using hm) (fun d => update_final hx) h.queued h.held
      (fun _ => .inl rfl) (fun _ => .inl rfl) rfl

theorem Forgotten.storeMeta (h : Forgotten s c) (hw : s.worker w = .storeMeta m x d)
    (hst : s.workerStep w (.storeMeta m x d) = some t) : Forgotten t c := by
  have howes := h.owes w
  rw [hw] at howes
  cases hst
  have hm : c ≠ m := fun hm => howes (by simp [WorkerPc.owes, hm])
  refine h.pass rfl (by simpa [WorkerPc.owes] using hm) (fun _ => id) h.queued h.held (fun _ => .inl rfl)
    (fun e => ?_) rfl
  simp only [State.goto, Function.update_apply]
  split_ifs
  · exact .inr (h.current w)
  · exact .inl rfl

/-- **A final suspension** leads to the awaiter, which waits, and to another meta. -/
theorem Forgotten.readAwaiter (h : Forgotten s c) (hi : Inv parent s) (hw : s.worker w = .readAwaiter m x)
    (hst : s.workerStep w (.readAwaiter m x) = some t) : Forgotten t c := by
  have howes := h.owes w
  rw [hw] at howes
  cases hst
  cases ha : s.awaiter x with
  | none => exact h.quiet rfl (by simp [hw, WorkerPc.owes]) rfl rfl rfl rfl rfl rfl
  | some p =>
    -- the awaiter waits, so it is another coroutine than `c`
    have hp : s.frame p = .awaiting x := by
      obtain ⟨-, hp | ⟨-, hno⟩⟩ := hi.awaiter x p ha
      · exact hp
      · exact absurd hw (hno w m)
    have hpc : c ≠ p := by
      rintro rfl
      simp [h.final] at hp
    exact h.goto rfl (by simpa [WorkerPc.owes, hpc] using howes) (fun _ => id) h.queued h.held
      (fun _ => .inl rfl) (fun _ => .inl rfl) fun d hd => .inl (by rw [hw]; exact hd)

theorem Forgotten.readMeta {p : C} (h : Forgotten s c) (hw : s.worker w = .readMeta m x p)
    (hst : s.workerStep w (.readMeta m x p) = some t) : Forgotten t c := by
  have howes := h.owes w
  rw [hw] at howes
  cases hst
  have hx : s.awaiterMeta x ≠ some c := fun hx => (h.awaiterMeta x hx).2 w (by rw [hw]; rfl)
  cases ha : s.awaiterMeta x with
  | none =>
    exact h.goto rfl howes (fun _ => id) h.queued h.held (fun _ => .inl rfl) (fun _ => .inl rfl)
      fun d hd => .inl (by rw [hw]; exact hd)
  | some y =>
    refine h.goto rfl howes (fun _ => id) h.queued h.held (fun v => ?_) (fun _ => .inl rfl)
      fun d hd => .inl (by rw [hw]; exact hd)
    simp only [State.goto, State.setCurrent, Option.elim_some, Function.update_apply]
    split_ifs
    · exact .inr (ha ▸ hx)
    · exact .inl rfl

theorem Forgotten.transfer {p : C} (h : Forgotten s c) (hi : Inv parent s) (hw : s.worker w = .transfer m x p)
    (hst : s.workerStep w (.transfer m x p) = some t) : Forgotten t c := by
  have howes := h.owes w
  have hmine := hi.relies w
  rw [hw] at howes hmine
  cases hst
  have hp : s.frame p ≠ .final := by simp [hmine.2.2.1]
  have hm : c ≠ m ∧ c ≠ p := by simp_all [WorkerPc.owes]
  exact h.pass rfl (by simpa [WorkerPc.owes] using hm) (fun d => update_final hp) h.queued h.held
    (fun _ => .inl rfl) (fun _ => .inl rfl) rfl

/-- **A worker's next access** keeps a coroutine forgotten. -/
theorem Forgotten.workerStep (h : Forgotten s c) (hi : Inv parent s) (hst : s.workerStep w (s.worker w) = some t) :
    Forgotten t c := by
  cases hw : s.worker w with
  | idle | exec m x =>
    rw [hw] at hst
    cases hst
  | storeRunning m | storeFinished m | storeAwaiter m x d =>
    rw [hw] at hst
    cases hst
    exact h.quiet rfl (by simp [hw, WorkerPc.owes]) rfl rfl rfl rfl rfl rfl
  | storeState m x k =>
    have hmine := hi.relies w
    rw [hw] at hst hmine
    obtain ⟨y, hy, -⟩ := hmine.2
    simp only [State.workerStep, hy] at hst
    cases hst
    exact h.quiet rfl (by simp [hw, WorkerPc.owes]) rfl rfl rfl rfl rfl rfl
  | test m =>
    rw [hw] at hst
    cases hst
    split_ifs
    · exact h.quiet rfl (by simp [WorkerPc.owes]) rfl rfl rfl rfl rfl rfl
    · exact h.quiet rfl (by simp [WorkerPc.owes]) rfl rfl rfl rfl rfl rfl
  | enter m => exact h.enter hw (hw ▸ hst)
  | leave m => exact h.leave hw (hw ▸ hst)
  | resume m => exact h.resume hw (hw ▸ hst)
  | publish m x k => exact h.publish hi hw (hw ▸ hst)
  | awaitReady m x d => exact h.awaitReady hi hw (hw ▸ hst)
  | storeMeta m x d => exact h.storeMeta hw (hw ▸ hst)
  | readAwaiter m x => exact h.readAwaiter hi hw (hw ▸ hst)
  | readMeta m x p => exact h.readMeta hw (hw ▸ hst)
  | transfer m x p => exact h.transfer hi hw (hw ▸ hst)

/-- **What one step preserves**, when it does not await the coroutine. -/
theorem Forgotten.step (h : Forgotten s c) (hi : Inv parent s) (hl : ∀ w, l ≠ .await w c)
    (hst : step parent s l = some t) : Forgotten t c := by
  cases l with
  | spawn x =>
    obtain ⟨hx, hst⟩ := Option.ite_none_right_eq_some.mp hst
    cases hst
    have hxc : c ≠ x := by
      rintro rfl
      simp [h.final] at hx
    exact { h with
      final := (Function.update_of_ne hxc _ _).trans h.final
      queued := (Function.update_of_ne hxc _ _).trans h.queued
      awaiterMeta := fun d hd => (h.awaiterMeta d hd).imp_left (update_final (by simp [hx])) }
  | pick w m =>
    obtain ⟨⟨hw, hm⟩, hst⟩ := Option.ite_none_right_eq_some.mp hst
    cases hst
    have hmc : c ≠ m := by
      rintro rfl
      exact absurd h.queued hm.ne'
    exact h.pass rfl (by simpa [WorkerPc.owes] using hmc) (fun _ => id)
      ((Function.update_of_ne hmc _ _).trans h.queued) h.held (fun _ => .inl rfl) (fun _ => .inl rfl) rfl
  | suspend w k =>
    simp only [Coro.step] at hst
    split at hst
    · next m x hw =>
      cases hst
      exact h.quiet rfl (by simp [hw, WorkerPc.owes]) rfl rfl rfl rfl rfl rfl
    · cases hst
  | await w d =>
    simp only [Coro.step] at hst
    split at hst
    · next m x hw =>
      obtain ⟨-, hst⟩ := Option.ite_none_right_eq_some.mp hst
      cases hst
      have howes := h.owes w
      have hd : c ≠ d := fun hd => hl w (by rw [hd])
      rw [hw] at howes
      exact h.pass rfl (by simp_all [WorkerPc.owes]) (fun _ => id) h.queued h.held (fun _ => .inl rfl)
        (fun _ => .inl rfl) rfl
    · cases hst
  | finish w =>
    simp only [Coro.step] at hst
    split at hst
    · next m x hw =>
      cases hst
      have howes := h.owes w
      have hx := hi.relies w
      rw [hw] at howes hx
      refine h.goto rfl howes (fun d hd => ?_) h.queued h.held (fun _ => .inl rfl) (fun _ => .inl rfl)
        fun d hd => .inr ?_
      · exact update_final (by simp [hx.1]) hd
      · cases hd
        simp [hx.1]
    · cases hst
  | worker w => exact h.workerStep hi hst
  | wake m =>
    obtain ⟨hm, hst⟩ := Option.ite_none_right_eq_some.mp hst
    cases hst
    have hmc : c ≠ m := by
      rintro rfl
      exact absurd h.held hm.ne'
    exact { h with
      queued := (Function.update_of_ne hmc _ _).trans h.queued
      held := (Function.update_of_ne hmc _ _).trans h.held }

variable {a b : Life C W}

theorem lifeStep_base (hst : lifeStep parent a (.base l) = some b) :
    a.allows l = true ∧ step parent a.base l = some b.base ∧ b.dead = a.dead := by
  obtain ⟨hl, hst⟩ := Option.ite_none_right_eq_some.mp hst
  obtain ⟨t, ht, rfl⟩ := Option.map_eq_some_iff.mp hst
  exact ⟨hl, ht, rfl⟩

theorem Reach.life_inv {ok : Life C W → Event C W → Prop} (ha : Reach (lifetimes W parent) ok a) :
    Inv parent a.base := by
  refine ha.invariant (I := fun a => Inv parent a.base) (fun a h => ?_) fun a b e h _ hst => ?_
  · cases h
    exact reachable_inv (.init rfl)
  · cases e with
    | base l => exact inv_step h (lifeStep_base hst).2.1
    | destroy c =>
      obtain ⟨-, hst⟩ := Option.ite_none_right_eq_some.mp hst
      cases hst
      exact h

/-- **No worker uses a frame that has been destroyed**, in a run in which a frame is destroyed only when nothing leads
to its coroutine. -/
theorem no_use_after_destroy (ha : Reach (lifetimes W parent) Careful a) : ¬a.Dangling := by
  have hforgotten : ∀ c, a.dead c = true → Forgotten a.base c := by
    refine ha.invariant_of (I := fun a => ∀ c, a.dead c = true → Forgotten a.base c) (fun a h => Reach.life_inv h) ?_ ?_
    · rintro _ rfl c hc
      cases hc
    · intro a b e hi h hok hst c hc
      cases e with
      | base l =>
        obtain ⟨hl, hst, hdead⟩ := lifeStep_base hst
        rw [hdead] at hc
        refine (h c hc).step hi (fun w hw => ?_) hst
        subst hw
        simp [Life.allows, hc] at hl
      | destroy d =>
        obtain ⟨-, hst⟩ := Option.ite_none_right_eq_some.mp hst
        cases hst
        by_cases hcd : c = d
        · exact hcd ▸ hok
        · exact h c (by simpa [hcd] using hc)
  rintro ⟨w, c, hc, hdead⟩
  exact (hforgotten c hdead).owes w (WorkerPc.uses_subset _ hc)

/-- The worker of the second comes back to `Run` before the frame of the second is destroyed; then the first is executed
again. -/
theorem no_use_after_destroy_pair : ∃ a : Life Bool Bool, a.dead true = true ∧ a.base.worker false = .exec false false ∧
    ¬a.Dangling := by
  exact ⟨_, rfl, rfl, no_use_after_destroy (reach_exec (M := lifetimes Bool pair) (fun _ _ => id) (.init rfl) (show
    exec (lifetimes Bool pair) ⟨.start, fun _ => false⟩ ((meet ++ transferred ++ backInRun).map .base ++ [.destroy true,
      .base (.pick false false), .base (.worker false), .base (.worker false), .base (.worker false)]) = some _
    from rfl) (by decide))⟩

end Safe

section Unsafe

variable [DecidableEq C] [DecidableEq W] {parent : C → Option C} {s t : State C W} {w : W} {c : C} {a b : Life C W}

/-- How many accesses the worker is from `idle`, at most, when the coroutine that it executes yields. -/
def WorkerPc.rank : WorkerPc C → ℕ
  | .idle => 0
  | .storeFinished _ => 1
  | .test _ => 2
  | .leave _ => 3
  | .publish .. | .storeMeta .. => 4
  | .storeState .. | .storeAwaiter .. => 5
  | .exec .. => 6
  | .resume _ | .awaitReady .. | .transfer .. => 7
  | .enter _ | .readMeta .. => 8
  | .storeRunning _ | .readAwaiter .. => 9

/-- The worker is nearer to `idle`; what it owed it has used, or it owes it still. -/
structure Nearer (w : W) (s t : State C W) : Prop where
  rank : (t.worker w).rank < (s.worker w).rank
  owes : ∀ c ∈ (s.worker w).owes, c ∈ (s.worker w).uses ∨ c ∈ (t.worker w).owes
  queued : ∀ c, s.queued c ≤ t.queued c

omit [DecidableEq C] in
theorem Nearer.of_update {pc : WorkerPc C} (hworker : t.worker = Function.update s.worker w pc)
    (hrank : pc.rank < (s.worker w).rank) (howes : (s.worker w).owes ⊆ (s.worker w).uses ++ pc.owes)
    (hqueued : ∀ c, s.queued c ≤ t.queued c) : Nearer w s t := by
  have hself : t.worker w = pc := by rw [hworker, Function.update_self]
  exact ⟨by rwa [hself], fun c hc => by simpa [hself] using howes hc, hqueued⟩

omit [DecidableEq W] in
theorem le_update_succ (f : C → ℕ) (y d : C) : f d ≤ Function.update f y (f y + 1) d := by
  rw [Function.update_apply]
  split_ifs with hd
  · rw [hd]
    exact Nat.le_succ _
  · exact le_rfl

attribute [local simp] WorkerPc.rank WorkerPc.owes WorkerPc.uses

/-- **A worker's next access**, unless the coroutine decides what comes next. -/
theorem nearer_workerStep (hi : Inv parent s) (hst : s.workerStep w (s.worker w) = some t) : Nearer w s t := by
  have hmine := hi.relies w
  cases hw : s.worker w with
  | idle | exec m x =>
    rw [hw] at hst
    cases hst
  | storeRunning m | enter m | storeAwaiter m x d | storeMeta m x d | transfer m x p | leave m | storeFinished m =>
    rw [hw] at hst
    cases hst
    exact .of_update rfl (by simp [hw]) (by simp [hw]) fun _ => le_rfl
  | resume m =>
    rw [hw] at hst
    simp only [State.workerStep] at hst
    split_ifs at hst
    all_goals
      cases hst
      exact .of_update rfl (by simp [hw]) (by simp [hw]) fun _ => le_rfl
  | storeState m x k =>
    rw [hw] at hst hmine
    obtain ⟨y, hy, -⟩ := hmine.2
    simp only [State.workerStep, hy] at hst
    cases hst
    exact .of_update rfl (by simp [hw]) (by simp [hw]) fun _ => le_rfl
  | publish m x k =>
    rw [hw] at hst hmine
    obtain ⟨y, hy, -⟩ := hmine.2
    simp only [State.workerStep, hy] at hst
    cases hst
    cases k with
    | yield => exact .of_update rfl (by simp [hw]) (by simp [hw]) fun d => le_update_succ s.queued y d
    | wait => exact .of_update rfl (by simp [hw]) (by simp [hw]) fun _ => le_rfl
  | awaitReady m x d =>
    rw [hw] at hst
    simp only [State.workerStep] at hst
    split_ifs at hst
    all_goals
      cases hst
      exact .of_update rfl (by simp [hw]) (by simp [hw]) fun _ => le_rfl
  | readAwaiter m x =>
    rw [hw] at hst
    cases hst
    cases s.awaiter x with
    | none => exact .of_update rfl (by simp [hw]) (by simp [hw]) fun _ => le_rfl
    | some p => exact .of_update rfl (by simp [hw]) (by simp [hw]) fun _ => le_rfl
  | readMeta m x p =>
    rw [hw] at hst
    cases hst
    cases s.awaiterMeta x with
    | none => exact .of_update rfl (by simp [hw]) (by simp [hw]) fun _ => le_rfl
    | some y => exact .of_update rfl (by simp [hw]) (by simp [hw]) fun _ => le_rfl
  | test m =>
    rw [hw] at hst
    cases hst
    split_ifs
    · exact .of_update rfl (by simp [hw]) (by simp [hw]) fun _ => le_rfl
    · exact .of_update rfl (by simp [hw]) (by simp [hw]) fun _ => le_rfl

/-- **A worker that is not idle can go on**, alone. -/
theorem exists_nearer (parent : C → Option C) (hi : Inv parent s) (hw : s.worker w ≠ .idle) :
    ∃ l t, (l = .worker w ∨ l = .suspend w .yield) ∧ step parent s l = some t ∧ Nearer w s t := by
  have hstep (hsome : (s.workerStep w (s.worker w)).isSome) :
      ∃ l t, (l = .worker w ∨ l = .suspend w .yield) ∧ step parent s l = some t ∧ Nearer w s t := by
    obtain ⟨t, ht⟩ := Option.isSome_iff_exists.mp hsome
    exact ⟨_, t, .inl rfl, ht, nearer_workerStep hi ht⟩
  cases hpc : s.worker w with
  | idle => exact absurd hpc hw
  | exec m x =>
    refine ⟨_, s.goto w (.storeState m x .yield), .inr rfl, by simp [step, hpc], ?_⟩
    exact .of_update rfl (by simp [hpc]) (by simp [hpc]) fun _ => le_rfl
  | _ =>
    apply hstep
    rw [hpc]
    rfl

/-- A worker goes on, alone, until it is about to use a destroyed frame, or is idle; then it has owed none. -/
theorem Life.exists_idle (hi : Inv parent a.base) (w : W) :
    ∃ ls b, exec (lifetimes W parent) a (List.map .base ls) = some b ∧ b.dead = a.dead ∧ (b.Dangling ∨
      b.base.worker w = .idle ∧ (∀ c, a.base.queued c ≤ b.base.queued c) ∧
      ∀ c ∈ (a.base.worker w).owes, a.dead c = false) := by
  induction hn : (a.base.worker w).rank using Nat.strong_induction_on generalizing a with
  | _ n ih =>
    by_cases hdangling : a.Dangling
    · exact ⟨[], a, rfl, rfl, .inl hdangling⟩
    · by_cases hw : a.base.worker w = .idle
      · exact ⟨[], a, rfl, rfl, .inr ⟨hw, fun _ => le_rfl, by simp [hw]⟩⟩
      · have huses : ∀ c ∈ (a.base.worker w).uses, a.dead c = false := by
          intro c hc
          rw [← Bool.not_eq_true]
          exact fun hdead => hdangling ⟨w, c, hc, hdead⟩
        obtain ⟨l, t, hl, ht, hnear⟩ := exists_nearer parent hi hw
        have hallows : a.allows l = true := by
          obtain rfl | rfl := hl
          · simpa [Life.allows] using huses
          · rfl
        have hst : (lifetimes W parent).step a (.base l) = some { a with base := t } := by
          simp [lifetimes, lifeStep, hallows, ht]
        obtain ⟨ls, b, hls, hdead, hb⟩ := ih _ (hn ▸ hnear.rank) (a := { a with base := t }) (inv_step hi ht) rfl
        refine ⟨l :: ls, b, by simp [hst, hls], hdead, hb.imp_right ?_⟩
        rintro ⟨hidle, hqueued, howes⟩
        refine ⟨hidle, fun c => (hnear.queued c).trans (hqueued c), fun c hc => ?_⟩
        exact (hnear.owes c hc).elim (huses c) (howes c)

/-- A frame that has been destroyed, and that a worker owes a use, is going to be used by it. -/
theorem Life.exists_dangling_of_owes (hi : Inv parent a.base) (howes : c ∈ (a.base.worker w).owes)
    (hdead : a.dead c = true) :
    ∃ ls b, exec (lifetimes W parent) a (List.map .base ls) = some b ∧ b.dead = a.dead ∧ b.Dangling := by
  obtain ⟨ls, b, hls, hdead', hb | ⟨-, -, hno⟩⟩ := a.exists_idle hi w
  · exact ⟨ls, b, hls, hdead', hb⟩
  · rw [hno c howes] at hdead
    cases hdead

/-- A frame that has been destroyed, while the meta is in a run queue, is going to be used by the worker that picks the
meta. -/
theorem Life.exists_dangling_of_queued (ha : Reachable (lifetimes W parent) a) (w : W) (hqueued : 0 < a.base.queued c)
    (hdead : a.dead c = true) :
    ∃ ls b, exec (lifetimes W parent) a (List.map .base ls) = some b ∧ b.dead = a.dead ∧ b.Dangling := by
  obtain ⟨ls, b, hls, hdead', hb | ⟨hidle, hle, -⟩⟩ := a.exists_idle (Reach.life_inv ha) w
  · exact ⟨ls, b, hls, hdead', hb⟩
  · obtain ⟨t, ht, hpc⟩ : ∃ t, step parent b.base (.pick w c) = some t ∧ t.worker w = .storeRunning c :=
      ⟨_, if_pos ⟨hidle, hqueued.trans_le (hle c)⟩, Function.update_self ..⟩
    have hst : (lifetimes W parent).step b (.base (.pick w c)) = some { b with base := t } := by
      simp [lifetimes, lifeStep, Life.allows, ht]
    obtain ⟨ks, d, hks, hdead'', hd⟩ := Life.exists_dangling_of_owes
      (inv_step (Reach.life_inv (reachable_exec ha hls)) ht) (w := w) (c := c) (a := { b with base := t })
      (by simp [hpc]) (by rw [hdead', hdead])
    refine ⟨ls ++ .pick w c :: ks, d, ?_, hdead''.trans hdead', hd⟩
    rw [List.map_append]
    exact exec_trans hls (by simp [hst, hks])

/-- A frame that has been destroyed, while the meta is with a timer or a waker, which submits it. -/
theorem Life.exists_dangling_of_held (ha : Reachable (lifetimes W parent) a) (w : W) (hheld : 0 < a.base.held c)
    (hdead : a.dead c = true) :
    ∃ ls b, exec (lifetimes W parent) a (List.map .base ls) = some b ∧ b.dead = a.dead ∧ b.Dangling := by
  have hwake : (lifetimes W parent).step a (.base (.wake c)) = some
      { a with base := { a.base with held := Function.update a.base.held c (a.base.held c - 1) }.give c .yield } := by
    simp [lifetimes, lifeStep, Life.allows, step, hheld]
  obtain ⟨ls, b, hls, hdead', hb⟩ := Life.exists_dangling_of_queued (.step ha trivial hwake) w (c := c)
    (by simp [State.give, State.setState]) hdead
  exact ⟨.wake c :: ls, b, by simp [hwake, hls], hdead', hb⟩

/-- **A frame that is destroyed too early is used afterwards.** When no frame has been destroyed and the coroutine is
done, but a worker is still going to use its frame, or its meta is in a run queue, a timer or a waiter queue, some run
goes on from its destruction, without another one, to a use of the frame. -/
theorem use_after_destroy (ha : Reachable (lifetimes W parent) a) (hfinal : a.base.frame c = .final)
    (hdead : ∀ d, a.dead d = false) (h : c ∈ (a.base.worker w).owes ∨ 0 < a.base.queued c ∨ 0 < a.base.held c) :
    ∃ ls b, exec (lifetimes W parent) a (.destroy c :: List.map .base ls) = some b ∧ b.dead c = true ∧ b.Uses c := by
  have hst : (lifetimes W parent).step a (.destroy c) = some { a with dead := Function.update a.dead c true } :=
    if_pos ⟨hfinal, hdead c⟩
  have hb : Reachable (lifetimes W parent) { a with dead := Function.update a.dead c true } := .step ha trivial hst
  have hself : Function.update a.dead c true c = true := Function.update_self ..
  obtain ⟨ls, b, hls, hdead', v, d, hd, hgone⟩ : ∃ ls b, exec (lifetimes W parent)
      { a with dead := Function.update a.dead c true } (List.map .base ls) = some b ∧
      b.dead = Function.update a.dead c true ∧ b.Dangling := by
    rcases h with howes | hqueued | hheld
    · exact Life.exists_dangling_of_owes (Reach.life_inv hb) howes hself
    · exact Life.exists_dangling_of_queued hb w hqueued hself
    · exact Life.exists_dangling_of_held hb w hheld hself
  -- no other frame has been destroyed
  have hdc : d = c := by
    by_contra hne
    rw [hdead', Function.update_of_ne hne, hdead] at hgone
    cases hgone
  subst hdc
  exact ⟨ls, b, by simp [hst, hls], hgone, v, hd⟩

/-- The second has resumed the first, which is executed under the meta of the second and destroys its `Task`. -/
theorem use_after_destroy_pair : ∃ (a : Life Bool Bool) (ls : List (Label Bool Bool)) (b : Life Bool Bool),
    a.base.worker true = .exec true false ∧
    exec (lifetimes Bool pair) a (.destroy true :: List.map .base ls) = some b ∧ b.dead true = true ∧ b.Uses true := by
  obtain ⟨ls, b, hb⟩ := use_after_destroy (c := true) (w := true) (reachable_exec (M := lifetimes Bool pair) (.init rfl)
    (show exec (lifetimes Bool pair) ⟨.start, fun _ => false⟩ ((meet ++ transferred).map .base) = some _ from rfl))
    rfl (fun _ => rfl) (.inl (by decide))
  exact ⟨_, ls, b, rfl, hb⟩

end Unsafe

end Cothread.Coro
