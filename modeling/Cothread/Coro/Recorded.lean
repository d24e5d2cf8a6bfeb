import Cothread.Coro.ControlSteps

/-!
# Coroutines: a finished coroutine is recorded as finished

`RunCoroutine` stores `FINISHED` in the meta that its worker has picked, when that coroutine is done at the end of the
call. So every coroutine that is done is recorded (`recorded`), in every run in which a coroutine comes to its end while
a worker is inside `RunCoroutine` with its own meta, and suspends itself under its own meta only (`Unrecorded`). An
awaiter to which the awaited coroutine has transferred comes to its end inside the `RunCoroutine` of that one
(`finished_unrecorded`).
-/

namespace Cothread.Coro

open Run Places

variable {C W : Type*}

/-- The meta with which the worker is inside `RunCoroutine`. -/
def WorkerPc.inside : WorkerPc C → Option C
  | .idle | .storeRunning _ | .enter _ => none
  | .resume m | .exec m _ | .storeState m _ _ | .publish m _ _ | .awaitReady m _ _ | .storeAwaiter m _ _
  | .storeMeta m _ _ | .readAwaiter m _ | .readMeta m _ _ | .transfer m _ _ | .leave m | .test m
  | .storeFinished m => some m

/-- **Recorded as finished**: while no worker is inside `RunCoroutine`, the meta of every done coroutine says so. -/
def Recorded (s : State C W) : Prop :=
  (∀ w, (s.worker w).inside = none) → ∀ x, s.frame x = .final → s.state x = .finished

/-- A coroutine comes to its end while no worker is inside `RunCoroutine` with its meta, or it suspends itself while
`current_coro_meta_` is not its own meta. -/
def Unrecorded (s : State C W) : Label C W → Prop
  | .finish w => ∃ m x, s.worker w = .exec m x ∧ ∀ v, (s.worker v).inside ≠ some x
  | .worker w => ∃ m x k, s.worker w = .storeState m x k ∧ s.current w ≠ some x
  | _ => False

variable [DecidableEq C]

/-- A done coroutine is in no queue and no worker is going to execute it, and its meta says that it is finished or a
worker inside `RunCoroutine` is going to say so; a coroutine gives its own meta away. -/
structure Tracked (s : State C W) : Prop where
  gone : ∀ x, s.frame x = .final → ∀ a, s.control x a = 0
  recorded : ∀ x, s.frame x = .final → s.state x = .finished ∨ ∃ w, (s.worker w).inside = some x
  publishes : ∀ w m x k, s.worker w = .publish m x k → s.current w = some x

variable {parent : C → Option C} {s t : State C W} {w : W} {pc : WorkerPc C} {m x : C}

/-- A step outside of the workers that finishes no coroutine. -/
theorem Tracked.outside (h : Tracked s) (hworker : t.worker = s.worker) (hcur : t.current = s.current)
    (hfinal : ∀ x, t.frame x = .final → s.frame x = .final)
    (hstate : ∀ x, s.frame x = .final → t.state x = s.state x)
    (hqueued : ∀ x, s.frame x = .final → t.queued x ≤ s.queued x)
    (hheld : ∀ x, s.frame x = .final → t.held x ≤ s.held x) : Tracked t := by
  refine ⟨fun x hx a => ?_, fun x hx => ?_, fun w m x k hw => ?_⟩
  · have hz := h.gone x (hfinal x hx) a
    cases a with
    | queue => exact Nat.le_zero.mp (hz ▸ hqueued x (hfinal x hx))
    | held => exact Nat.le_zero.mp (hz ▸ hheld x (hfinal x hx))
    | await => simp [State.control, hx, Frame.isAwaiting]
    | worker v => simpa [State.control, hworker] using hz
  · rw [hstate x (hfinal x hx), hworker]
    exact h.recorded x (hfinal x hx)
  · rw [hworker] at hw
    rw [hcur]
    exact h.publishes w m x k hw

variable [DecidableEq W]

/-- **An access of a worker that finishes no coroutine**. -/
theorem Tracked.goto (h : Tracked s) (hworker : t.worker = Function.update s.worker w pc)
    (hcur : ∀ v, v ≠ w → t.current v = s.current v) (hfinal : ∀ x, t.frame x = .final → s.frame x = .final)
    (hqueued : ∀ x, s.frame x = .final → t.queued x ≤ s.queued x)
    (hheld : ∀ x, s.frame x = .final → t.held x ≤ s.held x)
    (hdrives : ∀ x, s.frame x = .final → pc.drives = some x → (s.worker w).drives = some x)
    (hstate : ∀ x, s.frame x = .final → t.state x = s.state x ∨ t.state x = .finished)
    (hinside : ∀ x, s.frame x = .final → (s.worker w).inside = some x → pc.inside = some x ∨ t.state x = .finished)
    (hpub : ∀ m x k, pc = .publish m x k → t.current w = some x) : Tracked t := by
  have hat : ∀ v, v ≠ w → t.worker v = s.worker v := fun v hv => by rw [hworker, Function.update_of_ne hv]
  have hself : t.worker w = pc := by rw [hworker, Function.update_self]
  refine ⟨fun x hx a => ?_, fun x hx => ?_, fun v m x k hv => ?_⟩
  · have hz := h.gone x (hfinal x hx) a
    cases a with
    | queue => exact Nat.le_zero.mp (hz ▸ hqueued x (hfinal x hx))
    | held => exact Nat.le_zero.mp (hz ▸ hheld x (hfinal x hx))
    | await => simp [State.control, hx, Frame.isAwaiting]
    | worker v =>
      by_cases hv : v = w
      · subst hv
        have hno : (s.worker v).drives ≠ some x := by simpa [State.control] using hz
        simpa [State.control, hself] using fun hd => hno (hdrives x (hfinal x hx) hd)
      · simpa [State.control, hat v hv] using hz
  · have hsx := hfinal x hx
    obtain hfin | hfin := hstate x hsx
    · rw [hfin]
      obtain hrec | ⟨v, hv⟩ := h.recorded x hsx
      · exact Or.inl hrec
      · by_cases hvw : v = w
        · subst hvw
          obtain hin | hin := hinside x hsx hv
          · exact Or.inr ⟨v, hself ▸ hin⟩
          · exact Or.inl (hfin ▸ hin)
        · exact Or.inr ⟨v, by rwa [hat v hvw]⟩
    · exact Or.inl hfin
  · by_cases hvw : v = w
    · subst hvw
      exact hpub m x k (hself ▸ hv)
    · rw [hcur v hvw]
      exact h.publishes v m x k (hat v hvw ▸ hv)

/-- An access that changes neither a queue nor a state, and does not leave `RunCoroutine`. -/
theorem Tracked.access (h : Tracked s) (hworker : t.worker = Function.update s.worker w pc)
    (hcur : ∀ v, v ≠ w → t.current v = s.current v) (hfinal : ∀ x, t.frame x = .final → s.frame x = .final)
    (hqueued : t.queued = s.queued) (hheld : t.held = s.held) (hstate : t.state = s.state)
    (hdrives : ∀ x, s.frame x = .final → pc.drives = some x → (s.worker w).drives = some x)
    (hinside : pc.inside = (s.worker w).inside) (hpub : ∀ m x k, pc ≠ .publish m x k) : Tracked t :=
  h.goto hworker hcur hfinal (fun x _ => (congrFun hqueued x).le) (fun x _ => (congrFun hheld x).le) hdrives
    (fun x _ => Or.inl (congrFun hstate x)) (fun _ _ hx => Or.inl (hinside.trans hx))
    fun m x k hp => absurd hp (hpub m x k)

omit [DecidableEq W] in
/-- A worker drives no coroutine that is done. -/
theorem Tracked.not_final (h : Tracked s) (hw : (s.worker w).drives = some x) : s.frame x ≠ .final := by
  intro hx
  have hz := h.gone x hx (.worker w)
  simp [State.control, hw] at hz

/-- A coroutine gives its own meta away. -/
theorem Tracked.publish (h : Tracked s) {k : Kind} (hw : s.worker w = .publish m x k) :
    Tracked (((s.setFrame x .suspended).give x k).goto w (.leave m)) := by
  have hne : ∀ y, s.frame y = .final → y ≠ x := by
    rintro y hy rfl
    exact h.not_final (by rw [hw]; rfl) hy
  have hframe : ∀ y, Function.update s.frame x Frame.suspended y = .final → s.frame y = .final := fun y hy =>
    frame_of_update (s := s) (t := s.setFrame x .suspended) rfl nofun hy
  refine h.goto (show _ = Function.update s.worker w (.leave m) by cases k <;> rfl) (fun _ _ => by cases k <;> rfl)
    (fun y hy => hframe y (by cases k <;> exact hy)) (fun y hy => ?_) (fun y hy => ?_) nofun (fun y hy => Or.inl ?_)
    (fun y _ hy => Or.inl (by rw [hw] at hy; exact hy)) nofun
  · cases k
    · exact (Function.update_of_ne (hne y hy) _ _).le
    · exact le_rfl
  · cases k
    · exact le_rfl
    · exact (Function.update_of_ne (hne y hy) _ _).le
  · cases k
    · exact Function.update_of_ne (hne y hy) _ _
    · rfl

section

attribute [local simp] WorkerPc.drives

/-- A worker starts on a coroutine: it stores `RUNNING`, and the meta as its own. -/
theorem Tracked.begin (h : Tracked s) {pc : WorkerPc C} (hw : s.worker w = pc)
    (hpc : pc = .storeRunning m ∨ pc = .enter m) (hst : s.workerStep w pc = some t) : Tracked t := by
  have hm : s.frame m ≠ .final := h.not_final (by rw [hw]; obtain rfl | rfl := hpc <;> rfl)
  obtain rfl | rfl := hpc
  all_goals
    cases hst
    refine h.goto rfl (fun v hv => ?_) (fun _ hx => hx) (fun _ _ => le_rfl) (fun _ _ => le_rfl)
      (fun _ _ hx => by rw [hw]; exact hx) (fun x hx => Or.inl (Function.update_of_ne ?_ _ _))
      (fun x _ hx => by rw [hw] at hx; cases hx) (by simp)
    · first | rfl | exact Function.update_of_ne hv _ _
    · rintro rfl
      exact hm hx

/-- A coroutine stores its state in its own meta, before it gives that away. -/
theorem Tracked.storeState (h : Tracked s) {k : Kind} (hw : s.worker w = .storeState m x k)
    (hok : ¬Unrecorded s (.worker w)) (hst : s.workerStep w (.storeState m x k) = some t) : Tracked t := by
  have hx : s.frame x ≠ .final := h.not_final (by rw [hw]; rfl)
  have hcur : s.current w = some x := by
    by_contra hne
    exact hok ⟨m, x, k, hw, hne⟩
  simp only [State.workerStep, hcur] at hst
  cases hst
  refine h.goto rfl (fun _ _ => rfl) (fun _ hy => hy) (fun _ _ => le_rfl) (fun _ _ => le_rfl)
    (fun _ _ hy => by rw [hw]; exact hy) (fun y hy => Or.inl (Function.update_of_ne ?_ _ _))
    (fun y _ hy => Or.inl (by rw [hw] at hy; exact hy)) fun m' y k' hp => ?_
  · rintro rfl
    exact hx hy
  · cases hp
    exact hcur

/-- `RunCoroutine` tests whether the coroutine is done, and stores `FINISHED` when it is. -/
theorem Tracked.leaves (h : Tracked s) {pc : WorkerPc C} (hw : s.worker w = pc)
    (hpc : pc = .test m ∨ pc = .storeFinished m) (hst : s.workerStep w pc = some t) : Tracked t := by
  obtain rfl | rfl := hpc <;> cases hst
  · split_ifs with hm
    · exact h.access rfl (fun _ _ => rfl) (fun _ hx => hx) rfl rfl rfl (by simp) (by rw [hw]; rfl) (by simp)
    · refine h.goto rfl (fun _ _ => rfl) (fun _ hx => hx) (fun _ _ => le_rfl) (fun _ _ => le_rfl) (by simp)
        (fun _ _ => Or.inl rfl) (fun x hx hin => ?_) (by simp)
      rw [hw] at hin
      cases hin
      exact absurd hx hm
  · refine h.goto rfl (fun _ _ => rfl) (fun _ hx => hx) (fun _ _ => le_rfl) (fun _ _ => le_rfl) (by simp)
      (fun x _ => ?_) (fun x _ hin => ?_) (by simp)
    · by_cases hx : x = m
      · exact Or.inr (hx ▸ Function.update_self ..)
      · exact Or.inl (Function.update_of_ne hx _ _)
    · rw [hw] at hin
      cases hin
      exact Or.inr (Function.update_self ..)

/-- **What a worker's access preserves.** -/
theorem Tracked.workerStep (h : Tracked s) (hi : Inv parent s) (hok : ¬Unrecorded s (.worker w))
    (hst : s.workerStep w (s.worker w) = some t) : Tracked t := by
  cases hw : s.worker w with
  | idle | exec m x => rw [hw] at hst; cases hst
  | storeRunning m => exact h.begin hw (Or.inl rfl) (hw ▸ hst)
  | enter m => exact h.begin hw (Or.inr rfl) (hw ▸ hst)
  | resume m =>
    rw [hw] at hst
    simp only [State.workerStep] at hst
    split_ifs at hst <;> cases hst
    · exact h.access rfl (fun _ _ => rfl) (fun _ hx => hx) rfl rfl rfl (by simp) (by rw [hw]; rfl) (by simp)
    · exact h.access rfl (fun _ _ => rfl) (fun _ => frame_of_update rfl (by simp)) rfl rfl rfl
        (fun x _ hx => by rw [hw]; exact hx) (by rw [hw]; rfl) (by simp)
  | storeState m x k => exact h.storeState hw hok (hw ▸ hst)
  | publish m x k =>
    rw [hw] at hst
    simp only [State.workerStep, h.publishes w m x k hw] at hst
    cases hst
    exact h.publish hw
  | awaitReady m x c =>
    rw [hw] at hst
    simp only [State.workerStep] at hst
    split_ifs at hst <;> cases hst
    · exact h.access rfl (fun _ _ => rfl) (fun _ hx => hx) rfl rfl rfl (fun x _ hx => by rw [hw]; exact hx)
        (by rw [hw]; rfl) (by simp)
    · exact h.access rfl (fun _ _ => rfl) (fun _ => frame_of_update rfl (by simp)) rfl rfl rfl (by simp)
        (by rw [hw]; rfl) (by simp)
  | storeAwaiter m x c | storeMeta m x c =>
    rw [hw] at hst
    cases hst
    exact h.access rfl (fun _ _ => rfl) (fun _ hx => hx) rfl rfl rfl (by simp) (by rw [hw]; rfl) (by simp)
  | readAwaiter m x =>
    rw [hw] at hst
    cases hst
    cases s.awaiter x <;>
      exact h.access rfl (fun _ _ => rfl) (fun _ hx => hx) rfl rfl rfl (by simp) (by rw [hw]; rfl) (by simp)
  | readMeta m x p =>
    rw [hw] at hst
    cases hst
    cases s.awaiterMeta x with
    | none =>
      exact h.access rfl (fun _ _ => rfl) (fun _ hx => hx) rfl rfl rfl (by simp) (by rw [hw]; rfl) (by simp)
    | some y =>
      exact h.access rfl (fun v hv => Function.update_of_ne hv _ _) (fun _ hx => hx) rfl rfl rfl (by simp)
        (by rw [hw]; rfl) (by simp)
  | transfer m x p =>
    rw [hw] at hst
    cases hst
    obtain ⟨-, -, hp, -⟩ : Relies parent s w (.transfer m x p) := hw ▸ hi.relies w
    refine h.access rfl (fun _ _ => rfl) (fun _ => frame_of_update rfl (by simp)) rfl rfl rfl (fun y hy hd => ?_)
      (by rw [hw]; rfl) (by simp)
    cases hd
    cases hp.symm.trans hy
  | leave m =>
    rw [hw] at hst
    cases hst
    exact h.access rfl (fun v hv => Function.update_of_ne hv _ _) (fun _ hx => hx) rfl rfl rfl (by simp)
      (by rw [hw]; rfl) (by simp)
  | test m => exact h.leaves hw (Or.inl rfl) (hw ▸ hst)
  | storeFinished m => exact h.leaves hw (Or.inr rfl) (hw ▸ hst)

end

/-- A coroutine comes to its final suspend point while a worker is inside `RunCoroutine` with its meta. -/
theorem Tracked.finish (h : Tracked s) (hi : Inv parent s) (hw : s.worker w = .exec m x)
    (hin : ∃ v, (s.worker v).inside = some x) : Tracked ((s.setFrame x .final).goto w (.readAwaiter m x)) := by
  have hxf : s.frame x ≠ .final := h.not_final (by rw [hw]; rfl)
  let t := (s.setFrame x .final).goto w (.readAwaiter m x)
  have hrest : ∀ y, y ≠ x → t.frame y = s.frame y := fun y hy => Function.update_of_ne hy _ _
  have hat : ∀ v, v ≠ w → t.worker v = s.worker v := fun v hv => Function.update_of_ne hv _ _
  have hself : t.worker w = .readAwaiter m x := Function.update_self ..
  have hinside : ∀ v, (t.worker v).inside = (s.worker v).inside := by
    intro v
    by_cases hv : v = w
    · subst hv
      rw [hself, hw]
      rfl
    · rw [hat v hv]
  refine ⟨fun y hy a => ?_, fun y hy => ?_, fun v m' y k hv => ?_⟩
  · by_cases hyx : y = x
    · -- the worker that has executed it was the only place
      subst hyx
      have hpos : 0 < s.control y (.worker w) := by simp [State.control, hw, WorkerPc.drives]
      cases a with
      | queue => exact (hi.once y hxf).eq_zero hpos (b := .queue) (by simp)
      | held => exact (hi.once y hxf).eq_zero hpos (b := .held) (by simp)
      | await => simp [State.control, hy, Frame.isAwaiting]
      | worker v =>
        by_cases hv : v = w
        · subst hv
          simp [State.control, State.goto, WorkerPc.drives]
        · have hz := (hi.once y hxf).eq_zero hpos (b := .worker v) fun e => hv (Place.worker.inj e)
          simpa [State.control, State.goto, State.setFrame, hv] using hz
    · have hz := h.gone y ((hrest y hyx).symm.trans hy) a
      cases a with
      | await => simp [State.control, hy, Frame.isAwaiting]
      | worker v =>
        by_cases hv : v = w
        · subst hv
          simp [State.control, State.goto, WorkerPc.drives]
        · simpa [State.control, State.goto, State.setFrame, hv] using hz
      | _ => exact hz
  · by_cases hyx : y = x
    · subst hyx
      obtain ⟨v, hv⟩ := hin
      exact Or.inr ⟨v, (hinside v).trans hv⟩
    · obtain hrec | ⟨v, hv⟩ := h.recorded y ((hrest y hyx).symm.trans hy)
      · exact Or.inl hrec
      · exact Or.inr ⟨v, (hinside v).trans hv⟩
  · by_cases hvw : v = w
    · subst hvw
      cases hself.symm.trans hv
    · exact h.publishes v m' y k ((hat v hvw).symm.trans hv)

/-- **What one step preserves.** -/
theorem tracked_step {l : Label C W} (h : Tracked s) (hi : Inv parent s) (hok : ¬Unrecorded s l)
    (hst : step parent s l = some t) : Tracked t := by
  cases l with
  | spawn x =>
    obtain ⟨hx, hst⟩ := Option.ite_none_right_eq_some.mp hst
    cases hst
    have hne : ∀ y, s.frame y = .final → y ≠ x := by
      rintro y hy rfl
      cases hx.symm.trans hy
    exact h.outside rfl rfl (fun _ => frame_of_update rfl (by simp)) (fun y hy => Function.update_of_ne (hne y hy) _ _)
      (fun y hy => (Function.update_of_ne (hne y hy) _ _).le) fun _ _ => le_rfl
  | pick w m =>
    obtain ⟨⟨hw, hm⟩, hst⟩ := Option.ite_none_right_eq_some.mp hst
    cases hst
    have hne : ∀ y, s.frame y = .final → y ≠ m := by
      rintro y hy rfl
      exact hm.ne' (h.gone y hy .queue)
    refine h.goto rfl (fun _ _ => rfl) (fun _ hx => hx) (fun y hy => (Function.update_of_ne (hne y hy) _ _).le)
      (fun _ _ => le_rfl) (fun y hy hd => ?_) (fun _ _ => Or.inl rfl) (fun y _ hy => ?_) (by simp)
    · cases hd
      exact absurd rfl (hne m hy)
    · rw [hw] at hy
      cases hy
  | suspend w k =>
    simp only [step] at hst
    split at hst
    · next m x hw =>
      cases hst
      exact h.access rfl (fun _ _ => rfl) (fun _ hx => hx) rfl rfl rfl (fun y _ hy => by rw [hw]; exact hy)
        (by rw [hw]; rfl) (by simp)
    · cases hst
  | await w c =>
    simp only [step] at hst
    split at hst
    · next m x hw =>
      obtain ⟨-, hst⟩ := Option.ite_none_right_eq_some.mp hst
      cases hst
      exact h.access rfl (fun _ _ => rfl) (fun _ hx => hx) rfl rfl rfl (fun y _ hy => by rw [hw]; exact hy)
        (by rw [hw]; rfl) (by simp)
    · cases hst
  | finish w =>
    simp only [step] at hst
    split at hst
    · next m x hw =>
      cases hst
      refine h.finish hi hw ?_
      by_contra hno
      exact hok ⟨m, x, hw, fun v hv => hno ⟨v, hv⟩⟩
    · cases hst
  | worker w => exact h.workerStep hi hok hst
  | wake m =>
    obtain ⟨hm, hst⟩ := Option.ite_none_right_eq_some.mp hst
    cases hst
    have hne : ∀ y, s.frame y = .final → y ≠ m := by
      rintro y hy rfl
      exact hm.ne' (h.gone y hy .held)
    exact h.outside rfl rfl (fun _ hx => hx) (fun y hy => Function.update_of_ne (hne y hy) _ _)
      (fun y hy => (Function.update_of_ne (hne y hy) _ _).le) fun y hy => (Function.update_of_ne (hne y hy) _ _).le

/-- **A finished coroutine is recorded as finished**, in every run in which a coroutine comes to its end while a worker
is inside `RunCoroutine` with its own meta, and suspends itself under its own meta only. -/
theorem recorded (hs : Reach (system W parent) (fun s l => ¬Unrecorded s l) s) : Recorded s := by
  have h : Tracked s := by
    refine hs.invariant_of (J := Inv parent) (fun _ hs => reachable_inv hs.reachable) ?_
      fun s t l hi h hok hst => tracked_step h hi hok hst
    rintro _ rfl
    exact ⟨nofun, nofun, nofun⟩
  refine fun hidle x hx => (h.recorded x hx).resolve_right ?_
  rintro ⟨w, hw⟩
  cases (hidle w).symm.trans hw

/-- What finishes is what `RunCoroutine` was called with, and what suspends is current. -/
def recordsOwn (s : State Bool Bool) : Label Bool Bool → Bool
  | .finish w => match s.worker w with
    | .exec m x => m == x
    | _ => true
  | .worker w => match s.worker w with
    | .storeState _ x _ => s.current w == some x
    | _ => true
  | _ => true

/-- The first awaits the second, is resumed inside the `RunCoroutine` of the second, yields, and comes to its end after
it is picked again. -/
theorem recorded_pair : ∃ s : State Bool Bool, s.frame false = .final ∧ s.frame true = .final ∧
    (∀ w, (s.worker w).inside = none) ∧ Recorded s := by
  have himp : ∀ s l, recordsOwn s l = true → ¬Unrecorded s l := by
    intro s l h hun
    cases l with
    | finish w =>
      obtain ⟨m, x, hw, hno⟩ := hun
      simp only [recordsOwn, hw, beq_iff_eq] at h
      exact hno w (by rw [hw, h]; rfl)
    | worker w =>
      obtain ⟨m, x, k, hw, hne⟩ := hun
      simp only [recordsOwn, hw, beq_iff_eq] at h
      exact hne h
    | _ => exact hun
  exact ⟨_, rfl, rfl, by decide, recorded (reach_exec (M := system Bool pair) himp (.init rfl) (show
    exec (system Bool pair) .start (meet ++ [.worker false, .worker false, .worker false, .worker false, .finish true,
      .worker true, .worker true, .worker true, .suspend true .yield, .worker true, .worker true, .worker true,
      .worker true, .worker true, .pick false false, .worker false, .worker false, .worker false, .finish false,
      .worker false, .worker false, .worker false, .worker false]) = some _ from rfl) (by decide))⟩

/-- **Finished, and not recorded**: the second transfers to the first, which comes to its end inside the `RunCoroutine`
of the second. Nothing is left to do, and the state of the first says that it is running. -/
theorem finished_unrecorded : ∃ s : State Bool Bool, Reachable (system Bool pair) s ∧ (∀ w, s.worker w = .idle) ∧
    (∀ x, s.queued x = 0 ∧ s.held x = 0) ∧ s.frame false = .final ∧ s.state false = .running ∧ ¬Recorded s := by
  refine ⟨_, reachable_exec (.init rfl) (show exec (system Bool pair) .start (meet ++ [.worker false, .worker false,
    .worker false, .worker false, .finish true, .worker true, .worker true, .worker true, .finish true, .worker true,
    .worker true, .worker true, .worker true]) = some _ from rfl), by decide, by decide, rfl, rfl, fun h => ?_⟩
  cases h (by decide) false rfl

end Cothread.Coro
