import Cothread.Coro.Control

/-!
# Coroutines: the steps keep the invariant

One lemma for each access that hands a coroutine on (`Inv.pick`, `Inv.resume`, `Inv.publish`, `Inv.awaits`,
`Inv.transfer`, `Inv.finish`); the others change no frame (`Inv.goto`). `reachable_inv` is the invariant of every run.
-/

namespace Cothread.Coro

open Run Places

variable {C W : Type*} [DecidableEq C] [DecidableEq W] {parent : C → Option C} {s t : State C W} {w : W} {x y c p : C}

/-- A worker takes a meta from a run queue. -/
theorem Inv.pick (h : Inv parent s) {m : C} (hw : s.worker w = .idle) (hm : 0 < s.queued m) :
    Inv parent ({ s with queued := Function.update s.queued m (s.queued m - 1) }.goto w (.storeRunning m)) := by
  have hother : ∀ x, x ≠ m → ∀ a, ({ s with queued := Function.update s.queued m (s.queued m - 1) }.goto w
      (.storeRunning m)).control x a ≤ s.control x a := by
    intro x hx a
    cases a with
    | worker v =>
      by_cases hv : v = w
      · simp [State.control, State.goto, hv, WorkerPc.drives, Ne.symm hx]
      · simp [State.control, State.goto, hv]
    | queue => simp [State.control, State.goto, hx]
    | _ => exact le_rfl
  have hborn : ∀ x, s.frame x = .unborn → x ≠ m := by
    rintro x hx rfl
    have := h.unborn x hx .queue
    simp only [State.control] at this
    omega
  refine h.quiet rfl rfl (fun _ _ => rfl) rfl rfl rfl rfl (fun x hx => ?_) (fun x hx a => ?_) trivial (by rintro _ ⟨⟩)
    rfl (by simp)
  · by_cases hxm : x = m
    · subst hxm
      refine (h.once x hx).move (a := .queue) (b := .worker w) (by simp) ?_ fun a ha hb => ?_
      · simp only [State.control, State.goto, Function.update_self, hw, WorkerPc.drives]
        simp
        omega
      · cases a with
        | queue => exact absurd rfl ha
        | worker v =>
          have hv : v ≠ w := fun hv => hb (hv ▸ rfl)
          simp [State.control, State.goto, hv]
        | _ => exact le_rfl
    · exact (h.once x hx).mono (hother x hxm)
  · exact Nat.le_zero.mp ((hother x (hborn x hx) a).trans (h.unborn x hx a).le)

/-- A worker resumes the coroutine that it has picked. -/
theorem Inv.resume (h : Inv parent s) {m : C} (hw : s.worker w = .resume m) (hm : s.frame m ≠ .final) :
    Inv parent ((s.setFrame m .running).goto w (.exec m m)) := by
  have hdrives : (s.worker w).drives = some m := by rw [hw]; rfl
  have hown : s.Own w m := by
    have := h.relies w
    rwa [hw] at this
  have hnot : ∀ c, s.frame m ≠ .awaiting c := by
    intro c hc
    have h1 : 0 < s.control m (.worker w) := by simp [State.control, hdrives]
    have h2 : 0 < s.control m (.await : Place W) := by simp [State.control, hc, Frame.isAwaiting]
    cases (h.once m hm).unique h1 h2
  obtain ⟨honce, hunborn⟩ := h.moved (t := (s.setFrame m .running).goto w (.exec m m)) hdrives hm rfl rfl (by simp)
    (fun y hy => (Option.some.inj hy).symm) (fun _ _ _ => ⟨rfl, rfl⟩) fun _ => (h.once m hm).mono fun a => by
      cases a with
      | worker v =>
        by_cases hv : v = w
        · simp [State.control, State.goto, State.setFrame, hv, hw, WorkerPc.drives]
        · simp [State.control, State.goto, State.setFrame, hv]
      | await => simp [State.control, State.goto, State.setFrame, Frame.isAwaiting]
      | _ => exact le_rfl
  have hframe : ∀ y, y ≠ m → Function.update s.frame m Frame.running y = s.frame y := fun y hy =>
    Function.update_of_ne hy _ _
  refine h.reframe (z := m) rfl hframe hm rfl rfl rfl (fun v hv => h.alone hm hdrives hv) honce hunborn
    ⟨Function.update_self .., hown.keep rfl fun y hy => ?_⟩ (by rintro _ ⟨⟩) (by rintro _ ⟨⟩)
      (fun c _ hc => absurd hc (hnot c)) ?_ h.resumed
  · refine (hframe y ?_).trans hy
    rintro rfl
    exact hm hy
  · refine h.counts_keep rfl rfl fun p c => ?_
    by_cases hp : p = m
    · subst hp
      simp [State.goto, State.setFrame, hnot c]
    · simp [State.goto, State.setFrame, hp]

/-- Where a meta goes. -/
def Kind.place : Kind → Place W
  | .yield => .queue
  | .wait => .held

/-- A coroutine gives its meta away, or that of one that is done. -/
theorem Inv.publish (h : Inv parent s) {m : C} {k : Kind} (hw : s.worker w = .publish m x k)
    (hy : s.current w = some y) : Inv parent (((s.setFrame x .suspended).give y k).goto w (.leave m)) := by
  obtain ⟨hx, hown⟩ : s.frame x = .running ∧ s.Own w x := by
    have := h.relies w
    rwa [hw] at this
  have hyx : y = x ∨ s.frame y = .final := by
    obtain ⟨y', hy', hor⟩ := hown
    rw [hy] at hy'
    cases hy'
    exact hor
  have hdrives : (s.worker w).drives = some x := by rw [hw]; rfl
  have hxf : s.frame x ≠ .final := by rw [hx]; simp
  have hzero : s.queued x = 0 ∧ s.held x = 0 := by
    have hone := h.once x hxf
    have hpos : 0 < s.control x (.worker w) := by simp [State.control, hdrives]
    exact ⟨hone.eq_zero hpos (b := Place.queue) (by simp), hone.eq_zero hpos (b := Place.held) (by simp)⟩
  let t := ((s.setFrame x .suspended).give y k).goto w (.leave m)
  have hframe : t.frame = Function.update s.frame x .suspended := by cases k <;> rfl
  have hworker : t.worker = Function.update s.worker w (.leave m) := by cases k <;> rfl
  have hgive : ∀ u, u ≠ y → t.queued u = s.queued u ∧ t.held u = s.held u := by
    intro u hu
    cases k
    · exact ⟨Function.update_of_ne hu _ _, rfl⟩
    · exact ⟨rfl, Function.update_of_ne hu _ _⟩
  have hself : Once (t.control x) := by
    have hone : s.control x (.worker w) = 1 := by simp [State.control, hdrives]
    have hnone : t.control x (.worker w) = 0 := by simp [State.control, hworker, WorkerPc.drives]
    have hworkers : ∀ v, v ≠ w → t.control x (.worker v) = s.control x (.worker v) := fun v hv => by
      simp [State.control, hworker, hv]
    have hawait : t.control x (.await : Place W) = 0 := by simp [State.control, hframe, Frame.isAwaiting]
    have hput : ∀ (q : C → ℕ), q x = 0 → Function.update q y (q y + 1) x ≤ 1 := by
      intro q hq
      by_cases hyx' : x = y
      · subst hyx'
        rw [Function.update_self, hq]
      · rw [Function.update_of_ne hyx', hq]
        exact Nat.zero_le 1
    have hplace : t.control x (k.place : Place W) ≤ 1 := by
      cases k with
      | yield => exact hput s.queued hzero.1
      | wait => exact hput s.held hzero.2
    refine (h.once x hxf).move (a := .worker w) (b := k.place) (by cases k <;> simp [Kind.place]) ?_ fun a ha hb => ?_
    · rw [hone, hnone]
      omega
    · cases a with
      | worker v => exact (hworkers v fun hv => ha (hv ▸ rfl)).le
      | await => rw [hawait]; exact Nat.zero_le _
      | queue =>
        cases k with
        | yield => exact absurd rfl hb
        | wait => exact le_rfl
      | held =>
        cases k with
        | yield => exact le_rfl
        | wait => exact absurd rfl hb
  obtain ⟨honce, hunborn⟩ := h.moved (t := t) hdrives hxf hworker hframe (by simp) (by simp [WorkerPc.drives])
    (fun u hu huf => hgive u fun huy => by
      rcases hyx with rfl | hyf
      · exact hu huy
      · exact huf (huy ▸ hyf)) fun _ => hself
  have hrest : ∀ y, y ≠ x → t.frame y = s.frame y := fun y hy => by rw [hframe, Function.update_of_ne hy]
  refine h.reframe (t := t) hworker hrest hxf (by cases k <;> rfl) (by cases k <;> rfl) (by cases k <;> rfl)
    (fun v hv => h.alone hxf hdrives hv) honce hunborn trivial (by rintro _ ⟨⟩) (by rintro _ ⟨⟩)
    (fun c _ hc => absurd hc (not_awaiting_of_running hx c)) ?_ (by cases k <;> exact h.resumed)
  refine h.counts_keep (by cases k <;> rfl) (by cases k <;> rfl) fun p c => ?_
  by_cases hp : p = x
  · subst hp
    simp [hframe, hx]
  · rw [hrest p hp]

/-- A coroutine finds the one that it awaits not done, and suspends. -/
theorem Inv.awaits (h : Inv parent s) {m : C} (hw : s.worker w = .awaitReady m x c) (hc : s.frame c ≠ .final) :
    Inv parent ({ s.setFrame x (.awaiting c) with
      suspends := Function.update s.suspends x (Function.update (s.suspends x) c (s.suspends x c + 1)) }.goto w
        (.storeAwaiter m x c)) := by
  obtain ⟨hx, hown, hparent⟩ : s.frame x = .running ∧ s.Own w x ∧ parent c = some x := by
    have := h.relies w
    rwa [hw] at this
  have hdrives : (s.worker w).drives = some x := by rw [hw]; rfl
  have hxf : s.frame x ≠ .final := by rw [hx]; simp
  have hnot := not_awaiting_of_running hx
  let t := { s.setFrame x (.awaiting c) with
    suspends := Function.update s.suspends x (Function.update (s.suspends x) c (s.suspends x c + 1)) }.goto w
      (.storeAwaiter m x c)
  have hframe : t.frame = Function.update s.frame x (.awaiting c) := rfl
  have hrest : ∀ y, y ≠ x → t.frame y = s.frame y := fun y hy => by rw [hframe, Function.update_of_ne hy]
  -- nobody has been stored as the awaiter: the coroutine would still be suspended
  have hnull : s.awaiter c = none := by
    cases ha : s.awaiter c with
    | none => rfl
    | some q =>
      obtain ⟨hq, hf⟩ := h.awaiter c q ha
      cases hparent.symm.trans hq
      obtain hf | hf := hf
      · exact absurd hf (hnot c)
      · exact absurd hf.1 hc
  obtain ⟨honce, hunborn⟩ := h.moved (t := t) hdrives hxf rfl hframe (by simp) (by simp [WorkerPc.drives])
    (fun _ _ _ => ⟨rfl, rfl⟩) fun _ => by
    refine (h.once x hxf).move (a := .worker w) (b := .await) (by simp) ?_ fun a ha hb => ?_
    · simp [t, State.control, State.goto, State.setFrame, hw, WorkerPc.drives, Frame.isAwaiting]
    · cases a with
      | await => exact absurd rfl hb
      | worker v =>
        have hv : v ≠ w := fun hv => ha (hv ▸ rfl)
        simp [t, State.control, State.goto, State.setFrame, hv]
      | _ => exact le_rfl
  refine h.reframe (t := t) rfl hrest hxf rfl rfl rfl (fun v hv => h.alone hxf hdrives hv) honce hunborn
    ⟨Function.update_self .., hnull, hown.keep rfl fun y hy => ?_, hparent⟩ (by rintro _ ⟨⟩)
      (fun c' hc' v hv hreg => ?_)
    (fun c' _ hc' => absurd hc' (hnot c')) (fun p c' => ?_) h.resumed
  · refine (hrest y ?_).trans hy
    rintro rfl
    exact hxf hy
  · cases hc'
    obtain ⟨q, hq, hf, -⟩ := (h.relies v).registering hreg
    cases hparent.symm.trans hq
    exact hnot c hf
  · have hcount := h.counts p c'
    show s.resumes p c' + (if t.frame p = .awaiting c' then 1 else 0) =
      Function.update s.suspends x (Function.update (s.suspends x) c (s.suspends x c + 1)) p c'
    by_cases hp : p = x
    · subst hp
      rw [hframe, Function.update_self, Function.update_self]
      simp only [hnot c', if_false, Nat.add_zero] at hcount
      by_cases hcc : c' = c
      · subst hcc
        simp [hcount]
      · simp [hcount, hcc, Ne.symm hcc]
    · rw [hrest p hp, Function.update_of_ne hp]
      exact hcount

omit [DecidableEq W] in
/-- A worker that relies on the frame of a stored awaiter is in the final suspension of the coroutine awaited. -/
theorem Inv.finishes_of_needs (h : Inv parent s) (hp : s.frame p = .awaiting x) (hstored : s.awaiter x = some p)
    (hz : s.control p (.worker w) = 0) (hm : p ∈ (s.worker w).needs) : (s.worker w).finishes = some x := by
  have hr := h.relies w
  cases hpc : s.worker w with
  | exec m y | storeState m y k | publish m y k | awaitReady m y c =>
    rw [hpc] at hm
    simp only [WorkerPc.needs, List.mem_singleton] at hm
    simp [State.control, hpc, WorkerPc.drives, hm] at hz
  | storeAwaiter m y c =>
    rw [hpc] at hm hr
    simp only [WorkerPc.needs, List.mem_singleton] at hm
    subst hm
    cases hp.symm.trans hr.1
    cases hstored.symm.trans hr.2.1
  | readMeta m y q | transfer m y q =>
    rw [hpc] at hm hr
    simp only [WorkerPc.needs, List.mem_singleton] at hm
    subst hm
    cases hp.symm.trans hr.2.2.1
    rfl
  | _ => rw [hpc] at hm; cases hm

/-- `FinalAwaiter` transfers to the awaiter. -/
theorem Inv.transfer (h : Inv parent s) {m : C} (hw : s.worker w = .transfer m x p) :
    Inv parent ({ s.setFrame p .running with
      resumes := Function.update s.resumes p (Function.update (s.resumes p) x (s.resumes p x + 1)) }.goto w
        (.exec m p)) := by
  obtain ⟨hx, hstored, hp, hown⟩ : s.frame x = .final ∧ s.awaiter x = some p ∧ s.frame p = .awaiting x ∧ s.Own w p := by
    have := h.relies w
    rwa [hw] at this
  have hpf : s.frame p ≠ .final := by rw [hp]; simp
  let t := { s.setFrame p .running with
    resumes := Function.update s.resumes p (Function.update (s.resumes p) x (s.resumes p x + 1)) }.goto w (.exec m p)
  have hframe : t.frame = Function.update s.frame p .running := rfl
  have hrest : ∀ y, y ≠ p → t.frame y = s.frame y := fun y hy => by rw [hframe, Function.update_of_ne hy]
  have hmine : 0 < s.control p (.await : Place W) := by simp [State.control, hp, Frame.isAwaiting]
  have hzero : ∀ v, s.control p (.worker v) = 0 := fun v => (h.once p hpf).eq_zero hmine (by simp)
  have hbusy : (s.worker w).finishes = some x := by rw [hw]; rfl
  have hother : ∀ y, y ≠ p → ∀ a, t.control y a ≤ s.control y a := by
    intro y hyp a
    cases a with
    | worker v =>
      by_cases hv : v = w
      · simp [t, State.control, State.goto, State.setFrame, hv, WorkerPc.drives, Ne.symm hyp]
      · simp [t, State.control, State.goto, State.setFrame, hv]
    | await => simp [t, State.control, State.goto, State.setFrame, hyp]
    | _ => exact le_rfl
  have honce : ∀ y, t.frame y ≠ .final → Once (t.control y) := by
    intro y hy
    by_cases hyp : y = p
    · subst hyp
      refine (h.once y hpf).move (a := .await) (b := .worker w) (by simp) ?_ fun a ha hb => ?_
      · simp [t, State.control, State.goto, State.setFrame, WorkerPc.drives, Frame.isAwaiting, hp]
      · cases a with
        | await => exact absurd rfl ha
        | worker v =>
          have hv : v ≠ w := fun hv => hb (hv ▸ rfl)
          simp [t, State.control, State.goto, State.setFrame, hv]
        | _ => exact le_rfl
    · exact (h.once y (hrest y hyp ▸ hy)).mono (hother y hyp)
  have hunborn : ∀ y, t.frame y = .unborn → ∀ a, t.control y a = 0 := by
    intro y hy a
    have hyp : y ≠ p := by
      rintro rfl
      rw [hframe, Function.update_self] at hy
      cases hy
    exact Nat.le_zero.mp ((hother y hyp a).trans (h.unborn y (hrest y hyp ▸ hy) a).le)
  refine h.reframe (t := t) rfl hrest hpf rfl rfl rfl
    (fun v hv hm => hv (h.finishing v w x (h.finishes_of_needs hp hstored (hzero v) hm) hbusy)) honce hunborn
    ⟨Function.update_self .., hown.keep rfl fun y hy => ?_⟩ (by rintro _ ⟨⟩) (by rintro _ ⟨⟩) (fun c _ hc => ?_)
      (fun q c => ?_)
    fun q c hq => ?_
  · refine (hrest y ?_).trans hy
    rintro rfl
    exact hpf hy
  · cases hp.symm.trans hc
    exact ⟨hx, fun v hv m' hpc => hv (h.finishing v w x (by rw [hpc]; rfl) hbusy)⟩
  · have hcount := h.counts q c
    show Function.update s.resumes p (Function.update (s.resumes p) x (s.resumes p x + 1)) q c +
      (if t.frame q = .awaiting c then 1 else 0) = s.suspends q c
    by_cases hq : q = p
    · subst hq
      rw [hframe, Function.update_self, Function.update_self, ← hcount, hp]
      by_cases hcx : c = x
      · subst hcx
        simp
      · simp [hcx, Ne.symm hcx]
    · rw [hrest q hq, Function.update_of_ne hq]
      exact hcount
  · have hq' : 0 < Function.update s.resumes p (Function.update (s.resumes p) x (s.resumes p x + 1)) q c := hq
    by_cases hqp : q = p
    · subst hqp
      by_cases hcx : c = x
      · exact hcx ▸ hx
      · exact h.resumed q c (by simpa [hcx] using hq')
    · exact h.resumed q c (by simpa [hqp] using hq')

/-- A coroutine comes to its final suspend point. -/
theorem Inv.finish (h : Inv parent s) {m : C} (hw : s.worker w = .exec m x) :
    Inv parent ((s.setFrame x .final).goto w (.readAwaiter m x)) := by
  obtain ⟨hx, hown⟩ : s.frame x = .running ∧ s.Own w x := by
    have := h.relies w
    rwa [hw] at this
  have hdrives : (s.worker w).drives = some x := by rw [hw]; rfl
  have hxf : s.frame x ≠ .final := by rw [hx]; nofun
  let t := (s.setFrame x .final).goto w (.readAwaiter m x)
  have hframe : t.frame = Function.update s.frame x .final := rfl
  have hrest : ∀ y, y ≠ x → t.frame y = s.frame y := fun y hy => by rw [hframe, Function.update_of_ne hy]
  obtain ⟨honce, hunborn⟩ := h.moved (t := t) hdrives hxf rfl hframe nofun nofun (fun _ _ _ => ⟨rfl, rfl⟩)
    fun hne => absurd rfl hne
  refine h.reframe (t := t) rfl hrest hxf rfl rfl rfl (fun v hv => h.alone hxf hdrives hv) honce hunborn
    ⟨Function.update_self .., hown.keep rfl fun y hy => ?_⟩ (fun y hy => (Option.some.inj hy).symm) nofun
    (fun c _ hc => absurd hc (not_awaiting_of_running hx c)) ?_ h.resumed
  · refine (hrest y ?_).trans hy
    rintro rfl
    exact hxf hy
  · refine h.counts_keep rfl rfl fun q c => ?_
    by_cases hq : q = x
    · subst hq
      simp [hframe, hx]
    · rw [hrest q hq]

attribute [local simp] WorkerPc.drives WorkerPc.finishes WorkerPc.registers

/-- A coroutine finds the one it awaits not ready, and stores itself there. -/
theorem Inv.storeAwaiter (h : Inv parent s) {m c : C} (hw : s.worker w = .storeAwaiter m x c)
    (hst : s.workerStep w (.storeAwaiter m x c) = some t) : Inv parent t := by
  have hmine := h.relies w
  rw [hw] at hmine
  cases hst
  obtain ⟨hx, hnull, hown, hparent⟩ := hmine
  have hg : Inv parent (s.goto w (.storeMeta m x c)) :=
    h.goto s.state s.current (fun _ _ => rfl) (by simp) ⟨hown, hparent⟩ (by simp) rfl (by simp)
  refine hg.setAwaiter hnull hparent hx fun v hv => ?_
  by_cases hvw : v = w
  · subst hvw
    simp [State.goto, WorkerPc.registers] at hv
  · exact hvw (h.registering v w c (by simpa [State.goto, hvw] using hv) (by rw [hw]; rfl))

/-- It stores the meta under which it runs. -/
theorem Inv.storeMeta (h : Inv parent s) {m c : C} (hw : s.worker w = .storeMeta m x c)
    (hst : s.workerStep w (.storeMeta m x c) = some t) : Inv parent t := by
  have hmine := h.relies w
  rw [hw] at hmine
  cases hst
  obtain ⟨⟨y, hy, hyx⟩, hparent⟩ := hmine
  have hg : Inv parent (s.goto w (.leave m)) :=
    h.goto s.state s.current (fun _ _ => rfl) (by simp) trivial (by simp) rfl (by simp)
  refine hg.setAwaiterMeta fun z hz => ⟨x, hparent, ?_⟩
  rw [hy] at hz
  cases hz
  exact hyx

/-- A coroutine at its final suspend point reads who awaits it. -/
theorem Inv.readAwaiter (h : Inv parent s) {m : C} (hw : s.worker w = .readAwaiter m x)
    (hst : s.workerStep w (.readAwaiter m x) = some t) : Inv parent t := by
  have hmine := h.relies w
  rw [hw] at hmine
  cases hst
  cases ha : s.awaiter x with
  | none => exact h.goto s.state s.current (fun _ _ => rfl) (by simp) trivial (by simp) rfl (by simp)
  | some p =>
    have hp : s.frame p = .awaiting x := by
      obtain ⟨-, hp | ⟨-, hno⟩⟩ := h.awaiter x p ha
      · exact hp
      · exact absurd hw (hno w m)
    exact h.goto s.state s.current (fun _ _ => rfl) (by simp) ⟨hmine.1, ha, hp, hmine.2⟩
      (fun y hy => by rw [hw]; exact hy) rfl (by simp)

/-- It reads the meta of the one that awaits it. -/
theorem Inv.readMeta (h : Inv parent s) {m p : C} (hw : s.worker w = .readMeta m x p)
    (hst : s.workerStep w (.readMeta m x p) = some t) : Inv parent t := by
  have hmine := h.relies w
  rw [hw] at hmine
  cases hst
  obtain ⟨hx, hstored, hp, y, hy, hyx⟩ := hmine
  have hyf : s.frame y = .final := hyx.elim (fun e => e ▸ hx) id
  cases ha : s.awaiterMeta x with
  | none =>
    exact h.goto s.state s.current (fun _ _ => rfl) (by simp) ⟨hx, hstored, hp, y, hy, Or.inr hyf⟩
      (fun y hy => by rw [hw]; exact hy) rfl (by simp)
  | some z =>
    obtain ⟨q, hq, hz⟩ := h.awaiterMeta x z ha
    cases (h.awaiter x p hstored).1.symm.trans hq
    exact h.goto s.state (Function.update s.current w (some z)) (fun v hv => Function.update_of_ne hv _ _)
      (by simp) ⟨hx, hstored, hp, z, Function.update_self .., hz⟩ (fun y hy => by rw [hw]; exact hy) rfl (by simp)

/-- A worker's next access. -/
theorem Inv.workerStep (h : Inv parent s) (hst : s.workerStep w (s.worker w) = some t) : Inv parent t := by
  have hmine := h.relies w
  cases hw : s.worker w with
  | idle | exec m x => rw [hw] at hst; cases hst
  | storeRunning m =>
    rw [hw] at hst hmine
    cases hst
    exact h.goto _ s.current (fun _ _ => rfl) (fun x hx => by rw [hw]; exact hx) trivial (by simp) rfl (by simp)
  | enter m =>
    rw [hw] at hst hmine
    cases hst
    exact h.goto _ (Function.update s.current w (some m)) (fun v hv => Function.update_of_ne hv _ _)
      (fun x hx => by rw [hw]; exact hx) ⟨m, Function.update_self .., Or.inl rfl⟩ (by simp) rfl (by simp)
  | resume m =>
    rw [hw] at hst hmine
    simp only [State.workerStep] at hst
    split_ifs at hst with hm
    · cases hst
      exact h.goto s.state s.current (fun _ _ => rfl) (by simp) trivial (by simp) rfl (by simp)
    · cases hst
      exact h.resume hw hm
  | storeState m x k =>
    rw [hw] at hst hmine
    obtain ⟨y, hy, -⟩ := hmine.2
    simp only [State.workerStep, hy] at hst
    cases hst
    exact h.goto _ s.current (fun _ _ => rfl) (fun x hx => by rw [hw]; exact hx) hmine (by simp) rfl (by simp)
  | publish m x k =>
    rw [hw] at hst hmine
    obtain ⟨y, hy, -⟩ := hmine.2
    simp only [State.workerStep, hy] at hst
    cases hst
    exact h.publish hw hy
  | awaitReady m x c =>
    rw [hw] at hst hmine
    simp only [State.workerStep] at hst
    split_ifs at hst with hc
    · cases hst
      exact h.goto s.state s.current (fun _ _ => rfl) (fun x hx => by rw [hw]; exact hx) ⟨hmine.1, hmine.2.1⟩
        (by simp) rfl (by simp)
    · cases hst
      exact h.awaits hw hc
  | storeAwaiter m x c => exact h.storeAwaiter hw (hw ▸ hst)
  | storeMeta m x c => exact h.storeMeta hw (hw ▸ hst)
  | readAwaiter m x => exact h.readAwaiter hw (hw ▸ hst)
  | readMeta m x p => exact h.readMeta hw (hw ▸ hst)
  | transfer m x p =>
    rw [hw] at hst
    cases hst
    exact h.transfer hw
  | leave m =>
    rw [hw] at hst
    cases hst
    exact h.goto s.state (Function.update s.current w none) (fun v hv => Function.update_of_ne hv _ _)
      (by simp) trivial (by simp) rfl (by simp)
  | test m =>
    rw [hw] at hst
    cases hst
    split_ifs
    · exact h.goto s.state s.current (fun _ _ => rfl) (by simp) trivial (by simp) rfl (by simp)
    · exact h.goto s.state s.current (fun _ _ => rfl) (by simp) trivial (by simp) rfl (by simp)
  | storeFinished m =>
    rw [hw] at hst
    cases hst
    exact h.goto _ s.current (fun _ _ => rfl) (by simp) trivial (by simp) rfl (by simp)

/-- **What one step preserves.** -/
theorem inv_step {l : Label C W} (h : Inv parent s) (hst : step parent s l = some t) : Inv parent t := by
  cases l with
  | spawn x =>
    obtain ⟨hx, hst⟩ := Option.ite_none_right_eq_some.mp hst
    cases hst
    exact h.spawn hx
  | pick w m =>
    obtain ⟨⟨hw, hm⟩, hst⟩ := Option.ite_none_right_eq_some.mp hst
    cases hst
    exact h.pick hw hm
  | suspend w k =>
    simp only [step] at hst
    split at hst
    · next m x hw =>
      cases hst
      have hmine := h.relies w
      rw [hw] at hmine
      exact h.goto s.state s.current (fun _ _ => rfl) (fun x hx => by rw [hw]; exact hx) hmine nofun rfl nofun
    · cases hst
  | await w c =>
    simp only [step] at hst
    split at hst
    · next m x hw =>
      obtain ⟨⟨hparent, -⟩, hst⟩ := Option.ite_none_right_eq_some.mp hst
      cases hst
      have hmine := h.relies w
      rw [hw] at hmine
      exact h.goto s.state s.current (fun _ _ => rfl) (fun x hx => by rw [hw]; exact hx)
        ⟨hmine.1, hmine.2, hparent⟩ nofun rfl nofun
    · cases hst
  | finish w =>
    simp only [step] at hst
    split at hst
    · next m x hw =>
      cases hst
      exact h.finish hw
    · cases hst
  | worker w => exact h.workerStep hst
  | wake m =>
    obtain ⟨hm, hst⟩ := Option.ite_none_right_eq_some.mp hst
    cases hst
    exact h.wake hm

/-- **The invariant of every run.** -/
theorem reachable_inv (hs : Reachable (system W parent) s) : Inv parent s := by
  refine hs.invariant (I := Inv parent) ?_ fun s t l h _ hst => inv_step h hst
  rintro _ rfl
  refine ⟨fun x _ => ?_, fun x _ a => by cases a <;> rfl, fun _ => trivial, nofun, nofun, nofun, nofun,
    fun _ _ => rfl, fun _ _ hp => absurd hp (Nat.lt_irrefl 0)⟩
  have hzero : ∀ a : Place W, State.start.control x a = 0 := fun a => by cases a <;> rfl
  exact Once.insert hzero (b := .queue) (by rw [hzero]; exact Nat.zero_le 1) fun a _ => le_rfl

end Cothread.Coro
