import Cothread.Core.FinishInv

/-!
# Each bthread is finished and recycled once

In a run without the steps that mislead a worker (`Misled`) each bthread is finished once, by the worker that has
switched away from it at its end; its reference count is the number of references that are not released; and its
`TaskMeta` goes back once, when both are (`finished_once`). In other runs a bthread is finished twice, or not at all
(`finished_twice`).
-/

namespace Cothread.Finish

open Run Places
open Worker (TaskPc WorkerPc WakerPc Waking Mem)

variable {W E T B C : Type*}

/-! ## The references -/

/-- The bthread's own reference is not released. -/
def Held (s : State W E T B C) (t : T) : Prop := s.finished t = 0 ∨ ∃ w, s.finish w = some (.release t)

/-- The reference of `bthread_join` or `bthread_detach` is not released. -/
def Joinable : JoinPc → Prop
  | .idle | .testState | .wait | .release => True
  | .recycle | .done => False

open Classical in
/-- A reference that is counted. -/
noncomputable def counted (p : Prop) : Int := if p then 1 else 0

theorem counted_true {p : Prop} (h : p) : counted p = 1 := if_pos h

theorem counted_false {p : Prop} (h : ¬p) : counted p = 0 := if_neg h

/-- A place where the `TaskMeta` is on its way back. -/
inductive Back (W : Type*)
  | finishing (w : W)  -- `HandleFinishedBthread` has released the last reference
  | joining  -- `bthread_join` or `bthread_detach` has
  | done

section Refs

variable [DecidableEq T]

def State.backs (s : State W E T B C) (t : T) : Back W → ℕ
  | .finishing w => if s.finish w = some (.recycle t) then 1 else 0
  | .joining => if s.join t = .recycle then 1 else 0
  | .done => s.recycled t

/-- The references of a bthread are counted, and its `TaskMeta` is on its way back when there are none. -/
structure Refs (s : State W E T B C) (t : T) : Prop where
  ended : ∀ w, s.finish w = some (.release t) ∨ s.finish w = some (.recycle t) → 0 < s.finished t
  alone : ∀ v w, s.finish v = some (.release t) → s.finish w = some (.release t) → v = w
  count : s.refCount t = counted (Held s t) + counted (Joinable (s.join t))
  back : Once (s.backs t)
  last : (∃ p, 0 < s.backs t p) ↔ ¬Held s t ∧ ¬Joinable (s.join t)

variable {s s' : State W E T B C} {t : T}

theorem Refs.no_back (h : Refs s t) (hr : Held s t ∨ Joinable (s.join t)) (p : Back W) : s.backs t p = 0 := by
  by_contra hne
  obtain ⟨h1, h2⟩ := h.last.mp ⟨p, Nat.pos_of_ne_zero hne⟩
  exact hr.elim h1 h2

/-- The references of a bthread stay where they are. -/
theorem Refs.same (h : Refs s t) (hrel : ∀ w, s'.finish w = some (.release t) ↔ s.finish w = some (.release t))
    (hrec : ∀ w, s'.finish w = some (.recycle t) ↔ s.finish w = some (.recycle t))
    (hcount : s'.refCount t = s.refCount t) (hjoin : s'.join t = s.join t) (hfin : s'.finished t = s.finished t)
    (hdone : s'.recycled t = s.recycled t) : Refs s' t := by
  have hheld : Held s' t = Held s t := by simp only [Held, hfin, hrel]
  have hbacks : s'.backs t = s.backs t := by
    funext p
    cases p with
    | finishing w => simp only [State.backs, hrec]
    | joining => simp only [State.backs, hjoin]
    | done => exact hdone
  refine ⟨fun w hw => ?_, fun v w hv hw => ?_, ?_, ?_, ?_⟩
  · rw [hrel, hrec] at hw
    rw [hfin]
    exact h.ended w hw
  · exact h.alone v w ((hrel v).mp hv) ((hrel w).mp hw)
  · rw [hcount, hheld, hjoin]
    exact h.count
  · rw [hbacks]
    exact h.back
  · rw [hbacks, hheld, hjoin]
    exact h.last

/-- A reference is released, and the `TaskMeta` is on its way back when it was the last one. -/
theorem Refs.put (h : Refs s t) (hr : Held s t ∨ Joinable (s.join t)) {last : Prop} [Decidable last] {p : Back W}
    (hp : s'.backs t p = if last then 1 else 0) (hother : ∀ q, q ≠ p → s'.backs t q = s.backs t q) :
    Once (s'.backs t) ∧ ((∃ q, 0 < s'.backs t q) ↔ last) := by
  refine ⟨Once.insert (h.no_back hr) (b := p) ?_ fun q hq => (hother q hq).le, fun ⟨q, hq⟩ => ?_, fun hl => ⟨p, ?_⟩⟩
  · rw [hp]
    split_ifs <;> omega
  · by_contra hl
    by_cases hqp : q = p
    · subst hqp
      rw [hp, if_neg hl] at hq
      omega
    · rw [hother q hqp, h.no_back hr] at hq
      omega
  · rw [hp, if_pos hl]
    omega

/-- The `TaskMeta` goes back. -/
theorem Refs.take (h : Refs s t) {p : Back W} (hne : p ≠ .done) (hp : 0 < s.backs t p) (hp' : s'.backs t p = 0)
    (hdone : s'.recycled t = s.recycled t + 1) (hother : ∀ q, q ≠ p → q ≠ .done → s'.backs t q = s.backs t q) :
    Once (s'.backs t) ∧ ∃ q, 0 < s'.backs t q := by
  have hdone' : s'.backs t .done = s.backs t .done + 1 := hdone
  refine ⟨h.back.move hne (by omega) fun q hq hq' => (hother q hq hq').le, .done, by omega⟩

variable [DecidableEq W] {w : W}

/-- `Release()` of `HandleFinishedBthread`. -/
theorem Refs.finishRelease (h : Refs s t) (hw : s.finish w = some (.release t)) :
    Refs (s.finishStep w (.release t)) t := by
  have hheld : Held s t := Or.inr ⟨w, hw⟩
  have hended := h.ended w (Or.inl hw)
  have hfinish : ∀ v, (s.finishStep w (.release t)).finish v =
      if v = w then (if s.refCount t = 1 then some (.recycle t) else none) else s.finish v := by
    intro v
    simp [State.finishStep, State.setFinish, State.release, Function.update_apply]
  have hnot : ∀ v, (s.finishStep w (.release t)).finish v ≠ some (.release t) := by
    intro v hv
    rw [hfinish] at hv
    split_ifs at hv with h1
    · cases hv
    · exact h1 (h.alone v w hv hw)
  have hfree : ¬Held (s.finishStep w (.release t)) t := fun hr => hr.elim hended.ne' fun ⟨v, hv⟩ => hnot v hv
  have hback : (s.finishStep w (.release t)).backs t (.finishing w) = if s.refCount t = 1 then 1 else 0 := by
    by_cases hl : s.refCount t = 1 <;> simp [State.backs, hfinish, hl]
  have hother : ∀ q, q ≠ .finishing w → (s.finishStep w (.release t)).backs t q = s.backs t q := by
    intro q hq
    cases q with
    | finishing v =>
      have hv : v ≠ w := fun hv => hq (by rw [hv])
      simp only [State.backs, hfinish, if_neg hv]
    | joining | done => rfl
  obtain ⟨honce, hlast⟩ := h.put (Or.inl hheld) hback hother
  have hcount := h.count
  rw [counted_true hheld] at hcount
  refine ⟨fun _ _ => hended, fun v _ hv _ => absurd hv (hnot v), ?_, honce, hlast.trans ?_⟩
  · rw [counted_false hfree]
    simp only [State.finishStep, State.setFinish, State.release, Function.update_self]
    omega
  · rw [show (s.finishStep w (.release t)).join t = s.join t from rfl]
    by_cases hj : Joinable (s.join t)
    · rw [counted_true hj] at hcount
      exact iff_of_false (by omega) fun hr => hr.2 hj
    · rw [counted_false hj] at hcount
      exact iff_of_true (by omega) ⟨hfree, hj⟩

/-- `ReleaseTaskMeta` of `HandleFinishedBthread`. -/
theorem Refs.finishRecycle (h : Refs s t) (hw : s.finish w = some (.recycle t)) :
    Refs (s.finishStep w (.recycle t)) t := by
  have hended := h.ended w (Or.inr hw)
  have hpos : 0 < s.backs t (.finishing w) := by simp [State.backs, hw]
  have hfinish : ∀ v, (s.finishStep w (.recycle t)).finish v = if v = w then none else s.finish v := by
    intro v
    simp [State.finishStep, State.setFinish, State.recycle, Function.update_apply]
  have hrel : ∀ v, (s.finishStep w (.recycle t)).finish v = some (.release t) ↔ s.finish v = some (.release t) := by
    intro v
    rw [hfinish]
    split_ifs with hv
    · rw [hv, hw]
      simp
    · rfl
  have hheld : Held (s.finishStep w (.recycle t)) t ↔ Held s t := or_congr Iff.rfl (exists_congr hrel)
  have hdone : (s.finishStep w (.recycle t)).recycled t = s.recycled t + 1 := by
    simp [State.finishStep, State.setFinish, State.recycle]
  have hback : (s.finishStep w (.recycle t)).backs t (.finishing w) = 0 := by simp [State.backs, hfinish]
  have hother : ∀ q, q ≠ .finishing w → q ≠ .done → (s.finishStep w (.recycle t)).backs t q = s.backs t q := by
    intro q hq hq'
    cases q with
    | finishing v =>
      have hv : v ≠ w := fun hv => hq (by rw [hv])
      simp only [State.backs, hfinish, if_neg hv]
    | joining => rfl
    | done => exact absurd rfl hq'
  obtain ⟨honce, hback⟩ := h.take (by simp) hpos hback hdone hother
  refine ⟨fun _ _ => hended, fun v v' hv hv' => h.alone v v' ((hrel v).mp hv) ((hrel v').mp hv'), ?_, honce, ?_⟩
  · rw [show counted (Held (s.finishStep w (.recycle t)) t) = counted (Held s t) by rw [hheld]]
    exact h.count
  · rw [hheld]
    exact iff_of_true hback (h.last.mp ⟨_, hpos⟩)

omit [DecidableEq W] in
theorem setJoin_join (pc : JoinPc) : (s.setJoin t pc).join t = pc := Function.update_self ..

omit [DecidableEq W] in
/-- `bthread_join` goes on before its `Release()`. -/
theorem Refs.joinGo (h : Refs s t) {pc : JoinPc} (hj : Joinable (s.join t)) (hpc : Joinable pc) :
    Refs (s.setJoin t pc) t := by
  have hzero := h.no_back (Or.inr hj)
  have hnorecycle : ∀ {k : JoinPc}, Joinable k → k ≠ .recycle := fun hk he => by rw [he] at hk; exact hk
  have hback : ∀ q, (s.setJoin t pc).backs t q = s.backs t q := by
    intro q
    cases q with
    | joining => simp [State.backs, setJoin_join, hnorecycle hpc, hnorecycle hj]
    | finishing w | done => rfl
  refine ⟨h.ended, h.alone, ?_, h.back.mono fun q => (hback q).le, ?_⟩
  · rw [setJoin_join, counted_true hpc, ← counted_true hj]
    exact h.count
  · rw [setJoin_join]
    refine iff_of_false (fun ⟨q, hq⟩ => ?_) fun hr => hr.2 hpc
    rw [hback, hzero] at hq
    omega

omit [DecidableEq W] in
/-- `Release()` of `bthread_join` or `bthread_detach`. -/
theorem Refs.joinRelease (h : Refs s t) (hj : s.join t = .release) :
    Refs ((s.release t).1.setJoin t (if s.refCount t = 1 then .recycle else .done)) t := by
  have hjoinable : Joinable (s.join t) := by rw [hj]; trivial
  have hnot : ¬Joinable (if s.refCount t = 1 then JoinPc.recycle else .done) := by
    split_ifs <;> exact id
  have hback : ((s.release t).1.setJoin t (if s.refCount t = 1 then .recycle else .done)).backs t .joining =
      if s.refCount t = 1 then 1 else 0 := by
    by_cases hl : s.refCount t = 1 <;> simp [State.backs, setJoin_join, hl]
  have hother : ∀ q, q ≠ .joining →
      ((s.release t).1.setJoin t (if s.refCount t = 1 then .recycle else .done)).backs t q = s.backs t q := by
    intro q hq
    cases q with
    | joining => exact absurd rfl hq
    | finishing w | done => rfl
  obtain ⟨honce, hlast⟩ := h.put (Or.inr hjoinable) hback hother
  have hcount := h.count
  rw [counted_true hjoinable] at hcount
  refine ⟨h.ended, h.alone, ?_, honce, hlast.trans ?_⟩
  · rw [setJoin_join, counted_false hnot]
    show Function.update s.refCount t (s.refCount t - 1) t = counted (Held s t) + 0
    rw [Function.update_self]
    omega
  · rw [setJoin_join]
    show s.refCount t = 1 ↔ ¬Held s t ∧ _
    by_cases hh : Held s t
    · rw [counted_true hh] at hcount
      exact iff_of_false (by omega) fun hr => hr.1 hh
    · rw [counted_false hh] at hcount
      exact iff_of_true (by omega) ⟨hh, hnot⟩

omit [DecidableEq W] in
/-- The `TaskMeta` is given back by `bthread_join` or `bthread_detach`. -/
theorem Refs.joinRecycle (h : Refs s t) (hj : s.join t = .recycle) : Refs ((s.recycle t).setJoin t .done) t := by
  have hpos : 0 < s.backs t .joining := by simp [State.backs, hj]
  have hnot : ¬Joinable (s.join t) := by rw [hj]; exact id
  have hdone : ((s.recycle t).setJoin t .done).recycled t = s.recycled t + 1 := Function.update_self ..
  have hback : ((s.recycle t).setJoin t .done).backs t .joining = 0 := by simp [State.backs, setJoin_join]
  have hother : ∀ q, q ≠ .joining → q ≠ .done → ((s.recycle t).setJoin t .done).backs t q = s.backs t q := by
    intro q hq hq'
    cases q with
    | joining => exact absurd rfl hq
    | done => exact absurd rfl hq'
    | finishing w => rfl
  obtain ⟨honce, hback⟩ := h.take (by simp) hpos hback hdone hother
  refine ⟨h.ended, h.alone, ?_, honce, ?_⟩
  · rw [setJoin_join, counted_false (p := Joinable .done) id, ← counted_false hnot]
    exact h.count
  · rw [setJoin_join]
    exact iff_of_true hback ⟨(h.last.mp ⟨_, hpos⟩).1, id⟩

omit [DecidableEq T] in
/-- What one worker does next is not what another one does. -/
theorem update_other {f : W → Option (FinishPc T)} {v : W} {x : Option (FinishPc T)} {k : FinishPc T}
    (hx : x ≠ some k) (hw : f w ≠ some k) : Function.update f w x v = some k ↔ f v = some k := by
  by_cases hv : v = w
  · subst hv
    rw [Function.update_self]
    exact iff_of_false hx hw
  · rw [Function.update_of_ne hv]

/-- `HandleFinishedBthread` of another bthread. -/
theorem Refs.finishOther (h : Refs s t) {pc : FinishPc T} (hw : s.finish w = some pc) (hrel : pc ≠ .release t)
    (hrec : pc ≠ .recycle t) : Refs (s.finishStep w pc) t := by
  have hother : ∀ k, pc ≠ k → s.finish w ≠ some k := fun k hk he => hk (Option.some.inj (hw.symm.trans he))
  cases pc with
  | release u =>
    have hut : t ≠ u := fun he => hrel (by rw [he])
    refine h.same (fun v => update_other ?_ (hother _ hrel)) (fun v => update_other ?_ (hother _ hrec))
      (Function.update_of_ne hut _ _) rfl rfl rfl
    · split_ifs <;> simp
    · split_ifs <;> simp [Ne.symm hut]
  | recycle u =>
    have hut : t ≠ u := fun he => hrec (by rw [he])
    exact h.same (fun v => update_other (by simp) (hother _ hrel)) (fun v => update_other (by simp) (hother _ hrec))
      rfl rfl rfl (Function.update_of_ne hut _ _)

omit [DecidableEq W] in
/-- The bthread's own reference stays, wherever it is. -/
theorem Refs.own (h : Refs s t) (hheld : Held s t) (hheld' : Held s' t)
    (hended : ∀ v, s'.finish v = some (.release t) ∨ s'.finish v = some (.recycle t) → 0 < s'.finished t)
    (halone : ∀ v v', s'.finish v = some (.release t) → s'.finish v' = some (.release t) → v = v')
    (hrec : ∀ v, s'.finish v = some (.recycle t) ↔ s.finish v = some (.recycle t))
    (hcount : s'.refCount t = s.refCount t) (hjoin : s'.join t = s.join t) (hdone : s'.recycled t = s.recycled t) :
    Refs s' t := by
  have hbacks : s'.backs t = s.backs t := by
    funext p
    cases p with
    | finishing v => simp only [State.backs, hrec]
    | joining => simp only [State.backs, hjoin]
    | done => exact hdone
  refine ⟨hended, halone, ?_, ?_, ?_⟩
  · rw [hcount, hjoin, counted_true hheld', ← counted_true hheld]
    exact h.count
  · rw [hbacks]
    exact h.back
  · refine iff_of_false (fun ⟨p, hp⟩ => ?_) fun hr => hr.1 hheld'
    rw [hbacks, h.no_back (Or.inl hheld)] at hp
    omega

end Refs

/-! ## Every step -/

section Sound

variable [DecidableEq W] [DecidableEq E] [DecidableEq T] [DecidableEq B] [DecidableEq C]
variable {s s' : State W E T B C} {t u : T} {w : W} {l : Worker.Label W E T B C} {b : Worker.State W E T B C}
variable {k : Label W E T B C}

/-- A worker in `HandleFinishedBthread` does nothing else, every bthread has one end, and its references are counted. -/
structure Sound (s : State W E T B C) : Prop where
  idle : ∀ w, s.finish w ≠ none → Idle (s.base.worker w)
  ends : ∀ t, Inv s t
  refs : ∀ t, Refs s t

omit [DecidableEq E] [DecidableEq B] [DecidableEq C] in
/-- Beside the switches, a worker records only that a bthread is finished. -/
theorem note_cases (s : State W E T B C) (w : W) : (∃ r, s.note w = { s with resumed := r }) ∨
    ∃ t, s.base.worker w = .handle t ∧ s.base.mem.taskState t = .finished ∧ s.note w = { s with
      finish := Function.update s.finish w (some (.release t))
      finished := Function.update s.finished t (s.finished t + 1) } := by
  unfold State.note
  split
  · exact Or.inl ⟨_, rfl⟩
  · exact Or.inl ⟨_, rfl⟩
  · next t hw =>
    split_ifs with hst
    · exact Or.inr ⟨t, hw, hst, rfl⟩
    · exact Or.inl ⟨_, rfl⟩
  · exact Or.inl ⟨_, rfl⟩

omit [DecidableEq E] [DecidableEq B] [DecidableEq C] in
/-- `HandleFinishedBthread` begins with its reference. -/
theorem Refs.start (h : Refs s t) (hfin : s.finished t = 0) :
    Refs { s with
      base := b
      finish := Function.update s.finish w (some (.release t))
      finished := Function.update s.finished t (s.finished t + 1) } t := by
  have hnone : ∀ v, s.finish v ≠ some (.release t) ∧ s.finish v ≠ some (.recycle t) := fun v =>
    ⟨fun hv => (h.ended v (Or.inl hv)).ne' hfin, fun hv => (h.ended v (Or.inr hv)).ne' hfin⟩
  have honly : ∀ v, Function.update s.finish w (some (.release t)) v = some (.release t) → v = w := by
    intro v hv
    by_contra hvw
    rw [Function.update_of_ne hvw] at hv
    exact (hnone v).1 hv
  refine h.own (Or.inl hfin) (Or.inr ⟨w, Function.update_self ..⟩) ?_ (fun v v' hv hv' => ?_) ?_ rfl rfl rfl
  · intro _ _
    show 0 < Function.update s.finished t (s.finished t + 1) t
    rw [Function.update_self]
    omega
  · exact (honly v hv).trans (honly v' hv').symm
  · exact fun v => update_other (by simp) (hnone w).2

omit [DecidableEq E] [DecidableEq B] [DecidableEq C] in
/-- `HandleFinishedBthread` begins for another bthread. -/
theorem Refs.start_other (h : Refs s t) (hut : u ≠ t) (hw : s.finish w = none) :
    Refs { s with
      base := b
      finish := Function.update s.finish w (some (.release u))
      finished := Function.update s.finished u (s.finished u + 1) } t := by
  have hnone : ∀ k, s.finish w ≠ some k := fun k => by rw [hw]; simp
  exact h.same (fun v => update_other (by simpa using hut) (hnone _)) (fun v => update_other (by simp) (hnone _))
    rfl rfl (Function.update_of_ne (Ne.symm hut) _ _) rfl

omit [DecidableEq E] [DecidableEq B] [DecidableEq C] in
/-- Only `HandleTaskAfterRun` begins `HandleFinishedBthread`. -/
theorem note_finish {v : W} (hv : ((reader l).elim s s.note).finish v ≠ none) :
    s.finish v ≠ none ∨ reader l = some v ∧ ∃ u, s.base.worker v = .handle u := by
  cases hl : reader l with
  | none =>
    rw [hl] at hv
    exact Or.inl hv
  | some w =>
    rw [hl, Option.elim_some] at hv
    rcases note_cases s w with ⟨r, hr⟩ | ⟨u, hw, _, hr⟩
    · rw [hr] at hv
      exact Or.inl hv
    · rw [hr] at hv
      by_cases hvw : v = w
      · subst hvw
        exact Or.inr ⟨rfl, u, hw⟩
      · exact Or.inl fun hn => hv ((Function.update_of_ne hvw _ _).trans hn)

omit [DecidableEq E] [DecidableEq B] [DecidableEq C] in
/-- A worker goes on that is not in `HandleFinishedBthread`. -/
theorem idle_goto {m : Mem W T B C} {pc : WorkerPc T B C} (h : ∀ v, s.finish v ≠ none → Idle (s.base.worker v))
    (hl : reader l = some w) (hbusy : ¬Idle (s.base.worker w)) (hpc : (∃ u, s.base.worker w = .handle u) → Idle pc)
    {v : W} (hv : ((reader l).elim s s.note).finish v ≠ none) : Idle ((s.base.goto m w pc).worker v) := by
  rw [Worker.goto_worker]
  rcases note_finish hv with h1 | ⟨h1, h2⟩
  · split_ifs with hvw
    · rw [hvw] at h1
      exact absurd (h w h1) hbusy
    · exact h v h1
  · rw [hl] at h1
    cases h1
    rw [if_pos rfl]
    exact hpc h2

/-- A worker in `HandleFinishedBthread` stays there until it returns. -/
theorem Sound.base_idle (h : Sound s) (hpick : ∀ w, picker l = some w → s.finish w = none)
    (hst : Worker.step s.base l = some b) {v : W} (hv : ((reader l).elim s s.note).finish v ≠ none) :
    Idle (b.worker v) := by
  cases changed hst with
  | quiet _ _ _ _ _ _ hplain hidle =>
    rcases note_finish hv with h1 | ⟨h1, u, h2⟩
    · exact hidle v (fun hp => h1 (hpick v hp)) (h.idle v h1)
    · have hnot := hplain v h1
      rw [h2] at hnot
      cases hnot
  | swapIn w u hw | swap w u next hw | ends w u hw =>
    refine idle_goto h.idle rfl (by rw [hw]; exact id) (fun ⟨x, hx⟩ => ?_) hv
    rw [hw] at hx
    cases hx
  | handled _ w u pc hw hl hpc => exact idle_goto h.idle hl (by rw [hw]; exact id) (fun _ => hpc) hv

omit [DecidableEq E] [DecidableEq B] [DecidableEq C] in
/-- The references after a step of the workers. -/
theorem Sound.base_refs (h : Sound s) (hok : ¬Misled s (.base l)) (t : T) :
    Refs { (reader l).elim s s.note with base := b } t := by
  have hkept : ∀ r, Refs { s with resumed := r, base := b } t := fun r =>
    (h.refs t).same (fun _ => Iff.rfl) (fun _ => Iff.rfl) rfl rfl rfl rfl
  cases hl : reader l with
  | none => exact hkept s.resumed
  | some w =>
    rw [Option.elim_some]
    rcases note_cases s w with ⟨r, hr⟩ | ⟨u, hw, hst, hr⟩
    · rw [hr]
      exact hkept r
    · rw [hr]
      have hnone : s.finish w = none := by
        by_contra hf
        have hidle := h.idle w hf
        rw [hw] at hidle
        cases hidle
      by_cases hut : u = t
      · subst hut
        have hres : s.resumed w = false := Bool.eq_false_of_not_eq_true fun hr =>
          hok (Or.inr (Or.inr ⟨w, u, hl, by rw [hw]; rfl, hr, hst⟩))
        have hleft := ((h.ends u).found hw hst hres).1
        have hzero : s.ends u .done = 0 := (h.ends u).once.eq_zero hleft (by simp)
        exact (h.refs u).start hzero
      · exact (h.refs t).start_other hut hnone

/-- A step of the workers. -/
theorem Sound.base (h : Sound s) (hok : ¬Misled s (.base l)) (hpick : ∀ w, picker l = some w → s.finish w = none)
    (hsaved : ∀ u, (s.base.mem.context u).Saved) (hst : Worker.step s.base l = some b) :
    Sound { (reader l).elim s s.note with base := b } :=
  ⟨fun _ hv => h.base_idle hpick hst hv, fun t => (h.ends t).base hok hsaved hst, h.base_refs hok⟩

omit [DecidableEq W] [DecidableEq E] [DecidableEq B] [DecidableEq C] in
/-- A step that leaves the workers alone. -/
theorem Sound.other (h : Sound s) (hb : s'.base = s.base) (hr : s'.resumed = s.resumed)
    (hf : s'.finished = s.finished) (hidle : ∀ w, s'.finish w ≠ none → s.finish w ≠ none)
    (hrefs : ∀ t, Refs s' t) : Sound s' := by
  refine ⟨fun w hw => ?_, fun t => (h.ends t).same ⟨?_, ?_, ?_, ?_⟩ ?_, hrefs⟩
  · rw [hb]
    exact h.idle w (hidle w hw)
  · intro v x
    rw [hb]
  · intro v
    rw [hb, hr]
  · rw [hb]
  · rw [hf]
  · rw [hb]

omit [DecidableEq E] [DecidableEq B] [DecidableEq C] in
/-- A step of `HandleFinishedBthread`. -/
theorem Sound.finishStep {pc : FinishPc T} (h : Sound s) (hw : s.finish w = some pc) : Sound (s.finishStep w pc) := by
  have hidle : ∀ x v, Function.update s.finish w x v ≠ none → s.finish v ≠ none := by
    intro x v hv
    by_cases hvw : v = w
    · subst hvw
      rw [hw]
      simp
    · rwa [Function.update_of_ne hvw] at hv
  have hrefs : ∀ t, Refs (s.finishStep w pc) t := by
    intro t
    by_cases hrel : pc = .release t
    · subst hrel
      exact (h.refs t).finishRelease hw
    · by_cases hrec : pc = .recycle t
      · subst hrec
        exact (h.refs t).finishRecycle hw
      · exact (h.refs t).finishOther hw hrel hrec
  cases pc <;> exact h.other rfl rfl rfl (hidle _) hrefs

omit [DecidableEq W] [DecidableEq E] [DecidableEq B] [DecidableEq C] in
/-- A step of the one call of `bthread_join` or `bthread_detach`. -/
theorem Sound.join (h : Sound s) (hb : s'.base = s.base) (hr : s'.resumed = s.resumed) (hf : s'.finished = s.finished)
    (hfin : s'.finish = s.finish) (hrefs : Refs s' t)
    (hother : ∀ u, u ≠ t → s'.refCount u = s.refCount u ∧ s'.join u = s.join u ∧ s'.recycled u = s.recycled u) :
    Sound s' := by
  refine h.other hb hr hf (fun w => by rw [hfin]; exact id) fun u => ?_
  by_cases hut : u = t
  · rw [hut]
    exact hrefs
  · obtain ⟨h1, h2, h3⟩ := hother u hut
    exact (h.refs u).same (fun w => by rw [hfin]) (fun w => by rw [hfin]) h1 h2 (by rw [hf]) h3

omit [DecidableEq W] [DecidableEq E] [DecidableEq B] [DecidableEq C] in
/-- The call goes on before its `Release()`. -/
theorem Sound.joinGo (h : Sound s) {pc : JoinPc} (hj : Joinable (s.join t)) (hpc : Joinable pc) :
    Sound (s.setJoin t pc) :=
  h.join rfl rfl rfl rfl ((h.refs t).joinGo hj hpc) fun _ hu => ⟨rfl, Function.update_of_ne hu _ _, rfl⟩

omit [DecidableEq W] [DecidableEq E] [DecidableEq B] [DecidableEq C] in
/-- A step of `bthread_join` or `bthread_detach`. -/
theorem Sound.joinStep (h : Sound s) (hst : s.joinStep t (s.join t) = some s') : Sound s' := by
  cases hj : s.join t with
  | idle | done => rw [hj] at hst; cases hst
  | testState =>
    rw [hj] at hst
    cases hst
    refine h.joinGo (by rw [hj]; trivial) ?_
    split_ifs <;> trivial
  | wait =>
    rw [hj] at hst
    cases hst
    exact h.joinGo (by rw [hj]; trivial) trivial
  | release =>
    rw [hj] at hst
    have hs' : (s.release t).1.setJoin t (if s.refCount t = 1 then .recycle else .done) = s' := by
      simpa [State.joinStep, State.release] using hst
    subst hs'
    exact h.join rfl rfl rfl rfl ((h.refs t).joinRelease hj) fun u hu =>
      ⟨Function.update_of_ne hu _ _, Function.update_of_ne hu _ _, rfl⟩
  | recycle =>
    rw [hj] at hst
    cases hst
    exact h.join rfl rfl rfl rfl ((h.refs t).joinRecycle hj) fun u hu =>
      ⟨rfl, Function.update_of_ne hu _ _, Function.update_of_ne hu _ _⟩

/-- **Every step keeps the ends and the references.** -/
theorem sound_step (hok : ¬Misled s k) (hsaved : ∀ u, (s.base.mem.context u).Saved) (h : Sound s)
    (hst : step s k = some s') : Sound s' := by
  cases k with
  | base l =>
    simp only [step] at hst
    split_ifs at hst with hpick
    obtain ⟨b, hb, rfl⟩ := Option.map_eq_some_iff.mp hst
    exact h.base hok hpick hsaved hb
  | finish w =>
    simp only [step] at hst
    split at hst
    · obtain ⟨pc, hw, rfl⟩ := Option.map_eq_some_iff.mp hst
      exact h.finishStep hw
    · cases hst
  | join t | detach t =>
    simp only [step] at hst
    split_ifs at hst with hidle
    cases hst
    exact h.joinGo (by rw [hidle.2]; trivial) trivial
  | joiner t => exact h.joinStep hst

/-- The workers run as they do without `HandleFinishedBthread` and the joins. -/
theorem base_step (hst : step s k = some s') : s'.base = s.base ∨ ∃ l, Worker.step s.base l = some s'.base := by
  cases k with
  | base l =>
    simp only [step] at hst
    split_ifs at hst
    obtain ⟨b, hb, rfl⟩ := Option.map_eq_some_iff.mp hst
    exact Or.inr ⟨l, hb⟩
  | finish w =>
    simp only [step] at hst
    split at hst
    · obtain ⟨pc, _, rfl⟩ := Option.map_eq_some_iff.mp hst
      left
      cases pc <;> rfl
    · cases hst
  | join t | detach t =>
    simp only [step] at hst
    split_ifs at hst
    cases hst
    exact Or.inl rfl
  | joiner t =>
    left
    simp only [step] at hst
    cases hj : s.join t <;> rw [hj] at hst <;> cases hst <;> rfl

/-- The system of `Worker` simulates this one. -/
theorem sim_base : Sim (system W E T B C) (Worker.system W E T B C) fun s b => s.base = b where
  init := by
    rintro s ⟨value, flag, rfl⟩
    exact ⟨_, ⟨value, flag, rfl⟩, rfl⟩
  step := by
    rintro s t k _ rfl hst
    rcases base_step hst with hb | ⟨l, hl⟩
    · exact ⟨[], s.base, rfl, hb⟩
    · exact ⟨[l], t.base, by rw [exec_cons, show (Worker.system W E T B C).step s.base l = _ from hl]; rfl, rfl⟩

/-- Tasks are resumed where they have switched away. -/
theorem context_saved {ok : State W E T B C → Label W E T B C → Prop} (hs : Reach (system W E T B C) ok s) (u : T) :
    (s.base.mem.context u).Saved := by
  obtain ⟨b, hb, rfl⟩ := sim_base.reachable hs
  exact (Worker.reachable_books hb).context u

omit [DecidableEq W] [DecidableEq E] [DecidableEq B] [DecidableEq C] in
theorem sound_start (value : B → Int) (flag : C → Bool) : Sound (State.start value flag : State W E T B C) := by
  refine ⟨fun w hw => absurd rfl hw, fun t => ?_, fun t => ?_⟩
  · refine inv_none (fun e => ?_) (fun v w x y hv => by cases hv) rfl (fun ht => by cases ht)
      fun v w x hv => by cases hv
    cases e <;> rfl
  · have hzero : ∀ p, (State.start value flag : State W E T B C).backs t p = 0 := fun p => by cases p <;> rfl
    refine ⟨fun w hw => ?_, fun v w hv => (by cases hv), ?_, Once.insert hzero (b := .done) ?_ fun p _ => le_rfl, ?_⟩
    · rcases hw with hw | hw <;> cases hw
    · have hheld : Held (State.start value flag : State W E T B C) t := Or.inl rfl
      have hjoin : Joinable ((State.start value flag : State W E T B C).join t) := trivial
      rw [counted_true hheld, counted_true hjoin]
      rfl
    · rw [hzero]
      omega
    · refine iff_of_false (fun ⟨p, hp⟩ => hp.ne' (hzero p)) fun hr => hr.1 (Or.inl rfl)

/-- What there is to say about the end of a bthread and its `TaskMeta`. -/
structure Settled (s : State W E T B C) (t : T) : Prop where
  finished_le : s.finished t ≤ 1
  finished_eq : exits (s.base.mem.context t) = true → (∀ w, Off (s.base.worker w) t) → s.finished t = 1
  after_end : 0 < s.finished t → exits (s.base.mem.context t) = true
  references : 0 ≤ s.refCount t
  recycled_le : s.recycled t ≤ 1
  after_both : 0 < s.recycled t → s.finished t = 1 ∧ s.join t = .done
  recycled_eq : s.finished t = 1 → s.join t = .done →
    (∀ w, s.finish w ≠ some (.release t) ∧ s.finish w ≠ some (.recycle t)) → s.recycled t = 1

omit [DecidableEq W] [DecidableEq E] [DecidableEq B] [DecidableEq C] in
theorem Sound.settled (h : Sound s) (t : T) : Settled s t := by
  have hinv := h.ends t
  have hrefs := h.refs t
  have hle : s.finished t ≤ 1 := hinv.once.le_one .done
  refine ⟨hle, fun hover hoff => ?_, hinv.saved, ?_, hrefs.back.le_one .done, fun hpos => ?_,
    fun hfin hdone hnone => ?_⟩
  · obtain ⟨e, he⟩ := hinv.exited hover
    cases e with
    | running w => exact absurd (runs_of_ends he) ((hoff w).1 true)
    | left w => exact absurd he.ne' (by simp [State.ends, (hoff w).2])
    | done =>
      have hpos : 0 < s.finished t := he
      omega
  · rw [hrefs.count]
    unfold counted
    split_ifs <;> omega
  · obtain ⟨hheld, hjoin⟩ := hrefs.last.mp ⟨.done, hpos⟩
    have hzero : s.finished t ≠ 0 := fun hz => hheld (Or.inl hz)
    refine ⟨by omega, ?_⟩
    have hpos' : 0 < s.backs t .done := hpos
    have hnot : s.backs t .joining = 0 := hrefs.back.eq_zero hpos' (by simp)
    cases hj : s.join t with
    | done => rfl
    | recycle =>
      simp only [State.backs, hj] at hnot
      cases hnot
    | _ =>
      rw [hj] at hjoin
      exact absurd trivial hjoin
  · have hheld : ¬Held s t := by
      rintro (hz | ⟨w, hw⟩)
      · omega
      · exact (hnone w).1 hw
    obtain ⟨p, hp⟩ := hrefs.last.mpr ⟨hheld, by rw [hdone]; exact id⟩
    have hle := hrefs.back.le_one .done
    cases p with
    | finishing w => simp [State.backs, (hnone w).2] at hp
    | joining => simp [State.backs, hdone] at hp
    | done =>
      have hpos : 0 < s.recycled t := hp
      exact le_antisymm hle hpos

/-- **Each bthread is finished and recycled once**, in every run without the steps that mislead a worker. -/
theorem finished_once (hs : Reach (system W E T B C) (fun s l => ¬Misled s l) s) : ∀ t, Settled s t := by
  have hsound : Sound s := by
    refine hs.invariant_of (I := Sound) (fun _ hs => context_saved hs) ?_ ?_
    · rintro s ⟨value, flag, rfl⟩
      exact sound_start value flag
    · intro s s' l hsaved h hok hst
      exact sound_step hok hsaved h hst
  exact hsound.settled

end Sound

/-! ## Runs -/

/-- A bthread is created, ends and is detached. -/
def endingRun : List (Label Unit Unit Unit Unit Unit) :=
  [.base (.threadWake () (.create ())), .base (.thread ()), .base (.thread ()), .base (.pickGlobal () ()),
    .base (.worker ()), .base (.worker ()), .base (.worker ()), .base (.call () .exit), .base (.worker ()),
    .base (.worker ()), .base (.worker ()), .base (.worker ()), .finish (), .detach (), .joiner (), .joiner ()]

theorem finished_once_detached : ∃ s, Reachable (system Unit Unit Unit Unit Unit) s ∧
    (∀ t, Settled s t) ∧ s.finished () = 1 ∧ s.refCount () = 0 ∧ s.recycled () = 1 := by
  refine ⟨_, reachable_exec (.init ⟨fun _ => 0, fun _ => false, rfl⟩) (show exec _ _ endingRun = some _ from rfl),
    finished_once (reach_exec (fun _ _ => id) (.init ⟨fun _ => 0, fun _ => false, rfl⟩)
      (show exec _ _ endingRun = some _ from rfl) (by decide)), by decide, by decide, by decide⟩

/-- A bthread is created, and worker `false` switches to it. -/
def createdRun : List (Worker.Label Bool Unit Unit Unit Unit) :=
  [.threadWake () (.create ()), .thread (), .thread (), .pickGlobal false (), .worker false, .worker false,
    .worker false]

/-- The bthread waits for a condition variable, and worker `false` switches away from it. Before the worker loads its
state, the bthread is notified, and it ends on worker `true`. Both workers execute `HandleFinishedBthread`. -/
def twiceRun : List (Label Bool Unit Unit Unit Unit) :=
  [createdRun,
    [.call false (.condWait ()), .worker false, .worker false, .worker false, .threadWake () (.notify () false),
      .thread (), .thread (), .thread (), .thread (), .pickGlobal true (), .worker true, .worker true, .worker true,
      .call true .exit, .worker true, .worker true, .worker false, .worker false, .worker true,
      .worker true]].flatten.map .base ++
    [.detach (), .joiner (), .finish true, .finish true, .finish false]

/-- The bthread waits with a timeout, and `Wake` and the timer make it `READY`. It ends between the two, and the second
store overwrites `FINISHED` before its worker loads it. -/
def neverRun : List (Label Bool Unit Unit Unit Unit) :=
  [createdRun, [.call false (.wait () ⟨0, some 5, false⟩)], List.replicate 13 (.worker false),
    [.threadWake () (.wake () 1 1)], List.replicate 5 (.thread ()), [.fire () 1], List.replicate 2 (.thread ()),
    List.replicate 7 (.timer () 1),
    [.pickGlobal false (), .worker false, .worker false, .worker false, .worker false, .call false .exit,
      .worker false, .worker false, .thread (), .worker false, .worker false]].flatten.map .base

/-- A bthread is finished twice, and its reference count becomes negative; a bthread is not finished at all. -/
theorem finished_twice :
    (∃ s, Reachable (system Bool Unit Unit Unit Unit) s ∧ s.finished () = 2 ∧ s.refCount () = -1 ∧ ¬Settled s ()) ∧
      ∃ s, Reachable (system Bool Unit Unit Unit Unit) s ∧ exits (s.base.mem.context ()) = true ∧
        (∀ w, Off (s.base.worker w) ()) ∧ s.finished () = 0 ∧ ¬Settled s () := by
  refine ⟨⟨_, reachable_exec (.init ⟨fun _ => 0, fun _ => false, rfl⟩)
    (show exec _ _ twiceRun = some _ from rfl), by decide, by decide, fun h => ?_⟩, ?_⟩
  · exact absurd h.finished_le (by decide)
  · have hoff : ∀ s : State Bool Unit Unit Unit Unit, (∀ w x, runs (s.base.worker w) ≠ some ((), x)) →
        (∀ w, away (s.base.worker w) ≠ some ()) → ∀ w, Off (s.base.worker w) () := fun s hr ha w => ⟨hr w, ha w⟩
    refine ⟨_, reachable_exec (.init ⟨fun _ => 0, fun _ => false, rfl⟩)
      (show exec _ _ neverRun = some _ from rfl), rfl, hoff _ (by decide) (by decide), by decide, fun h => ?_⟩
    have hone := h.finished_eq rfl (hoff _ (by decide) (by decide))
    exact absurd hone (by decide)

end Cothread.Finish
