import Cothread.Core.WorkerInv

/-!
# `Worker`: the code of tasks and the timeout callbacks keep the invariant

For an access of a task's code and for one of a timeout callback: where the claims after it come from (`CodeOrigin`,
`TimerOrigin`), and that the three parts of the invariant stay true (`Inv.code_claimed`, `Inv.code_entered`,
`Inv.code_awake`, `Inv.ticked`).
-/

namespace Cothread.Worker

open Run Places
open Butex (Call WaitPc WakePc TimerPc Loop)

variable {W E T B C : Type*} [DecidableEq W] [DecidableEq E] [DecidableEq T] [DecidableEq B] [DecidableEq C]

/-! ## The code of tasks -/

section Code

variable {s : State W E T B C} {m : Mem W T B C} {w : W} {t u : T} {c c' : TaskPc T B C}

omit [DecidableEq B] [DecidableEq C] in
/-- The claims on a task while a worker goes on that holds nothing and picks nothing. -/
theorem goto_claims (s : State W E T B C) (m : Mem W T B C) (w : W) (pc : WorkerPc T B C) {u : T}
    (hk : pc.waker = (s.worker w).waker) (hp : pc.picked = (s.worker w).picked) (he : m.epoch u = s.mem.epoch u)
    (l : Loc W E C) :
    (s.goto m w pc).claims u l = match l with
      | .place p => (m.ready p).count u
      | .parked d => (m.waiters d).count (u, s.mem.epoch u)
      | .timer => if (m.timer u (s.mem.epoch u)).any TimerFound then 1 else 0
      | l => s.claims u l := by
  cases l <;> simp only [State.claims, Mem.claims, goto_mem, goto_waker_eq hk, goto_picked_eq hp, he]

omit [DecidableEq B] [DecidableEq C] in
theorem goto_entries (s : State W E T B C) (m : Mem W T B C) (w : W) (pc : WorkerPc T B C) {u : T}
    (hk : pc.waker = (s.worker w).waker) (he : m.epoch u = s.mem.epoch u)
    (j : Slot W E B) :
    (s.goto m w pc).entries u j = match j with
      | .queue b => (m.queue b).count (u, s.mem.epoch u)
      | j => s.entries u j := by
  cases j <;> simp only [State.entries, Mem.entries, goto_mem, goto_waker_eq hk, he]

/-- Where the claims after an access of the code of `t` come from. -/
inductive CodeOrigin (s : State W E T B C) (t : T) (c c' : TaskPc T B C) (u : T) (l : Loc W E C) : Prop
  | same (le : 0 < s.claims u l)
  | moved (token : l.Token) (l' : Loc W E C) (token' : l'.Token) (pos : 0 < s.claims u l')
  | published (d : C) (place : l = .parked d) (task : u = t) (before : c.stage = 0) (after : c'.stage = 3)

/-- The claims after an access of a task's code, in the memory after it. -/
theorem exec_claims (hw : s.worker w = .exec t c) (hcode : ∀ k, c ≠ .wake k)
    (hacc : s.mem.taskStep w t c = some (m, c')) (u : T) (l : Loc W E C) :
    (s.goto m w (.exec t c')).claims u l = match l with
      | .place p => (m.ready p).count u
      | .parked d => (m.waiters d).count (u, s.mem.epoch u)
      | .timer => if (m.timer u (s.mem.epoch u)).any TimerFound then 1 else 0
      | l => s.claims u l :=
  goto_claims s m w (.exec t c') (by rw [hw, exec_waker hcode, exec_waker (taskStep_code hacc hcode)]) (by rw [hw]; rfl)
    (by rw [(taskStep_same hacc).epoch]) l

/-- The claims after a coroutine has put itself in the list of a `CoCondVar`. -/
theorem Inv.publish_claims (h : Inv s) (hw : s.worker w = .exec t c) (hcode : ∀ k, c ≠ .wake k)
    (hacc : s.mem.taskStep w t c = some (m, c')) (d : C) (hr : m.ready = s.mem.ready)
    (hwt : m.waiters = Function.update s.mem.waiters d (s.mem.waiters d ++ [(t, s.mem.epoch t)]))
    (ht : m.timer = s.mem.timer) (h0 : c.stage = 0) (h3 : c'.stage = 3) :
    (∀ u, Once ((s.goto m w (.exec t c')).claims u)) ∧
      ∀ u l, 0 < (s.goto m w (.exec t c')).claims u l → CodeOrigin s t c c' u l := by
  have hclaims := exec_claims hw hcode hacc
  have hrest : ∀ u l, l ≠ .parked d → (s.goto m w (.exec t c')).claims u l ≤ s.claims u l := by
    intro u l hl
    rw [hclaims]
    cases l with
    | parked e =>
      have he : e ≠ d := by rintro rfl; exact hl rfl
      simp [State.claims, Mem.claims, hwt, he]
    | _ => simp only [State.claims, Mem.claims, hr, ht, le_refl]
  have hother : ∀ u, u ≠ t → ∀ l, (s.goto m w (.exec t c')).claims u l ≤ s.claims u l := by
    intro u hu l
    by_cases hl : l = .parked d
    · subst hl
      rw [hclaims]
      simp [State.claims, Mem.claims, hwt, List.count_append, Ne.symm hu]
    · exact hrest u l hl
  refine ⟨fun u => ?_, fun u l hl => ?_⟩
  · by_cases hu : u = t
    · subst hu
      have hzero := h.claimed.quiet w u c hw (by omega)
      refine Once.insert hzero (b := .parked d) ?_ (hrest u)
      rw [hclaims]
      have := hzero (.parked d)
      simp only [State.claims, Mem.claims] at this
      simp [hwt, List.count_append, this]
    · exact (h.claimed.once u).mono (hother u hu)
  · by_cases hu : u = t
    · by_cases hld : l = .parked d
      · exact .published d hld hu h0 h3
      · exact .same (hl.trans_le (hrest u l hld))
    · exact .same (hl.trans_le (hother u hu l))

/-- The claims after a full batch has been flushed: they move from the batch to the local queue. -/
theorem Inv.flush_claims (h : Inv s) (hw : s.worker w = .exec t c) (hcode : ∀ k, c ≠ .wake k)
    (hacc : s.mem.taskStep w t c = some (m, c')) (hr : m.ready = (s.mem.flush w).ready)
    (hwt : m.waiters = s.mem.waiters) (ht : m.timer = s.mem.timer)
    (hfull : BATCH_SIZE ≤ (s.mem.ready (.batch w)).length) :
    (∀ u, Once ((s.goto m w (.exec t c')).claims u)) ∧
      ∀ u l, 0 < (s.goto m w (.exec t c')).claims u l → CodeOrigin s t c c' u l := by
  have hclaims := exec_claims hw hcode hacc
  have hready : ∀ p, m.ready p = if p = .batch w then [] else if p = .localQueue w then
      s.mem.ready (.localQueue w) ++ s.mem.ready (.batch w) else s.mem.ready p := by
    intro p
    rw [hr, Mem.flush, if_pos hfull]
    simp only [Mem.setReady, Function.update_apply]
  have hrest : ∀ u l, l ≠ .place (.batch w) → l ≠ .place (.localQueue w) →
      (s.goto m w (.exec t c')).claims u l ≤ s.claims u l := by
    intro u l h1 h2
    rw [hclaims]
    cases l with
    | place p =>
      have hp1 : p ≠ .batch w := by rintro rfl; exact h1 rfl
      have hp2 : p ≠ .localQueue w := by rintro rfl; exact h2 rfl
      simp [State.claims, Mem.claims, hready, hp1, hp2]
    | _ => simp only [State.claims, Mem.claims, hwt, ht, le_refl]
  refine ⟨fun u => (h.claimed.once u).move (by simp) ?_ (hrest u), fun u l hl => ?_⟩
  · rw [hclaims, hclaims]
    simp [State.claims, Mem.claims, hready, List.count_append]
    omega
  · by_cases h1 : l = .place (.batch w)
    · subst h1
      rw [hclaims] at hl
      simp [hready] at hl
    · by_cases h2 : l = .place (.localQueue w)
      · subst h2
        rw [hclaims] at hl
        simp only [hready, reduceCtorEq, if_false, if_true, List.count_append] at hl
        by_cases h3 : 0 < s.claims u (.place (.batch w))
        · exact .moved trivial (.place (.batch w)) trivial h3
        · refine .same ?_
          simp only [State.claims, Mem.claims] at h3 ⊢
          omega
      · exact .same (hl.trans_le (hrest u l h1 h2))

/-- The claims after an access of a task's code. -/
theorem Inv.code_claims (h : Inv s) (hw : s.worker w = .exec t c) (hcode : ∀ k, c ≠ .wake k)
    (hacc : s.mem.taskStep w t c = some (m, c')) (hself : ¬c.SelfPush) :
    (∀ u, Once ((s.goto m w (.exec t c')).claims u)) ∧
      ∀ u l, 0 < (s.goto m w (.exec t c')).claims u l → CodeOrigin s t c c' u l := by
  have hclaims := exec_claims hw hcode hacc
  have hmono : (∀ u l, (s.goto m w (.exec t c')).claims u l ≤ s.claims u l) →
      (∀ u, Once ((s.goto m w (.exec t c')).claims u)) ∧
        ∀ u l, 0 < (s.goto m w (.exec t c')).claims u l → CodeOrigin s t c c' u l := fun hle =>
    ⟨fun u => (h.claimed.once u).mono (hle u), fun u l hl => .same (hl.trans_le (hle u l))⟩
  cases coded hacc hcode with
  | push _ _ _ _ _ hp => exact absurd hp hself
  | idle hr hwt hq ht | enqueue _ _ hr hwt _ _ ht =>
    refine hmono fun u l => ?_
    rw [hclaims]
    cases l <;> simp only [State.claims, Mem.claims, hr, hwt, ht, le_refl]
  | arm hr hwt hq ht =>
    refine hmono fun u l => ?_
    rw [hclaims]
    cases l with
    | timer =>
      simp only [State.claims, Mem.claims, ht]
      by_cases hu : u = t
      · subst hu; simp [Mem.setTimer, TimerFound]
      · simp [Mem.setTimer, hu]
    | _ => simp only [State.claims, Mem.claims, hr, hwt, le_refl]
  | publish d hr hwt hq ht h0 h3 => exact h.publish_claims hw hcode hacc d hr hwt ht h0 h3
  | flush hr hwt hq ht =>
    by_cases hfull : BATCH_SIZE ≤ (s.mem.ready (.batch w)).length
    · exact h.flush_claims hw hcode hacc hr hwt ht hfull
    · refine hmono fun u l => ?_
      rw [Mem.flush, if_neg hfull] at hr
      rw [hclaims]
      cases l <;> simp only [State.claims, Mem.claims, hr, hwt, ht, le_refl]

omit [DecidableEq E] [DecidableEq T] [DecidableEq B] [DecidableEq C] in
/-- A worker that runs a task's code goes forward. -/
theorem later_goto (hw : s.worker w = .exec t c) (hle : c.stage ≤ c'.stage) : Later s (s.goto m w (.exec t c')) := by
  intro v u d hv
  rw [goto_worker] at hv
  split_ifs at hv with hvw
  · cases hv
    exact ⟨c, hvw ▸ hw, hle⟩
  · exact ⟨d, hv, le_rfl⟩

omit [DecidableEq W] [DecidableEq E] [DecidableEq B] [DecidableEq C] in
/-- A task's code runs on one worker. -/
theorem Inv.one_runner (h : Inv s) {v : W} {d : TaskPc T B C} (hw : s.worker w = .exec t c)
    (hv : s.worker v = .exec t d) : v = w :=
  h.claimed.current v w t (by rw [hv]; rfl) (by rw [hw]; rfl)

omit [DecidableEq E] [DecidableEq B] [DecidableEq C] in
/-- Whatever worker runs the task's code is at `c'`. -/
theorem Inv.runner_stage (h : Inv s) (hw : s.worker w = .exec t c) {v : W} {d : TaskPc T B C}
    (hv : (s.goto m w (.exec t c')).worker v = .exec t d) : d = c' := by
  rw [goto_worker] at hv
  split_ifs at hv with hvw
  · cases hv; rfl
  · exact absurd (h.one_runner hw hv) hvw

theorem Inv.code_claimed (h : Inv s) (hw : s.worker w = .exec t c) (hcode : ∀ k, c ≠ .wake k)
    (hacc : s.mem.taskStep w t c = some (m, c')) (hself : ¬c.SelfPush) : Claimed (s.goto m w (.exec t c')) := by
  have hsame := taskStep_same hacc
  obtain ⟨honce, horigin⟩ := h.code_claims hw hcode hacc hself
  refine h.claimed.frame honce (later_goto hw (taskStep_stage hacc)) (fun v u hv => ?_) (fun u hb => ?_)
    (fun u l hl => ?_) fun u l htok hl => ?_
  · rw [goto_worker] at hv
    split_ifs at hv with hvw
    · rw [hvw, hw]
      exact hv
    · exact hv
  · rw [goto_mem, hsame.born] at hb
    exact hb
  · cases horigin u l hl with
    | same hpos => exact Or.inl ⟨l, hpos⟩
    | moved _ l' _ hpos => exact Or.inl ⟨l', hpos⟩
    | published d _ hu _ h3 =>
      subst hu
      refine Or.inr ⟨?_, fun v d hv => ?_⟩
      · rw [goto_mem, hsame.born]
        cases hb : s.mem.born u with
        | true => rfl
        | false => exact absurd ⟨w, c, hw⟩ (h.claimed.born u hb).2
      · rw [h.runner_stage hw hv, h3]
  · cases horigin u l hl with
    | same hpos => exact Or.inl ⟨l, htok, hpos⟩
    | moved _ l' hl' hpos => exact Or.inl ⟨l', hl', hpos⟩
    | published d hl' =>
      subst hl'
      cases htok

/-- After an access of the code of `t`, a claim on a task that waits for its wake was there before, unless the task is
`t` and has just put itself in a list. -/
theorem Inv.code_sync (h : Inv s) (hw : s.worker w = .exec t c) (hcode : ∀ k, c ≠ .wake k)
    (hacc : s.mem.taskStep w t c = some (m, c')) (hself : ¬c.SelfPush) {l : Loc W E C} (hl : l.Sync)
    (hpos : 0 < (s.goto m w (.exec t c')).claims u l) (hne : u ≠ t ∨ c.stage ≠ 0) :
    ∃ l', l'.Sync ∧ 0 < s.claims u l' := by
  cases (h.code_claims hw hcode hacc hself).2 u l hpos with
  | same hpos => exact ⟨l, hl, hpos⟩
  | moved htok => exact absurd htok hl.not_token
  | published d _ hu h0 => exact (hne.elim (fun h1 => h1 hu) fun h1 => h1 h0).elim

/-- No claim on a task that is still on its way to its wait. -/
theorem Inv.code_quiet (h : Inv s) (hw : s.worker w = .exec t c) (hcode : ∀ k, c ≠ .wake k)
    (hacc : s.mem.taskStep w t c = some (m, c')) (hself : ¬c.SelfPush) (hc : c.stage ≤ 2) (hc' : c'.stage ≠ 3)
    (l : Loc W E C) : (s.goto m w (.exec t c')).claims t l = 0 := by
  by_contra hne
  cases (h.code_claims hw hcode hacc hself).2 t l (Nat.pos_of_ne_zero hne) with
  | same hpos | moved _ _ _ hpos =>
    rw [h.claimed.quiet w t c hw hc] at hpos
    omega
  | published _ _ _ _ h3 => exact hc' h3

/-- The entries of the butexes are as before when the code of a task has left the queues alone. -/
theorem exec_entries (hw : s.worker w = .exec t c) (hcode : ∀ k, c ≠ .wake k)
    (hacc : s.mem.taskStep w t c = some (m, c')) (hq : m.queue = s.mem.queue) (u : T) (j : Slot W E B) :
    (s.goto m w (.exec t c')).entries u j = s.entries u j := by
  rw [goto_entries s m w (.exec t c') (by rw [hw, exec_waker hcode, exec_waker (taskStep_code hacc hcode)])
    (by rw [(taskStep_same hacc).epoch])]
  cases j <;> simp only [State.entries, Mem.entries, hq]

/-- A task arms the timer of its wait. -/
theorem Inv.arm_entered (h : Inv s) (hw : s.worker w = .exec t c) (hcode : ∀ k, c ≠ .wake k)
    (hacc : s.mem.taskStep w t c = some (m, c')) (hself : ¬c.SelfPush) (hq : m.queue = s.mem.queue)
    (ht : m.timer = (s.mem.setTimer t (s.mem.epoch t) .armed).timer) (h0 : c.stage = 0) (h1 : c'.stage = 1) :
    Entered (s.goto m w (.exec t c')) := by
  have hzero := h.code_quiet hw hcode hacc hself (by omega) (by omega)
  have heq := exec_entries hw hcode hacc hq
  refine h.entered.frame (fun u => (h.entered.once u).mono fun j => (heq u j).le)
    (later_goto hw (taskStep_stage hacc)) (fun u j hj => Or.inl ⟨j, heq u j ▸ hj⟩) (fun u hu => ?_)
    fun u l hl hpos => ?_
  · by_cases hut : u = t
    · subst hut
      refine Or.inr ⟨fun v d hv => ?_, fun l _ => hzero l⟩
      rw [h.runner_stage hw hv, h1]
    · rw [goto_mem, ht, (taskStep_same hacc).epoch] at hu
      exact Or.inl (by simpa [Mem.setTimer, hut] using hu)
  · by_cases hut : u = t
    · subst hut
      rw [hzero l] at hpos
      omega
    · exact Or.inl (h.code_sync hw hcode hacc hself hl hpos (Or.inl hut))

/-- A task puts itself in the queue of a butex. -/
theorem Inv.enqueue_entered (h : Inv s) (hw : s.worker w = .exec t c) (hcode : ∀ k, c ≠ .wake k)
    (hacc : s.mem.taskStep w t c = some (m, c')) (hself : ¬c.SelfPush) (b : B) (q : List (T × ℕ))
    (hq : m.queue = Function.update s.mem.queue b q)
    (hcount : ∀ x, q.count x = (s.mem.queue b).count x + [(t, s.mem.epoch t)].count x)
    (ht : m.timer = s.mem.timer) (h1 : c.stage = 1) (h2 : c'.stage = 2) : Entered (s.goto m w (.exec t c')) := by
  have hsame := taskStep_same hacc
  have hentries : ∀ u j, _ := fun u j => goto_entries s m w (.exec t c') (u := u)
    (by rw [hw, exec_waker hcode, exec_waker (taskStep_code hacc hcode)]) (by rw [hsame.epoch]) j
  have hother : ∀ u j, j ≠ .queue b → (s.goto m w (.exec t c')).entries u j = s.entries u j := by
    intro u j hj
    rw [hentries]
    cases j with
    | queue d =>
      have hd : d ≠ b := by rintro rfl; exact hj rfl
      simp [State.entries, Mem.entries, hq, hd]
    | batch a => rfl
  have hqueue : ∀ u, (s.goto m w (.exec t c')).entries u (.queue b) =
      s.entries u (.queue b) + [(t, s.mem.epoch t)].count (u, s.mem.epoch u) := by
    intro u
    rw [hentries]
    simp only [State.entries, Mem.entries, hq, Function.update_self]
    exact hcount _
  have hne : ∀ u, u ≠ t → [(t, s.mem.epoch t)].count (u, s.mem.epoch u) = 0 := fun u hu =>
    List.count_eq_zero.mpr fun hm => hu (congrArg Prod.fst (List.mem_singleton.mp hm))
  have hfree := h.entered.fresh w t c hw (by omega)
  refine h.entered.frame (fun u => ?_) (later_goto hw (taskStep_stage hacc)) (fun u j hj => ?_) (fun u hu => Or.inl ?_)
    fun u l hl hpos => Or.inl (h.code_sync hw hcode hacc hself hl hpos (Or.inr (by omega)))
  · by_cases hut : u = t
    · subst hut
      refine Once.insert hfree (b := .queue b) ?_ fun j hj => (hother u j hj).le
      rw [hqueue, hfree, List.count_singleton_self]
    · refine (h.entered.once u).mono fun j => ?_
      by_cases hj : j = .queue b
      · subst hj
        rw [hqueue, hne u hut, Nat.add_zero]
      · exact (hother u j hj).le
  · by_cases hut : u = t
    · subst hut
      refine Or.inr ⟨fun v d hv => ?_, fun l _ => h.code_quiet hw hcode hacc hself (by omega) (by omega) l⟩
      rw [h.runner_stage hw hv, h2]
    · by_cases hjb : j = .queue b
      · subst hjb
        rw [hqueue, hne u hut, Nat.add_zero] at hj
        exact Or.inl ⟨_, hj⟩
      · exact Or.inl ⟨j, hother u j hjb ▸ hj⟩
  · rw [goto_mem, ht, hsame.epoch] at hu
    exact hu

theorem Inv.code_entered (h : Inv s) (hw : s.worker w = .exec t c) (hcode : ∀ k, c ≠ .wake k)
    (hacc : s.mem.taskStep w t c = some (m, c')) (hself : ¬c.SelfPush) : Entered (s.goto m w (.exec t c')) := by
  have hlater := later_goto (m := m) hw (taskStep_stage hacc)
  have htimer : m.timer = s.mem.timer → ∀ u,
    (s.goto m w (.exec t c')).mem.timer u ((s.goto m w (.exec t c')).mem.epoch u) =
      s.mem.timer u (s.mem.epoch u) := by
    intro ht u
    rw [goto_mem, ht, (taskStep_same hacc).epoch]
  cases coded hacc hcode with
  | push _ _ _ _ _ hp => exact absurd hp hself
  | idle hr hwt hq ht | flush hr hwt hq ht =>
    have heq := exec_entries hw hcode hacc hq
    refine h.entered.frame (fun u => (h.entered.once u).mono fun j => (heq u j).le) hlater
      (fun u j hj => Or.inl ⟨j, heq u j ▸ hj⟩) (fun u hu => Or.inl (htimer ht u ▸ hu)) fun u l hl hpos => Or.inl ?_
    rw [exec_claims hw hcode hacc] at hpos
    refine ⟨l, hl, ?_⟩
    cases l with
    | parked d => simpa only [State.claims, Mem.claims, hwt] using hpos
    | popped a => exact hpos
    | _ => cases hl
  | arm hr hwt hq ht h0 h1 => exact h.arm_entered hw hcode hacc hself hq ht h0 h1
  | enqueue b q hr hwt hq hcount ht h1 h2 => exact h.enqueue_entered hw hcode hacc hself b q hq hcount ht h1 h2
  | publish d hr hwt hq ht h0 h3 =>
    have heq := exec_entries hw hcode hacc hq
    refine h.entered.frame (fun u => (h.entered.once u).mono fun j => (heq u j).le) hlater
      (fun u j hj => Or.inl ⟨j, heq u j ▸ hj⟩) (fun u hu => Or.inl (htimer ht u ▸ hu)) fun u l hl hpos => ?_
    by_cases hut : u = t
    · subst hut
      refine Or.inr ⟨fun j => ?_, ?_⟩
      · rw [heq]
        exact h.entered.fresh w u c hw (by omega) j
      · rw [htimer ht]
        exact h.entered.unarmed w u c hw h0
    · exact Or.inl (h.code_sync hw hcode hacc hself hl hpos (Or.inl hut))

omit [DecidableEq W] [DecidableEq E] [DecidableEq B] [DecidableEq C] in
/-- Whoever has made the task `READY` for its current wait has a claim on it. -/
theorem stored_claim {a : W ⊕ E} (h : (s.waker a).bind WakerPc.stored = some (t, s.mem.epoch t)) :
    ∃ l : Loc W E C, 0 < s.claims t l := by
  obtain ⟨pc, hpc, hst⟩ := Option.bind_eq_some_iff.mp h
  have hpf : pc.popped = some (t, s.mem.epoch t) ∨ pc.found = some (t, s.mem.epoch t) := by
    cases pc with
    | butex b pc => cases pc <;> first | exact Or.inr hst | cases hst
    | submit d all x | push d all x => exact Or.inl hst
    | _ => cases hst
  rcases hpf with h1 | h1
  · exact ⟨.popped a, by simp [State.claims, Mem.claims, hpc, h1]⟩
  · exact ⟨.found a, by simp [State.claims, Mem.claims, hpc, h1]⟩

omit [DecidableEq W] [DecidableEq E] [DecidableEq B] [DecidableEq C] in
theorem timer_claim (h : (s.mem.timer t (s.mem.epoch t)).any TimerStored = true) : 0 < s.claims t .timer := by
  have hf : (s.mem.timer t (s.mem.epoch t)).any TimerFound = true := by
    cases htm : s.mem.timer t (s.mem.epoch t) with
    | none => rw [htm] at h; cases h
    | some pc =>
      rw [htm] at h
      cases pc <;> first | rfl | cases h
  simp [State.claims, Mem.claims, hf]

theorem Inv.code_awake (h : Inv s) (hw : s.worker w = .exec t c) (hcode : ∀ k, c ≠ .wake k)
    (hacc : s.mem.taskStep w t c = some (m, c')) (hself : ¬c.SelfPush) : Awake (s.goto m w (.exec t c')) := by
  have hsame := taskStep_same hacc
  obtain ⟨_, horigin⟩ := h.code_claims hw hcode hacc hself
  obtain ⟨hstate, hasleep⟩ := taskStep_state hacc hcode
  have hwk : (s.goto m w (.exec t c')).waker = s.waker :=
    goto_waker_eq (by rw [hw, exec_waker hcode, exec_waker (taskStep_code hacc hcode)])
  have htimer : ∀ u, (m.timer u (s.mem.epoch u)).any TimerStored = true →
      (s.mem.timer u (s.mem.epoch u)).any TimerStored = true := by
    intro u hu
    cases coded hacc hcode with
    | idle _ _ _ ht | enqueue _ _ _ _ _ _ ht | publish _ _ _ _ ht | push _ _ _ _ ht | flush _ _ _ ht => rwa [ht] at hu
    | arm _ _ _ ht =>
      rw [ht] at hu
      by_cases hut : u = t
      · subst hut
        simp [Mem.setTimer, TimerStored] at hu
      · simpa [Mem.setTimer, hut] using hu
  have htoken : ∀ u l, l.Token → 0 < (s.goto m w (.exec t c')).claims u l → ∃ l', l'.Token ∧ 0 < s.claims u l' := by
    intro u l hl hpos
    cases horigin u l hpos with
    | same hpos => exact ⟨l, hl, hpos⟩
    | moved _ l' hl' hpos => exact ⟨l', hl', hpos⟩
    | published d hd =>
      subst hd
      cases hl
  refine h.awake.frame fun u hs hawk => ?_
  rw [goto_mem] at hs
  -- whatever holds the task awake was there before the access, or is the access itself
  have hprev : (∃ l, l.Token ∧ 0 < s.claims u l) ∨ (∃ a, (s.waker a).bind WakerPc.stored = some (u, s.mem.epoch u)) ∨
      (s.mem.timer u (s.mem.epoch u)).any TimerStored = true ∨
      (∃ v d, s.worker v = .exec u d ∧ ¬d.Asleep ∧ (u = t → s.mem.taskState t = .suspended)) ∨
        s.mem.born u = false := by
    rcases hawk with ⟨l, htok, hpos⟩ | ⟨b, hb⟩ | htm | ⟨v, d, hv, hd⟩ | hb
    · exact Or.inl (htoken u l htok hpos)
    · rw [hwk, goto_mem, hsame.epoch] at hb
      exact Or.inr (Or.inl ⟨b, hb⟩)
    · rw [goto_mem, hsame.epoch] at htm
      exact Or.inr (Or.inr (Or.inl (htimer u htm)))
    · rw [goto_worker] at hv
      split_ifs at hv with hvw
      · cases hv
        obtain ⟨h1, h2⟩ := hasleep hs hd
        exact Or.inr (Or.inr (Or.inr (Or.inl ⟨w, c, hw, h2, fun _ => h1⟩)))
      · refine Or.inr (Or.inr (Or.inr (Or.inl ⟨v, d, hv, hd, ?_⟩)))
        rintro rfl
        exact absurd (h.one_runner hw hv) hvw
    · rw [goto_mem, hsame.born] at hb
      exact Or.inr (Or.inr (Or.inr (Or.inr hb)))
  have hawake : Awakened s u := by
    rcases hprev with h1 | h1 | h1 | ⟨v, d, hv, hd, _⟩ | h1
    · exact Or.inl h1
    · exact Or.inr (Or.inl h1)
    · exact Or.inr (Or.inr (Or.inl h1))
    · exact Or.inr (Or.inr (Or.inr (Or.inl ⟨v, d, hv, hd⟩)))
    · exact Or.inr (Or.inr (Or.inr (Or.inr h1)))
  refine ⟨?_, hawake⟩
  rcases hstate u hs with h1 | ⟨rfl, hstage⟩
  · exact h1
  · have hquiet := h.claimed.quiet w u c hw hstage
    rcases hprev with ⟨l, _, hpos⟩ | ⟨b, hb⟩ | htm | ⟨_, _, _, _, h1⟩ | hb
    · rw [hquiet] at hpos
      omega
    · obtain ⟨l, hpos⟩ := stored_claim hb
      rw [hquiet] at hpos
      omega
    · have hpos := timer_claim htm
      rw [hquiet] at hpos
      omega
    · exact h1 rfl
    · exact absurd ⟨w, c, hw⟩ (h.claimed.born u hb).2

end Code

/-! ## Timeout callbacks -/

section Timers

variable {s : State W E T B C} {m : Mem W T B C} {t u : T} {n : ℕ} {pc : TimerPc}

/-- The same workers and threads, with another memory. -/
def State.setMem (s : State W E T B C) (m : Mem W T B C) : State W E T B C := { s with mem := m }

omit [DecidableEq W] [DecidableEq E] [DecidableEq B] [DecidableEq C] in
theorem setMem_claims (s : State W E T B C) (he : m.epoch = s.mem.epoch) (l : Loc W E C) :
    (s.setMem m).claims u l = match l with
      | .place p => (m.ready p).count u
      | .parked d => (m.waiters d).count (u, s.mem.epoch u)
      | .timer => if (m.timer u (s.mem.epoch u)).any TimerFound then 1 else 0
      | l => s.claims u l := by
  cases l <;> simp only [State.claims, Mem.claims, State.setMem, he] <;> rfl

omit [DecidableEq W] [DecidableEq B] [DecidableEq C] [DecidableEq E] in
theorem setTimer_any {pc' : TimerPc} {f : TimerPc → Bool} {k : ℕ} (hm : m.timer = (s.mem.setTimer t n pc').timer) :
    (m.timer u k).any f = if u = t ∧ k = n then f pc' else (s.mem.timer u k).any f := by
  rw [hm]
  by_cases hu : u = t
  · subst hu
    by_cases hk : k = n
    · subst hk; simp [Mem.setTimer]
    · simp [Mem.setTimer, hk]
  · simp [Mem.setTimer, hu]

omit [DecidableEq W] [DecidableEq E] [DecidableEq B] [DecidableEq C] in
/-- A callback that finds the task `SUSPENDED` in its wait is the only one that holds it. -/
theorem Inv.timer_free (h : Inv s) (hpc : s.mem.timer t (s.mem.epoch t) = some .loadState)
    (hs : s.mem.taskState t = .suspended) (hw : ¬s.WakerHas (t, s.mem.epoch t)) (l : Loc W E C) : s.claims t l = 0 := by
  by_contra hne
  have hpos := Nat.pos_of_ne_zero hne
  have htoken : ¬l.Token := fun hl => h.awake t (Or.inl ⟨l, hl, hpos⟩) hs
  have hsync : ¬l.Sync := fun hl => by
    rw [(h.entered.kinds t l hl hpos).2] at hpc
    cases hpc
  cases l with
  | place _ | picked _ | new _ => exact htoken trivial
  | parked _ | popped _ => exact hsync trivial
  | timer => simp [State.claims, Mem.claims, hpc, TimerFound] at hpos
  | found b =>
    simp only [State.claims, Mem.claims] at hpos
    split_ifs at hpos with h1
    · obtain ⟨k, hk, hkf⟩ := Option.bind_eq_some_iff.mp h1
      exact hw ⟨b, k, hk, hkf⟩
    · omega

omit [DecidableEq W] [DecidableEq E] [DecidableEq B] [DecidableEq C] in
/-- A task whose wait has a timer, and that is `SUSPENDED`, is at stage 3 if it runs at all. -/
theorem Inv.timer_stage (h : Inv s) (hpc : s.mem.timer t (s.mem.epoch t) = some pc)
    (hs : s.mem.taskState t = .suspended) {v : W} {c : TaskPc T B C} (hv : s.worker v = .exec t c) : 3 ≤ c.stage := by
  have h0 : c.stage ≠ 0 := fun h0 => by
    rw [h.entered.unarmed v t c hv h0] at hpc
    cases hpc
  by_contra hlt
  have hasleep : ¬c.Asleep := by
    cases c with
    | wait b call pc => cases pc <;> first | exact id | exact absurd (le_refl 3) hlt
    | publish d => exact absurd rfl h0
    | swap next => exact absurd (le_refl 3) hlt
    | _ => exact id
  exact h.awake t (Or.inr (Or.inr (Or.inr (Or.inl ⟨v, c, hv, hasleep⟩)))) hs

/-- Where the claims after an access of the callback of the `n`-th wait of `t` come from. -/
inductive TimerOrigin (s : State W E T B C) (t : T) (n : ℕ) (pc : TimerPc) (u : T) (l : Loc W E C) : Prop
  | same (pos : 0 < s.claims u l)
  | found (task : u = t) (wait : n = s.mem.epoch t) (loads : pc = .loadState)
      (suspended : s.mem.taskState t = .suspended) (place : l = .timer)
  | pushed (task : u = t) (pushes : pc = .push) (place : l = .place .global) (pos : 0 < s.claims t .timer)

omit [DecidableEq W] [DecidableEq E] [DecidableEq B] [DecidableEq C] in
/-- A callback that goes on in its wait touches the timer of no other wait. -/
theorem any_timer {pc' : TimerPc} (hm : m.timer = (s.mem.setTimer t n pc').timer) {f : TimerPc → Bool}
    (hne : u ≠ t ∨ s.mem.epoch u ≠ n) :
    (m.timer u (s.mem.epoch u)).any f = (s.mem.timer u (s.mem.epoch u)).any f := by
  rw [setTimer_any hm, if_neg fun h1 => hne.elim (fun h2 => h2 h1.1) fun h2 => h2 h1.2]

omit [DecidableEq W] [DecidableEq E] [DecidableEq B] [DecidableEq C] in
/-- The claims after a callback has found the task `SUSPENDED`. -/
theorem Inv.find_claims (h : Inv s) (hpc : s.mem.timer t n = some .loadState)
    (hsame : s.mem.SameTasks m) (htm : m.timer = (s.mem.setTimer t n .remove).timer) (hr : m.ready = s.mem.ready)
    (hwt : m.waiters = s.mem.waiters) (hs : s.mem.taskState t = .suspended) (hfind : ¬s.WakerHas (t, n)) :
    (∀ u, Once ((s.setMem m).claims u)) ∧ ∀ u l, 0 < (s.setMem m).claims u l → TimerOrigin s t n .loadState u l := by
  have hclaims : ∀ u l, _ := fun u l => setMem_claims (m := m) (u := u) s hsame.epoch l
  have hrest : ∀ u l, l ≠ .timer ∨ u ≠ t ∨ s.mem.epoch u ≠ n → (s.setMem m).claims u l ≤ s.claims u l := by
    intro u l hne
    rw [hclaims]
    cases l with
    | timer => simp only [State.claims, Mem.claims, any_timer htm (hne.resolve_left fun h1 => h1 rfl), le_refl]
    | _ => simp only [State.claims, Mem.claims, hr, hwt, le_refl]
  refine ⟨fun u => ?_, fun u l hpos => ?_⟩
  · by_cases hu : u = t ∧ s.mem.epoch u = n
    · obtain ⟨rfl, rfl⟩ := hu
      refine Once.insert (h.timer_free hpc hs hfind) (b := .timer) ?_ fun l hl => hrest u l (Or.inl hl)
      simp only [State.claims, Mem.claims]
      split_ifs <;> omega
    · refine (h.claimed.once u).mono fun l => hrest u l (Or.inr ?_)
      exact not_and_or.mp hu
  · by_cases hl' : l = .timer ∧ u = t ∧ s.mem.epoch u = n
    · obtain ⟨rfl, rfl, rfl⟩ := hl'
      exact .found rfl rfl rfl hs rfl
    · refine .same (hpos.trans_le (hrest u l ?_))
      by_cases h1 : l = .timer
      · exact Or.inr (not_and_or.mp fun h2 => hl' ⟨h1, h2⟩)
      · exact Or.inl h1

omit [DecidableEq E] [DecidableEq B] [DecidableEq C] in
/-- The claims after a callback has pushed the task: its own moves to the global queue. -/
theorem Inv.push_claims (h : Inv s) (hpc : s.mem.timer t (s.mem.epoch t) = some .push) (hsame : s.mem.SameTasks m)
    (htm : m.timer = (s.mem.setTimer t (s.mem.epoch t) .over).timer)
    (hr : m.ready = Function.update s.mem.ready .global (s.mem.ready .global ++ [t]))
    (hwt : m.waiters = s.mem.waiters) :
    (∀ u, Once ((s.setMem m).claims u)) ∧
      ∀ u l, 0 < (s.setMem m).claims u l → TimerOrigin s t (s.mem.epoch t) .push u l := by
  have hclaims : ∀ u l, _ := fun u l => setMem_claims (m := m) (u := u) s hsame.epoch l
  have htimer : s.claims t .timer = 1 := by simp [State.claims, Mem.claims, hpc, TimerFound]
  have htimer' : (s.setMem m).claims t .timer = 0 := by
    rw [hclaims]
    simp only [setTimer_any htm]
    simp [TimerFound]
  have hplace : ∀ u, (s.setMem m).claims u (.place .global) = s.claims u (.place .global) + [t].count u := by
    intro u
    rw [hclaims]
    simp only [State.claims, Mem.claims, hr, Function.update_self, List.count_append]
  have hrest : ∀ u l, l ≠ .place .global → l ≠ .timer ∨ u ≠ t → (s.setMem m).claims u l ≤ s.claims u l := by
    intro u l hne hne'
    rw [hclaims]
    cases l with
    | timer =>
      have hu := hne'.resolve_left fun h1 => h1 rfl
      simp only [State.claims, Mem.claims, any_timer htm (Or.inl hu), le_refl]
    | place p =>
      have hp : p ≠ .global := by rintro rfl; exact hne rfl
      simp [State.claims, Mem.claims, hr, hp]
    | _ => simp only [State.claims, Mem.claims, hwt, le_refl]
  refine ⟨fun u => ?_, fun u l hpos => ?_⟩
  · by_cases hu : u = t
    · subst hu
      refine (h.claimed.once u).move (a := .timer) (b := .place .global) (by simp) ?_ fun l h1 h2 =>
        hrest u l h2 (Or.inl h1)
      rw [htimer, htimer', hplace, List.count_singleton_self]
      omega
    · refine (h.claimed.once u).mono fun l => ?_
      by_cases hl : l = .place .global
      · subst hl
        rw [hplace]
        simp [Ne.symm hu]
      · exact hrest u l hl (Or.inr hu)
  · by_cases hl : l = .place .global
    · by_cases hu : u = t
      · exact .pushed hu rfl hl (by omega)
      · subst hl
        rw [hplace] at hpos
        exact .same (by simpa [Ne.symm hu] using hpos)
    · by_cases hlt : l = .timer ∧ u = t
      · obtain ⟨rfl, rfl⟩ := hlt
        rw [htimer'] at hpos
        omega
      · exact .same (hpos.trans_le (hrest u l hl (not_and_or.mp hlt)))

omit [DecidableEq E] [DecidableEq B] [DecidableEq C] in
/-- The claims after an access of a callback. -/
theorem Inv.timer_claims (h : Inv s) (hpc : s.mem.timer t n = some pc) (ht : Ticked s.mem t n pc m)
    (hsame : s.mem.SameTasks m) (hpush : pc = .push → ¬s.Hasty (t, n))
    (hfind : pc = .loadState → s.mem.taskState t = .suspended → ¬s.WakerHas (t, n)) :
    (∀ u, Once ((s.setMem m).claims u)) ∧ ∀ u l, 0 < (s.setMem m).claims u l → TimerOrigin s t n pc u l := by
  cases ht with
  | idle pc' htm hr hwt hq hf =>
    have hany : ∀ u, (m.timer u (s.mem.epoch u)).any TimerFound = (s.mem.timer u (s.mem.epoch u)).any TimerFound := by
      intro u
      by_cases hu : u = t ∧ s.mem.epoch u = n
      · obtain ⟨rfl, rfl⟩ := hu
        rw [setTimer_any htm, if_pos ⟨rfl, rfl⟩, hpc]
        exact hf
      · exact any_timer htm (not_and_or.mp hu)
    have hle : ∀ u l, (s.setMem m).claims u l ≤ s.claims u l := by
      intro u l
      rw [setMem_claims (m := m) s hsame.epoch]
      cases l with
      | timer => simp only [State.claims, Mem.claims, hany, le_refl]
      | _ => simp only [State.claims, Mem.claims, hr, hwt, le_refl]
    exact ⟨fun u => (h.claimed.once u).mono (hle u), fun u l hl => .same (hl.trans_le (hle u l))⟩
  | find htm hr hwt hq hst hl hs =>
    subst hl
    exact h.find_claims hpc hsame htm hr hwt hs (hfind rfl hs)
  | push htm hr hwt hq hst hp =>
    have hn : n = s.mem.epoch t := by
      by_contra hne
      exact hpush hp (Or.inl hne)
    subst hn hp
    exact h.push_claims hpc hsame htm hr hwt

omit [DecidableEq E] [DecidableEq B] [DecidableEq C] in
/-- A ready task after an access of a callback was ready before, or has just been pushed in its current wait. -/
theorem Inv.timer_token (h : Inv s) (hpc : s.mem.timer t n = some pc) (ht : Ticked s.mem t n pc m)
    (hsame : s.mem.SameTasks m) (hpush : pc = .push → ¬s.Hasty (t, n))
    (hfind : pc = .loadState → s.mem.taskState t = .suspended → ¬s.WakerHas (t, n)) {l : Loc W E C} (hl : l.Token)
    (hpos : 0 < (s.setMem m).claims u l) :
    (∃ l', l'.Token ∧ 0 < s.claims u l') ∨ u = t ∧ pc = .push ∧ n = s.mem.epoch t := by
  cases (h.timer_claims hpc ht hsame hpush hfind).2 u l hpos with
  | same hpos => exact Or.inl ⟨l, hl, hpos⟩
  | found _ _ _ _ hp => rw [hp] at hl; cases hl
  | pushed hu hp =>
    refine Or.inr ⟨hu, hp, ?_⟩
    by_contra hne
    exact hpush hp (Or.inl hne)

omit [DecidableEq E] [DecidableEq B] [DecidableEq C] in
theorem Inv.timer_claimed (h : Inv s) (hpc : s.mem.timer t n = some pc) (ht : Ticked s.mem t n pc m)
    (hsame : s.mem.SameTasks m) (hpush : pc = .push → ¬s.Hasty (t, n))
    (hfind : pc = .loadState → s.mem.taskState t = .suspended → ¬s.WakerHas (t, n)) : Claimed (s.setMem m) := by
  obtain ⟨honce, horigin⟩ := h.timer_claims hpc ht hsame hpush hfind
  have hborn : ∀ u, (s.setMem m).mem.born u = s.mem.born u := fun u => congrFun hsame.born u
  refine h.claimed.frame honce (fun v u c hv => ⟨c, hv, le_rfl⟩) (fun v u hv => hv) (fun u hb => hborn u ▸ hb)
    (fun u l hl => ?_) (fun u l htok hl => ?_)
  · cases horigin u l hl with
    | same hpos => exact Or.inl ⟨l, hpos⟩
    | pushed hu _ _ hpos =>
      subst hu
      exact Or.inl ⟨.timer, hpos⟩
    | found hu hn hl hs =>
      subst hu hn
      refine Or.inr ⟨?_, fun v c hv => h.timer_stage hpc hs hv⟩
      rw [hborn]
      cases hb : s.mem.born u with
      | true => rfl
      | false => exact absurd hs (h.awake u (Or.inr (Or.inr (Or.inr (Or.inr hb)))))
  · rcases h.timer_token hpc ht hsame hpush hfind htok hl with h1 | ⟨rfl, hp, _⟩
    · exact Or.inl h1
    · right
      rintro ⟨v, c, hv⟩
      refine hpush hp (Or.inr ⟨v, ?_⟩)
      rw [hv]
      rfl

omit [DecidableEq E] [DecidableEq B] [DecidableEq C] in
theorem Inv.timer_entered (h : Inv s) (hpc : s.mem.timer t n = some pc) (ht : Ticked s.mem t n pc m)
    (hsame : s.mem.SameTasks m) (hpush : pc = .push → ¬s.Hasty (t, n))
    (hfind : pc = .loadState → s.mem.taskState t = .suspended → ¬s.WakerHas (t, n)) : Entered (s.setMem m) := by
  have hqueue : m.queue = s.mem.queue := by cases ht <;> assumption
  have hentry : ∀ u j, (s.setMem m).entries u j = s.entries u j := by
    intro u j
    cases j with
    | queue b => simp only [State.entries, Mem.entries, State.setMem, hqueue, hsame.epoch]
    | batch a => simp only [State.entries, Mem.entries, State.setMem, hsame.epoch]; rfl
  refine h.entered.frame (fun u => ?_) (fun v u c hv => ⟨c, hv, le_rfl⟩) (fun u j hj => Or.inl ⟨j, hentry u j ▸ hj⟩)
    (fun u hu => Or.inl ?_) (fun u l hl hpos => Or.inl ?_)
  · exact (h.entered.once u).mono fun j => (hentry u j).le
  · have hold : ∀ pc', m.timer = (s.mem.setTimer t n pc').timer → s.mem.timer u (s.mem.epoch u) ≠ none := by
      intro pc' htm
      rw [show (s.setMem m).mem.epoch = s.mem.epoch from hsame.epoch] at hu
      have hu' : m.timer u (s.mem.epoch u) ≠ none := hu
      rw [htm] at hu'
      exact setTimer_known (x := (u, s.mem.epoch u)) (by rw [hpc]; simp) hu'
    cases ht with
    | idle _ htm | find htm | push htm => exact hold _ htm
  · cases (h.timer_claims hpc ht hsame hpush hfind).2 u l hpos with
    | same hpos => exact ⟨l, hl, hpos⟩
    | found _ _ _ _ hp | pushed _ _ hp => rw [hp] at hl; cases hl

omit [DecidableEq E] [DecidableEq B] [DecidableEq C] in
theorem Inv.timer_awake (h : Inv s) (hpc : s.mem.timer t n = some pc) (ht : Ticked s.mem t n pc m)
    (hsame : s.mem.SameTasks m) (hpush : pc = .push → ¬s.Hasty (t, n))
    (hfind : pc = .loadState → s.mem.taskState t = .suspended → ¬s.WakerHas (t, n)) : Awake (s.setMem m) := by
  have hepoch : (s.setMem m).mem.epoch = s.mem.epoch := hsame.epoch
  have hstate : ∀ u, m.taskState u = .suspended → s.mem.taskState u = .suspended := by
    cases ht with
    | idle _ _ _ _ _ _ _ hst => exact hst
    | find _ _ _ _ hst | push _ _ _ _ hst => exact fun u hu => hst ▸ hu
  refine h.awake.frame fun u hs hawk => ⟨hstate u hs, ?_⟩
  rcases hawk with ⟨l, htok, hpos⟩ | ⟨b, hb⟩ | htm | ⟨v, d, hv, hd⟩ | hb
  · rcases h.timer_token hpc ht hsame hpush hfind htok hpos with h1 | ⟨rfl, hp, hn⟩
    · exact Or.inl h1
    · refine Or.inr (Or.inr (Or.inl ?_))
      rw [← hn, hpc, hp]
      rfl
  · rw [hepoch] at hb
    exact Or.inr (Or.inl ⟨b, hb⟩)
  · rw [hepoch] at htm
    have htm' : (m.timer u (s.mem.epoch u)).any TimerStored = true := htm
    refine Or.inr (Or.inr (Or.inl ?_))
    have hold : ∀ pc', m.timer = (s.mem.setTimer t n pc').timer →
        (TimerStored pc' = true → m.taskState t = .suspended → TimerStored pc = true) →
        (s.mem.timer u (s.mem.epoch u)).any TimerStored = true := by
      intro pc' h1 h2
      rw [setTimer_any h1] at htm'
      split_ifs at htm' with h3
      · obtain ⟨rfl, rfl⟩ := h3
        rw [hpc]
        exact h2 htm' hs
      · exact htm'
    cases ht with
    | idle pc' h1 _ _ _ _ h2 => exact hold pc' h1 h2
    | find h1 | push h1 => exact hold _ h1 fun h2 => by cases h2
  · exact Or.inr (Or.inr (Or.inr (Or.inl ⟨v, d, hv, hd⟩)))
  · rw [show (s.setMem m).mem.born u = s.mem.born u from congrFun hsame.born u] at hb
    exact Or.inr (Or.inr (Or.inr (Or.inr hb)))

omit [DecidableEq E] [DecidableEq B] [DecidableEq C] in
/-- A callback goes on. -/
theorem Inv.ticked (h : Inv s) (hpc : s.mem.timer t n = some pc) (ht : Ticked s.mem t n pc m)
    (hsame : s.mem.SameTasks m) (hpush : pc = .push → ¬s.Hasty (t, n))
    (hfind : pc = .loadState → s.mem.taskState t = .suspended → ¬s.WakerHas (t, n)) :
    Claimed (s.setMem m) ∧ Entered (s.setMem m) ∧ Awake (s.setMem m) :=
  ⟨h.timer_claimed hpc ht hsame hpush hfind, h.timer_entered hpc ht hsame hpush hfind,
    h.timer_awake hpc ht hsame hpush hfind⟩

end Timers

end Cothread.Worker
