import Cothread.Core.RunQueues

/-!
# The scheduler's queues: every waiting task is stored once

A step puts a task somewhere, moves it, takes it away, or leaves all tasks where they are (`Kept.put`, `Kept.move`,
`Kept.take`, `Kept.same`); `Inv` adds what the local queues and the batches are. A full local queue loses all its tasks
(`lost_when_full`).
-/

namespace Cothread.RunQueues

open Run WorkStealing Places

variable {n : ℕ} {T : Type*} [DecidableEq T]

/-- Every waiting task, and no other, is stored, in one place. -/
structure Kept (s : State n T) : Prop where
  once : ∀ x, Once fun p => (s.at p).count x
  stored : ∀ x, s.waiting x = true ↔ ∃ p, x ∈ s.at p

section Kept

variable {s t : State n T} {a b : Place n} {x : T}

theorem Kept.same (h : Kept s) (hat : ∀ p, t.at p = s.at p) (hw : t.waiting = s.waiting) : Kept t := by
  refine ⟨fun y => ?_, fun y => ?_⟩
  · simpa only [hat] using h.once y
  · simpa only [hat, hw] using h.stored y

omit [DecidableEq T] in
/-- A task more at one place: the others are where they were. -/
theorem exists_mem_at (hp : (t.at a).Perm (x :: s.at a)) (hat : ∀ p, p ≠ a → t.at p = s.at p) {y : T} (hy : y ≠ x) :
    (∃ p, y ∈ t.at p) ↔ ∃ p, y ∈ s.at p := by
  refine exists_congr fun p => ?_
  by_cases hpp : p = a
  · subst hpp
    rw [hp.mem_iff, List.mem_cons, or_iff_right hy]
  · rw [hat p hpp]

/-- A task that was not waiting is put somewhere. -/
theorem Kept.put (h : Kept s) (hx : s.waiting x = false) (hp : (t.at a).Perm (x :: s.at a))
    (hat : ∀ p, p ≠ a → t.at p = s.at p) (hw : t.waiting = Function.update s.waiting x true) : Kept t := by
  have hnot : ∀ p, x ∉ s.at p := fun p hm => by
    rw [(h.stored x).mpr ⟨p, hm⟩] at hx
    cases hx
  refine ⟨fun y => ?_, fun y => ?_⟩
  · by_cases hy : y = x
    · subst hy
      refine Once.insert (c := fun p => (s.at p).count y) (fun p => List.count_eq_zero.mpr (hnot p)) (b := a) ?_
        fun p hne => by rw [hat p hne]
      rw [hp.count_eq, List.count_cons_self, List.count_eq_zero.mpr (hnot a)]
    · refine (h.once y).mono fun p => ?_
      by_cases hpp : p = a
      · subst hpp
        rw [hp.count_eq, List.count_cons_of_ne (Ne.symm hy)]
      · rw [hat p hpp]
  · rw [hw]
    by_cases hy : y = x
    · subst hy
      simp only [Function.update_self, true_iff]
      exact ⟨a, hp.mem_iff.mpr List.mem_cons_self⟩
    · rw [Function.update_of_ne hy, h.stored y]
      exact (exists_mem_at hp hat hy).symm

/-- A task is taken away. -/
theorem Kept.take (h : Kept s) (hp : (s.at a).Perm (x :: t.at a)) (hat : ∀ p, p ≠ a → t.at p = s.at p)
    (hw : t.waiting = Function.update s.waiting x false) : Kept t := by
  have hle : ∀ y p, (t.at p).count y ≤ (s.at p).count y := by
    intro y p
    by_cases hpp : p = a
    · subst hpp
      rw [hp.count_eq]
      exact List.count_le_count_cons
    · rw [hat p hpp]
  have hgone : ∀ p, x ∉ t.at p := by
    intro p hm
    have hone : 0 < (s.at a).count x := List.count_pos_iff.mpr (hp.mem_iff.mpr List.mem_cons_self)
    by_cases hpp : p = a
    · subst hpp
      have htwo := (h.once x).le_one p
      rw [hp.count_eq, List.count_cons_self] at htwo
      have := List.count_pos_iff.mpr hm
      omega
    · rw [hat p hpp] at hm
      exact hpp ((h.once x).unique (List.count_pos_iff.mpr hm) hone)
  refine ⟨fun y => (h.once y).mono (hle y), fun y => ?_⟩
  rw [hw]
  by_cases hy : y = x
  · subst hy
    simp [hgone]
  · rw [Function.update_of_ne hy, h.stored y]
    exact exists_mem_at hp (fun p hpp => (hat p hpp).symm) hy

/-- A task is moved. -/
theorem Kept.move (h : Kept s) (hne : a ≠ b) (hpa : (s.at a).Perm (x :: t.at a))
    (hpb : (t.at b).Perm (x :: s.at b)) (hat : ∀ p, p ≠ a → p ≠ b → t.at p = s.at p) (hw : t.waiting = s.waiting) :
    Kept t := by
  refine ⟨fun y => ?_, fun y => ?_⟩
  · refine (h.once y).move hne ?_ fun p h₀ h₁ => by rw [hat p h₀ h₁]
    rw [hpa.count_eq, hpb.count_eq, List.count_cons, List.count_cons]
    omega
  · rw [hw, h.stored y]
    constructor
    · rintro ⟨p, hm⟩
      by_cases h₀ : p = a
      · subst h₀
        obtain rfl | hm := List.mem_cons.mp (hpa.mem_iff.mp hm)
        · exact ⟨b, hpb.mem_iff.mpr List.mem_cons_self⟩
        · exact ⟨p, hm⟩
      · by_cases h₁ : p = b
        · subst h₁
          exact ⟨p, hpb.mem_iff.mpr (List.mem_cons_of_mem x hm)⟩
        · exact ⟨p, by rwa [hat p h₀ h₁]⟩
    · rintro ⟨p, hm⟩
      by_cases h₀ : p = a
      · subst h₀
        exact ⟨p, hpa.mem_iff.mpr (List.mem_cons_of_mem x hm)⟩
      · by_cases h₁ : p = b
        · subst h₁
          obtain rfl | hm := List.mem_cons.mp (hpb.mem_iff.mp hm)
          · exact ⟨a, hpa.mem_iff.mpr List.mem_cons_self⟩
          · exact ⟨p, hm⟩
        · exact ⟨p, by rwa [← hat p h₀ h₁]⟩

end Kept

/-! ## The batches -/

section Slots

variable {b : ℕ → Option T} {i j k : ℕ} {x : T} {v : Option T}

omit [DecidableEq T]

theorem slots_nil (h : k ≤ i) : slots b i k = [] := by
  rw [slots, Nat.sub_eq_zero_of_le h]
  rfl

theorem slots_snoc (h : i ≤ k) (hx : b k = some x) : slots b i (k + 1) = slots b i k ++ [x] := by
  have hk : k + 1 - i = k - i + 1 := by omega
  have hlast : i + (k - i) = k := by omega
  rw [slots, hk, List.range'_concat, Nat.one_mul, hlast, List.map_append, List.map_singleton, hx, slots]
  simp [List.reduceOption_append]

theorem slots_cons (h : i < k) (hx : b i = some x) : slots b i k = x :: slots b (i + 1) k := by
  have hk : k - i = k - (i + 1) + 1 := by omega
  rw [slots, hk, List.range'_succ, List.map_cons, hx, slots, List.reduceOption_cons_of_some]

theorem slots_update (h : k ≤ j) : slots (Function.update b j v) i k = slots b i k := by
  rw [slots, slots]
  congr 1
  refine List.map_congr_left fun m hm => Function.update_of_ne ?_ _ _
  have := List.mem_range'_1.mp hm
  omega

end Slots

/-- What the batch of a worker is. -/
def BatchOk (b : ℕ → Option T) (k : ℕ) : Pc → Prop
  | .out => k < BATCH_SIZE ∧ ∀ j < k, (b j).isSome
  | .flush i => i < k ∧ ∀ j < k, (b j).isSome
  | .take => 0 < k ∧ k ≤ BATCH_SIZE ∧ ∀ j < k, (b j).isSome
  | .fill c => c < BATCH_SIZE ∧ k = 0 ∧ ∀ j < c, (b j).isSome
  | .global | .steal _ => k = 0

structure Inv (s : State n T) : Prop where
  kept : Kept s
  ring : ∀ w, ∃ xs, Holds (s.queue w) xs
  batch : ∀ w, BatchOk (s.batch w) (s.batchCount w) (s.pc w)

/-! ## Steps -/

section Steps

variable {s t : State n T} {w v : Fin n} {x : T} {q : Queue T} {xs : List T}

omit [DecidableEq T] in
theorem window_of_holds (h : Holds q xs) : q.window.reduceOption = xs := by
  rw [h.window, List.reduceOption, List.filterMap_map]
  exact List.filterMap_some

omit [DecidableEq T] in
theorem stored_flush {i : ℕ} (h : s.pc w = .flush i) : s.stored w = slots (s.batch w) i (s.batchCount w) := by
  rw [State.stored, h]

omit [DecidableEq T] in
theorem stored_fill {k : ℕ} (h : s.pc w = .fill k) : s.stored w = slots (s.batch w) 0 k := by
  rw [State.stored, h]

omit [DecidableEq T] in
theorem stored_out (h : s.pc w = .out) : s.stored w = slots (s.batch w) 0 (s.batchCount w) := by
  rw [State.stored, h]

omit [DecidableEq T] in
theorem stored_take (h : s.pc w = .take) : s.stored w = slots (s.batch w) 0 (s.batchCount w) := by
  rw [State.stored, h]

omit [DecidableEq T] in
/-- A window that is not full has room. -/
theorem room (h : Holds (s.queue w) xs) (hw : ¬s.Full w) : xs.length + 1 < CAPACITY := by
  have hlen : (s.queue w).window.length = xs.length := by rw [h.window, List.length_map]
  obtain ⟨p, -, -, hlt, -⟩ := h
  rw [State.Full, hlen] at hw
  omega

/-- The batches of the other workers are what they were. -/
def Others (s t : State n T) (w : Fin n) : Prop :=
  ∀ v, v ≠ w → t.pc v = s.pc v ∧ t.batch v = s.batch v ∧ t.batchCount v = s.batchCount v

omit [DecidableEq T] in
theorem Others.stored (h : Others s t w) (hv : v ≠ w) : t.stored v = s.stored v := by
  obtain ⟨h1, h2, h3⟩ := h v hv
  rw [State.stored, State.stored, h1, h2, h3]

theorem Inv.of (h : Inv s) (hk : Kept t) (hring : ∀ v, ∃ xs, Holds (t.queue v) xs) (hother : Others s t w)
    (hb : BatchOk (t.batch w) (t.batchCount w) (t.pc w)) : Inv t := by
  refine ⟨hk, hring, fun v => ?_⟩
  by_cases hv : v = w
  · exact hv ▸ hb
  · obtain ⟨h1, h2, h3⟩ := hother v hv
    rw [h1, h2, h3]
    exact h.batch v

/-- A step of a worker that leaves all tasks where they are. -/
theorem Inv.stay (h : Inv s) (hshards : t.shards = s.shards) (hqueue : t.queue = s.queue) (hw : t.waiting = s.waiting)
    (hother : Others s t w) (hstored : t.stored w = s.stored w)
    (hb : BatchOk (t.batch w) (t.batchCount w) (t.pc w)) : Inv t := by
  refine h.of (h.kept.same (fun p => ?_) hw) (fun v => hqueue ▸ h.ring v) hother hb
  cases p with
  | shard i => simp only [State.at, hshards]
  | window v => simp only [State.at, hqueue]
  | batch v =>
    by_cases hv : v = w
    · exact hv ▸ hstored
    · exact hother.stored hv

/-- Another thread submits a task. -/
theorem Inv.submit (h : Inv s) (hx : s.waiting x = false) (hi : 0 ≤ s.shard ∧ s.shard < n) :
    Inv ((s.pushGlobal x).setWaiting x true) := by
  refine ⟨h.kept.put (a := .shard s.shard) hx ?_ (fun p hp => ?_) rfl, h.ring, h.batch⟩
  · simp only [State.at, if_pos hi]
    show (Function.update s.shards s.shard (s.shards s.shard ++ [x]) s.shard).Perm _
    rw [Function.update_self]
    exact List.perm_append_singleton x _
  · cases p with
    | shard i =>
      have hne : i ≠ s.shard := fun he => hp (he ▸ rfl)
      simp only [State.at, State.pushGlobal, State.setWaiting, Function.update_of_ne hne]
    | _ => rfl

theorem at_setWaiting {b : Bool} (p : Place n) : (s.setWaiting x b).at p = s.at p := by cases p <;> rfl

omit [DecidableEq T] in
/-- The local queue of one worker changes, and nothing else. -/
theorem at_setQueue (p : Place n) (hp : p ≠ .window w) : (s.setQueue w q).at p = s.at p := by
  cases p with
  | window v =>
    have hv : v ≠ w := fun he => hp (he ▸ rfl)
    simp only [State.at, State.setQueue, Function.update_of_ne hv]
  | _ => rfl

omit [DecidableEq T] in
theorem at_setQueue_self : (s.setQueue w q).at (.window w) = q.window.reduceOption := by
  simp only [State.at, State.setQueue, Function.update_self]

omit [DecidableEq T] in
theorem ring_setQueue (h : ∀ v, ∃ xs, Holds (s.queue v) xs) (hq : Holds q xs) (v : Fin n) :
    ∃ xs, Holds ((s.setQueue w q).queue v) xs := by
  by_cases hv : v = w
  · subst hv
    exact ⟨xs, by simpa [State.setQueue] using hq⟩
  · simpa [State.setQueue, hv] using h v

/-- A task is submitted by the task that a worker executes. -/
theorem Inv.submitLocal (h : Inv s) (hx : s.waiting x = false) (hw : ¬s.Full w) :
    Inv ((s.setQueue w ((s.queue w).push (some x))).setWaiting x true) := by
  obtain ⟨xs, hxs⟩ := h.ring w
  have hpush := hxs.push (x := x) (room hxs hw)
  refine ⟨h.kept.put (a := .window w) hx ?_ (fun p hp => (at_setWaiting p).trans (at_setQueue p hp)) rfl,
    ring_setQueue h.ring hpush, h.batch⟩
  rw [at_setWaiting, at_setQueue_self, window_of_holds hpush]
  show (xs ++ [x]).Perm (x :: (s.queue w).window.reduceOption)
  rw [window_of_holds hxs]
  exact List.perm_append_singleton x xs

omit [DecidableEq T] in
/-- The batch of one worker changes, and nothing else. -/
theorem at_batch (hshards : t.shards = s.shards) (hqueue : t.queue = s.queue) (hother : Others s t w) (p : Place n)
    (hp : p ≠ .batch w) : t.at p = s.at p := by
  cases p with
  | shard i => simp only [State.at, hshards]
  | window v => simp only [State.at, hqueue]
  | batch v => exact hother.stored fun he => hp (he ▸ rfl)

omit [DecidableEq T] in
/-- The batch and the local queue of one worker change, and nothing else. -/
theorem at_local (hshards : t.shards = s.shards) (hqueue : t.queue = Function.update s.queue w q)
    (hother : Others s t w) (p : Place n) (hb : p ≠ .batch w) (hq : p ≠ .window w) : t.at p = s.at p := by
  cases p with
  | shard i => simp only [State.at, hshards]
  | batch v => exact hother.stored fun he => hb (he ▸ rfl)
  | window v =>
    have hv : v ≠ w := fun he => hq (he ▸ rfl)
    simp only [State.at, hqueue, Function.update_of_ne hv]

/-- `YieldCurrent`. -/
theorem Inv.yield (h : Inv s) (hw : s.pc w = .out) (hx : s.waiting x = false) : Inv (s.yield w x) := by
  unfold State.yield
  split_ifs with hempty hfull
  · exact h
  all_goals
    have hb := h.batch w
    rw [hw] at hb
    obtain ⟨hlt, hsome⟩ := hb
    let t := { ((s.setBatch w (s.batchCount w) (some x)).setCount w (s.batchCount w + 1)).setWaiting x true with
      current := Function.update s.current w none }
    have hbatch : ∀ pc, (t.goto w pc).batch w = Function.update (s.batch w) (s.batchCount w) (some x) := fun pc =>
      Function.update_self ..
    have hcount : ∀ pc, (t.goto w pc).batchCount w = s.batchCount w + 1 := fun pc => Function.update_self ..
    have hpc : ∀ pc, (t.goto w pc).pc w = pc := fun pc => Function.update_self ..
    have hother : ∀ pc, Others s (t.goto w pc) w := fun pc v hv =>
      ⟨Function.update_of_ne hv _ _, Function.update_of_ne hv _ _, Function.update_of_ne hv _ _⟩
    have hsome' : ∀ j < s.batchCount w + 1, (Function.update (s.batch w) (s.batchCount w) (some x) j).isSome := by
      intro j hj
      by_cases hjk : j = s.batchCount w
      · rw [hjk, Function.update_self]
        rfl
      · rw [Function.update_of_ne hjk]
        exact hsome j (by omega)
    have hslots : slots (Function.update (s.batch w) (s.batchCount w) (some x)) 0 (s.batchCount w + 1) =
        s.stored w ++ [x] := by
      rw [slots_snoc (Nat.zero_le _) (Function.update_self ..), slots_update le_rfl, stored_out hw]
  · have hstored : (t.goto w (.flush 0)).stored w = s.stored w ++ [x] := by
      rw [stored_flush (hpc _), hbatch, hcount, hslots]
    refine h.of (w := w) (h.kept.put (a := .batch w) hx ?_ (at_batch rfl rfl (hother _)) rfl) h.ring (hother _) ?_
    · exact (List.Perm.of_eq hstored).trans (List.perm_append_singleton x _)
    · rw [hpc, hbatch, hcount]
      exact ⟨Nat.succ_pos _, hsome'⟩
  · have hstored : (t.goto w .out).stored w = s.stored w ++ [x] := by
      rw [stored_out (hpc _), hbatch, hcount, hslots]
    refine h.of (w := w) (h.kept.put (a := .batch w) hx ?_ (at_batch rfl rfl (hother _)) rfl) h.ring (hother _) ?_
    · exact (List.Perm.of_eq hstored).trans (List.perm_append_singleton x _)
    · rw [hpc, hbatch, hcount]
      exact ⟨by omega, hsome'⟩

/-- `PickTask` starts. -/
theorem Inv.pick (h : Inv s) (hw : s.pc w = .out) : Inv (s.goto w (if 0 < s.batchCount w then .take else .fill 0)) := by
  have hb := h.batch w
  rw [hw] at hb
  obtain ⟨hlt, hsome⟩ := hb
  have hother : ∀ pc, Others s (s.goto w pc) w := fun pc v hv => ⟨Function.update_of_ne hv _ _, rfl, rfl⟩
  split_ifs with hpos
  · have hpc : (s.goto w .take).pc w = .take := Function.update_self ..
    refine h.stay rfl rfl rfl (hother _) ?_ ?_
    · rw [stored_take hpc, stored_out hw]
      rfl
    · rw [hpc]
      exact ⟨hpos, hlt.le, hsome⟩
  · have hpc : (s.goto w (.fill 0)).pc w = .fill 0 := Function.update_self ..
    have hzero : s.batchCount w = 0 := Nat.eq_zero_of_not_pos hpos
    refine h.stay rfl rfl rfl (hother _) ?_ ?_
    · rw [stored_fill hpc, stored_out hw, hzero]
      rfl
    · rw [hpc]
      exact ⟨by decide, hzero, nofun⟩

/-- `MaybeFlushBatch` pushes a task of the batch. -/
theorem Inv.flush (h : Inv s) {i : ℕ} (hw : s.pc w = .flush i) (hroom : ¬s.Full w)
    (hst : s.access w (.flush i) = some t) : Inv t := by
  have hb := h.batch w
  rw [hw] at hb
  obtain ⟨hi, hsome⟩ := hb
  obtain ⟨x, hx⟩ := Option.isSome_iff_exists.mp (hsome i hi)
  obtain ⟨xs, hxs⟩ := h.ring w
  have hpush := hxs.push (x := x) (room hxs hroom)
  have hring := ring_setQueue (w := w) h.ring hpush
  have hold : s.stored w = x :: slots (s.batch w) (i + 1) (s.batchCount w) := by
    rw [stored_flush hw, slots_cons hi hx]
  have hmove : ∀ {t : State n T}, t.shards = s.shards →
      t.queue = Function.update s.queue w ((s.queue w).push (some x)) → t.waiting = s.waiting → Others s t w →
      t.stored w = slots (s.batch w) (i + 1) (s.batchCount w) → Kept t := by
    intro t hshards hqueue hwait hother hstored
    refine h.kept.move (a := .batch w) (b := .window w) (x := x) nofun ?_ ?_ (at_local hshards hqueue hother) hwait
    · show (s.stored w).Perm (x :: t.stored w)
      rw [hold, hstored]
    · show (t.queue w).window.reduceOption.Perm (x :: (s.queue w).window.reduceOption)
      rw [hqueue, Function.update_self, window_of_holds hpush, window_of_holds hxs]
      exact List.perm_append_singleton x xs
  simp only [State.access, hx, Option.some.injEq] at hst
  subst hst
  split_ifs with hlast
  · have hpc : ((s.setQueue w ((s.queue w).push (some x))).goto w (.flush (i + 1))).pc w = .flush (i + 1) :=
      Function.update_self ..
    have hother : Others s ((s.setQueue w ((s.queue w).push (some x))).goto w (.flush (i + 1))) w := fun v hv =>
      ⟨Function.update_of_ne hv _ _, rfl, rfl⟩
    refine h.of (hmove rfl rfl rfl hother ?_) hring hother ?_
    · rw [stored_flush hpc]
      rfl
    · rw [hpc]
      exact ⟨hlast, hsome⟩
  · have hpc : (((s.setQueue w ((s.queue w).push (some x))).setCount w 0).goto w .out).pc w = .out :=
      Function.update_self ..
    have hcount : (((s.setQueue w ((s.queue w).push (some x))).setCount w 0).goto w .out).batchCount w = 0 :=
      Function.update_self ..
    have hother : Others s (((s.setQueue w ((s.queue w).push (some x))).setCount w 0).goto w .out) w := fun v hv =>
      ⟨Function.update_of_ne hv _ _, rfl, Function.update_of_ne hv _ _⟩
    refine h.of (hmove rfl rfl rfl hother ?_) hring hother ?_
    · rw [stored_out hpc, hcount, slots_nil le_rfl, slots_nil (by omega)]
    · rw [hpc, hcount]
      exact ⟨by decide, nofun⟩

/-- `return local_batch_[--batch_count_]`. -/
theorem Inv.take (h : Inv s) (hw : s.pc w = .take) (hst : s.access w .take = some t) : Inv t := by
  have hb := h.batch w
  rw [hw] at hb
  obtain ⟨hpos, hle, hsome⟩ := hb
  obtain ⟨k, hk⟩ : ∃ k, s.batchCount w = k + 1 := ⟨s.batchCount w - 1, by omega⟩
  obtain ⟨x, hx⟩ := Option.isSome_iff_exists.mp (hsome k (by omega))
  simp only [State.access, hk, Nat.add_sub_cancel, hx, Option.some.injEq] at hst
  subst hst
  have hpc : ((s.setCount w k).picked w (some x)).pc w = .out := Function.update_self ..
  have hcount : ((s.setCount w k).picked w (some x)).batchCount w = k := Function.update_self ..
  have hother : Others s ((s.setCount w k).picked w (some x)) w := fun v hv =>
    ⟨Function.update_of_ne hv _ _, rfl, Function.update_of_ne hv _ _⟩
  refine h.of (w := w) (h.kept.take (a := .batch w) (x := x) ?_ (at_batch rfl rfl hother) rfl) h.ring hother ?_
  · show (s.stored w).Perm (x :: ((s.setCount w k).picked w (some x)).stored w)
    rw [stored_take hw, stored_out hpc, hcount, hk, slots_snoc (Nat.zero_le k) hx]
    exact List.perm_append_singleton x _
  · rw [hpc, hcount]
    exact ⟨by omega, fun j hj => hsome j (by omega)⟩

/-- `PopMultiple` has found the local queue empty after `k` tasks. -/
theorem Inv.fillEmpty (h : Inv s) {k : ℕ} (hw : s.pc w = .fill k) :
    Inv (if 0 < k then (s.setCount w k).goto w .take else s.goto w .global) := by
  have hb := h.batch w
  rw [hw] at hb
  obtain ⟨hk, hzero, hsome⟩ := hb
  split_ifs with hpos
  · have hpc : ((s.setCount w k).goto w .take).pc w = .take := Function.update_self ..
    have hcount : ((s.setCount w k).goto w .take).batchCount w = k := Function.update_self ..
    refine h.stay rfl rfl rfl (fun v hv => ⟨Function.update_of_ne hv _ _, rfl, Function.update_of_ne hv _ _⟩) ?_ ?_
    · rw [stored_take hpc, hcount, stored_fill hw]
      rfl
    · rw [hpc, hcount]
      exact ⟨hpos, hk.le, hsome⟩
  · have hpc : (s.goto w .global).pc w = .global := Function.update_self ..
    refine h.stay rfl rfl rfl (fun v hv => ⟨Function.update_of_ne hv _ _, rfl, rfl⟩) ?_ ?_
    · rw [State.stored, hpc, stored_fill hw]
      show slots (s.batch w) 0 (s.batchCount w) = _
      rw [hzero, Nat.eq_zero_of_not_pos hpos]
    · rw [hpc]
      exact hzero

/-- `PopMultiple` pops a task, or finds the local queue empty. -/
theorem Inv.fill (h : Inv s) {k : ℕ} (hw : s.pc w = .fill k) (hst : s.access w (.fill k) = some t) : Inv t := by
  have hb := h.batch w
  rw [hw] at hb
  obtain ⟨hk, hzero, hsome⟩ := hb
  obtain ⟨xs, hxs⟩ := h.ring w
  obtain rfl | ⟨ys, x, rfl⟩ := xs.eq_nil_or_concat'
  · have hself : s.setQueue w (s.queue w) = s := by rw [State.setQueue, Function.update_eq_self]
    simp only [State.access, hxs.pop_nil, hself, Option.some.injEq] at hst
    subst hst
    exact h.fillEmpty hw
  · obtain ⟨hx, hys⟩ := hxs.pop_snoc
    have hpop : (s.queue w).pop = ((s.queue w).pop.1, some x) := Prod.ext rfl hx
    have hring := ring_setQueue (w := w) h.ring hys
    let b := Function.update (s.batch w) k (some x)
    have hslots : slots b 0 (k + 1) = s.stored w ++ [x] := by
      rw [slots_snoc (Nat.zero_le k) (Function.update_self ..), slots_update le_rfl, stored_fill hw]
    have hsome' : ∀ j < k + 1, (b j).isSome := by
      intro j hj
      by_cases hjk : j = k
      · rw [hjk, show b k = some x from Function.update_self ..]
        rfl
      · rw [show b j = s.batch w j from Function.update_of_ne hjk _ _]
        exact hsome j (by omega)
    have hmove : ∀ {t : State n T}, t.shards = s.shards → t.queue = Function.update s.queue w (s.queue w).pop.1 →
        t.waiting = s.waiting → Others s t w → t.stored w = slots b 0 (k + 1) → Kept t := by
      intro t hshards hqueue hwait hother hstored
      refine h.kept.move (a := .window w) (b := .batch w) (x := x) nofun ?_ ?_
        (fun p hp hb => at_local hshards hqueue hother p hb hp) hwait
      · show (s.queue w).window.reduceOption.Perm (x :: (t.queue w).window.reduceOption)
        rw [hqueue, Function.update_self, window_of_holds hys, window_of_holds hxs]
        exact List.perm_append_singleton x ys
      · show (t.stored w).Perm (x :: s.stored w)
        rw [hstored, hslots]
        exact List.perm_append_singleton x _
    let s' := (s.setQueue w (s.queue w).pop.1).setBatch w k (some x)
    rw [State.access, hpop] at hst
    simp only [Option.some.injEq] at hst
    subst hst
    split_ifs with hroom
    · have hpc : (s'.goto w (.fill (k + 1))).pc w = .fill (k + 1) := Function.update_self ..
      have hbatch : (s'.goto w (.fill (k + 1))).batch w = b := Function.update_self ..
      have hother : Others s (s'.goto w (.fill (k + 1))) w := fun v hv =>
        ⟨Function.update_of_ne hv _ _, Function.update_of_ne hv _ _, rfl⟩
      refine h.of (t := s'.goto w (.fill (k + 1))) (hmove rfl rfl rfl hother ?_) hring hother ?_
      · rw [stored_fill hpc, hbatch]
      · rw [hpc, hbatch]
        exact ⟨hroom, hzero, hsome'⟩
    · have hpc : ((s'.setCount w (k + 1)).goto w .take).pc w = .take := Function.update_self ..
      have hbatch : ((s'.setCount w (k + 1)).goto w .take).batch w = b := Function.update_self ..
      have hcount : ((s'.setCount w (k + 1)).goto w .take).batchCount w = k + 1 := Function.update_self ..
      have hother : Others s ((s'.setCount w (k + 1)).goto w .take) w := fun v hv =>
        ⟨Function.update_of_ne hv _ _, Function.update_of_ne hv _ _, Function.update_of_ne hv _ _⟩
      refine h.of (t := (s'.setCount w (k + 1)).goto w .take) (hmove rfl rfl rfl hother ?_) hring hother ?_
      · rw [stored_take hpc, hbatch, hcount]
      · rw [hpc, hbatch, hcount]
        exact ⟨Nat.succ_pos k, hk, hsome'⟩

omit [DecidableEq T] in
/-- `SharedMPSCQueue::Pop` takes the first task of a shard. -/
theorem popShards_some {shards shards' : Int → List T} : ∀ {order : List Int},
    popShards shards order = some (x, shards') →
      ∃ i ∈ order, ∃ q, shards i = x :: q ∧ shards' = Function.update shards i q
  | [], h => by cases h
  | i :: order, h => by
    cases hi : shards i with
    | nil =>
      simp only [popShards, hi] at h
      obtain ⟨j, hj, hrest⟩ := popShards_some h
      exact ⟨j, List.mem_cons_of_mem i hj, hrest⟩
    | cons y q =>
      simp only [popShards, hi, Option.some.injEq, Prod.mk.injEq] at h
      obtain ⟨rfl, rfl⟩ := h
      exact ⟨i, List.mem_cons_self, q, hi, rfl⟩

theorem mem_popOrder {i : Int} (h : i ∈ popOrder w) : 0 ≤ i ∧ i < n := by
  obtain rfl | h := List.mem_cons.mp h
  · exact ⟨Int.natCast_nonneg _, by exact_mod_cast w.isLt⟩
  · obtain ⟨k, hk, rfl⟩ := List.mem_map.mp (List.mem_filter.mp h).1
    exact ⟨Int.natCast_nonneg k, Int.ofNat_lt.mpr (List.mem_range.mp hk)⟩

/-- A worker looks elsewhere only when its batch is empty. -/
theorem Inv.emptyBatch (h : Inv s) (hw : s.pc w = .global ∨ ∃ i, s.pc w = .steal i) :
    s.batchCount w = 0 ∧ s.stored w = [] := by
  have hzero : s.batchCount w = 0 := by
    have hb := h.batch w
    obtain hw | ⟨i, hw⟩ := hw <;> rw [hw] at hb <;> exact hb
  refine ⟨hzero, ?_⟩
  obtain hw | ⟨i, hw⟩ := hw <;> rw [State.stored, hw] <;> exact slots_nil hzero.le

/-- A worker in `PickTask` with an empty batch goes on, or gives up. -/
theorem Inv.look (h : Inv s) {pc : Pc} (hw : s.pc w = .global ∨ ∃ i, s.pc w = .steal i)
    (hpc : pc = .out ∨ ∃ i, pc = .steal i) : Inv (s.goto w pc) := by
  obtain ⟨hzero, hnil⟩ := h.emptyBatch hw
  have hself : (s.goto w pc).pc w = pc := Function.update_self ..
  refine h.stay rfl rfl rfl (fun v hv => ⟨Function.update_of_ne hv _ _, rfl, rfl⟩) ?_ ?_
  · rw [hnil]
    obtain rfl | ⟨i, rfl⟩ := hpc <;> rw [State.stored, hself] <;> exact slots_nil hzero.le
  · rw [hself]
    obtain rfl | ⟨i, rfl⟩ := hpc
    · exact ⟨hzero ▸ by decide, fun j hj => absurd (hzero ▸ hj) (Nat.not_lt_zero j)⟩
    · exact hzero

theorem Inv.nextSteal (h : Inv s) {i : ℕ} (hw : ∃ i, s.pc w = .steal i) : Inv (s.nextSteal w i) := by
  unfold State.nextSteal
  split_ifs
  · exact h.look (Or.inr hw) (Or.inr ⟨_, rfl⟩)
  · exact h.look (Or.inr hw) (Or.inl rfl)

/-- A worker with an empty batch picks a task that is stored elsewhere. -/
theorem Inv.pickElsewhere (h : Inv s) {u : State n T} {a : Place n} (hw : s.pc w = .global ∨ ∃ i, s.pc w = .steal i)
    (hpa : (s.at a).Perm (x :: u.at a)) (hat : ∀ p, p ≠ a → u.at p = s.at p) (hwait : u.waiting = s.waiting)
    (hpc : u.pc = s.pc) (hbatch : u.batch = s.batch) (hcount : u.batchCount = s.batchCount)
    (hring : ∀ v, ∃ xs, Holds (u.queue v) xs) : Inv (u.picked w (some x)) := by
  obtain ⟨hzero, hnil⟩ := h.emptyBatch hw
  have hself : (u.picked w (some x)).pc w = .out := Function.update_self ..
  have hcount' : (u.picked w (some x)).batchCount w = 0 := (congrFun hcount w).trans hzero
  have hother : Others s (u.picked w (some x)) w := fun v hv =>
    ⟨(Function.update_of_ne hv _ _).trans (congrFun hpc v), congrFun hbatch v, congrFun hcount v⟩
  have hpicked : ∀ p, (u.picked w (some x)).at p = u.at p := by
    intro p
    cases p with
    | batch v =>
      have hv : u.stored v = s.stored v := by rw [State.stored, State.stored, hpc, hbatch, hcount]
      by_cases hvw : v = w
      · subst hvw
        show (u.picked v (some x)).stored v = u.stored v
        rw [hv, hnil, stored_out hself, hcount', slots_nil le_rfl]
      · exact (hother.stored hvw).trans hv.symm
    | _ => rfl
  refine h.of (h.kept.take (x := x) ?_ (fun p hpp => (hpicked p).trans (hat p hpp)) ?_) hring hother ?_
  · rw [hpicked]
    exact hpa
  · exact congrArg (fun f => Function.update f x false) hwait
  · rw [hself, hcount']
    exact ⟨by decide, nofun⟩

/-- `PopGlobal(id_)`. -/
theorem Inv.global (h : Inv s) (hw : s.pc w = .global) (hst : s.access w .global = some t) : Inv t := by
  rw [State.access] at hst
  cases hpop : popShards s.shards (popOrder w) with
  | none =>
    simp only [hpop, Option.some.injEq] at hst
    subst hst
    split_ifs
    · exact h.look (Or.inl hw) (Or.inl rfl)
    · exact h.look (Or.inl hw) (Or.inr ⟨0, rfl⟩)
  | some r =>
    obtain ⟨x, shards⟩ := r
    simp only [hpop, Option.some.injEq] at hst
    subst hst
    obtain ⟨i, hi, q, hq, rfl⟩ := popShards_some hpop
    refine h.pickElsewhere (a := .shard i) (Or.inl hw) ?_ (fun p hp => ?_) rfl rfl rfl rfl h.ring
    · simp only [State.at, if_pos (mem_popOrder hi), Function.update_self, hq]
      exact List.Perm.refl _
    · cases p with
      | shard j =>
        have hj : j ≠ i := fun he => hp (he ▸ rfl)
        simp only [State.at, Function.update_of_ne hj]
      | _ => rfl

/-- An attempt to steal. -/
theorem Inv.steal (h : Inv s) {i : ℕ} (hw : s.pc w = .steal i) (hst : s.access w (.steal i) = some t) : Inv t := by
  rw [State.access, Option.some.injEq] at hst
  subst hst
  split_ifs with hvictim
  · exact h.nextSteal ⟨i, hw⟩
  · generalize victim w i = v at hvictim
    obtain ⟨xs, hxs⟩ := h.ring v
    cases xs with
    | nil =>
      have hself : s.setQueue v (s.queue v) = s := by rw [State.setQueue, Function.update_eq_self]
      rw [hxs.steal_nil]
      simp only [hself]
      exact h.nextSteal ⟨i, hw⟩
    | cons x xs =>
      obtain ⟨hx, hrest⟩ := hxs.steal_cons
      have hsteal : (s.queue v).steal = ((s.queue v).steal.1, some x) := Prod.ext rfl hx
      rw [hsteal]
      refine h.pickElsewhere (a := .window v) (Or.inr ⟨i, hw⟩) ?_ (fun p hp => at_setQueue p hp) rfl rfl rfl rfl
        (ring_setQueue h.ring hrest)
      rw [at_setQueue_self, window_of_holds hrest]
      show (s.queue v).window.reduceOption.Perm (x :: xs)
      rw [window_of_holds hxs]

/-- **What one step preserves**, unless a task is pushed where there is no room. -/
theorem inv_step {l : Label n T} (h : Inv s) (hok : ¬Overfull s l) (hst : step s l = some t) : Inv t := by
  cases l with
  | submit x =>
    obtain ⟨hx, hst⟩ := Option.ite_none_right_eq_some.mp hst
    cases hst
    exact h.submit hx (not_not.mp hok)
  | submitLocal w x =>
    obtain ⟨⟨-, hx⟩, hst⟩ := Option.ite_none_right_eq_some.mp hst
    cases hst
    exact h.submitLocal hx hok
  | yield w =>
    simp only [step] at hst
    split at hst
    · obtain ⟨⟨hw, hx⟩, hst⟩ := Option.ite_none_right_eq_some.mp hst
      cases hst
      exact h.yield hw hx
    · cases hst
  | finish w =>
    obtain ⟨-, hst⟩ := Option.ite_none_right_eq_some.mp hst
    cases hst
    exact h.stay (w := w) rfl rfl rfl (fun _ _ => ⟨rfl, rfl, rfl⟩) rfl (h.batch w)
  | pick w =>
    obtain ⟨⟨hw, -⟩, hst⟩ := Option.ite_none_right_eq_some.mp hst
    cases hst
    exact h.pick hw
  | worker w =>
    simp only [step] at hst
    cases hw : s.pc w with
    | out => rw [hw] at hst; cases hst
    | flush i => exact h.flush hw (fun hfull => hok ⟨⟨i, hw⟩, hfull⟩) (hw ▸ hst)
    | take => exact h.take hw (hw ▸ hst)
    | fill k => exact h.fill hw (hw ▸ hst)
    | global => exact h.global hw (hw ▸ hst)
    | steal i => exact h.steal hw (hw ▸ hst)

theorem inv_start : Inv (State.start : State n T) := by
  have hnil : ∀ p, (State.start : State n T).at p = [] := by
    intro p
    cases p with
    | shard i => simp only [State.at, State.start, ite_self]
    | batch w => rfl
    | window w => exact window_of_holds holds_new
  refine ⟨⟨fun x K => ?_, fun x => ⟨nofun, fun ⟨p, hp⟩ => ?_⟩⟩, fun w => ⟨[], holds_new⟩,
    fun w => ⟨Nat.lt_of_lt_of_le Nat.zero_lt_one (by decide), nofun⟩⟩
  · simp [hnil]
  · rw [hnil] at hp
    cases hp

theorem Inv.storedOnce (h : Inv s) : StoredOnce s := by
  refine ⟨fun x hx => ?_, fun w i hi => ?_⟩
  · obtain ⟨p, hp⟩ := (h.kept.stored x).mp hx
    have hpos := List.count_pos_iff.mpr hp
    refine ⟨p, le_antisymm ((h.kept.once x).le_one p) hpos, fun p' hne hm => hne ?_⟩
    exact (h.kept.once x).unique (List.count_pos_iff.mpr hm) hpos
  · obtain ⟨xs, hxs⟩ := h.ring w
    rw [hxs.window, List.length_map] at hi
    exact hxs.tail_ne hi

theorem inv_of_reach (hs : Reach (system n T) (fun s l => ¬Overfull s l) s) : Inv s :=
  hs.invariant (I := Inv) (by rintro _ rfl; exact inv_start) fun _ _ _ h hok hst => inv_step h hok hst

/-- **Every waiting task is stored once**, in every run in which no task is pushed where there is no room. -/
theorem stored_once (hs : Reach (system n T) (fun s l => ¬Overfull s l) s) : StoredOnce s :=
  (inv_of_reach hs).storedOnce

/-- **A task pushed to a full local queue** loses all tasks that the queue held, and is lost itself. -/
theorem Inv.lost (h : Inv s) (hfull : s.Full w) {y : T} (hy : ∀ p, y ∈ s.at p → p = .window w) (p : Place n) :
    y ∉ ((s.setQueue w ((s.queue w).push (some x))).setWaiting x true).at p := by
  obtain ⟨xs, hxs⟩ := h.ring w
  have hlen : (s.queue w).window.length = xs.length := by rw [hxs.window, List.length_map]
  have hpush := hxs.push_full (hlen ▸ hfull) (some x)
  rw [at_setWaiting]
  by_cases hp : p = .window w
  · subst hp
    rw [at_setQueue_self, window_of_holds hpush]
    exact List.not_mem_nil
  · rw [at_setQueue p hp]
    exact fun hm => hp (hy p hm)

end Steps

/-- The step pushes no task where there is no room, as a run can evaluate it. -/
def roomy (s : State n T) : Label n T → Bool
  | .submit _ => decide (0 ≤ s.shard ∧ s.shard < n)
  | .submitLocal w _ | .worker w => (s.queue w).window.length + 1 != CAPACITY
  | _ => true

omit [DecidableEq T] in
theorem not_overfull (s : State n T) (l : Label n T) (h : roomy s l = true) : ¬Overfull s l := by
  intro hover
  cases l with
  | submit x => exact hover (of_decide_eq_true h)
  | submitLocal w x => exact bne_iff_ne.mp h hover
  | worker w => exact bne_iff_ne.mp h hover.2
  | _ => exact hover

/-- Two workers; one executes a task that submits another and yields, and the other one steals. -/
theorem stored_once_stolen : ∃ s : State 2 ℕ, s.current 1 = some 9 ∧ s.waiting 7 = true ∧ s.at (.batch 0) = [7] ∧
    StoredOnce s :=
  ⟨_, rfl, rfl, rfl, stored_once (reach_exec (M := system 2 ℕ) not_overfull (.init rfl)
    (show exec (system 2 ℕ) .start
    [.submit 7, .submit 8, .pick 0, .worker 0, .worker 0, .submitLocal 0 9, .yield 0, .pick 1, .worker 1, .worker 1,
      .finish 1, .pick 1, .worker 1, .worker 1, .worker 1] = some _ from rfl) (by decide))⟩

/-- A worker's task submits `k` tasks. -/
theorem filled : ∀ k < CAPACITY, ∃ s : State 1 ℕ, Reach (system 1 ℕ) (fun s l => ¬Overfull s l) s ∧ s.pc 0 = .out ∧
    Holds (s.queue 0) (List.range k) ∧ ∀ y, s.waiting y = true ↔ y < k
  | 0, _ => ⟨.start, .init rfl, rfl, holds_new, fun y => ⟨nofun, fun h => absurd h (Nat.not_lt_zero y)⟩⟩
  | k + 1, hk => by
    obtain ⟨s, hs, hpc, hq, hw⟩ := filled k (Nat.lt_of_succ_lt hk)
    have hlen : (List.range k).length + 1 < CAPACITY := by simpa using hk
    have hfull : ¬s.Full 0 := by
      rw [State.Full, hq.window, List.length_map]
      exact hlen.ne
    have hnew : s.waiting k = false := by
      rw [Bool.eq_false_iff, ne_eq, hw]
      exact Nat.lt_irrefl k
    refine ⟨(s.setQueue 0 ((s.queue 0).push (some k))).setWaiting k true,
      hs.step (l := .submitLocal 0 k) hfull (if_pos ⟨hpc, hnew⟩), hpc, ?_, fun y => ?_⟩
    · rw [List.range_succ]
      show Holds (Function.update s.queue 0 ((s.queue 0).push (some k)) 0) _
      rw [Function.update_self]
      exact hq.push hlen
    · show Function.update s.waiting k true y = true ↔ y < k + 1
      by_cases hy : y = k
      · subst hy
        simp
      · rw [Function.update_of_ne hy, hw]
        omega

/-- **Lost when full**: a task submits `CAPACITY` tasks, and then none of them is stored anywhere. -/
theorem lost_when_full : ∃ s : State 1 ℕ, Reachable (system 1 ℕ) s ∧
    (∀ y < CAPACITY, s.waiting y = true ∧ ∀ p, y ∉ s.at p) ∧ ¬StoredOnce s := by
  obtain ⟨s, hs, hpc, hq, hw⟩ := filled (CAPACITY - 1) (by decide)
  have h : Inv s := inv_of_reach hs
  have hfull : s.Full 0 := by
    rw [State.Full, hq.window, List.length_map, List.length_range]
    rfl
  have hnew : s.waiting (CAPACITY - 1) = false := by
    rw [Bool.eq_false_iff, ne_eq, hw]
    exact Nat.lt_irrefl _
  let t := (s.setQueue 0 ((s.queue 0).push (some (CAPACITY - 1)))).setWaiting (CAPACITY - 1) true
  have hwaiting : ∀ y < CAPACITY, t.waiting y = true := by
    intro y hy
    show Function.update s.waiting (CAPACITY - 1) true y = true
    by_cases hlast : y = CAPACITY - 1
    · rw [hlast, Function.update_self]
    · rw [Function.update_of_ne hlast, hw]
      omega
  have hlost : ∀ y p, y ∉ t.at p := by
    intro y p
    refine h.lost hfull (fun p' hp' => ?_) p
    have hmem : y ∈ s.at (.window 0) := by
      show y ∈ (s.queue 0).window.reduceOption
      rw [window_of_holds hq]
      exact List.mem_range.mpr ((hw y).mp ((h.kept.stored y).mpr ⟨p', hp'⟩))
    exact (h.kept.once y).unique (List.count_pos_iff.mpr hp') (List.count_pos_iff.mpr hmem)
  refine ⟨t, hs.reachable.step (l := .submitLocal 0 (CAPACITY - 1)) trivial (if_pos ⟨hpc, hnew⟩),
    fun y hy => ⟨hwaiting y hy, hlost y⟩, fun hstored => ?_⟩
  obtain ⟨p, hp, -⟩ := hstored.1 0 (hwaiting 0 (by decide))
  have hmem : 0 ∈ t.at p := List.count_pos_iff.mp (by omega)
  exact hlost 0 p hmem

end Cothread.RunQueues
