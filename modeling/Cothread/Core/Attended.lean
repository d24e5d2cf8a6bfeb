import Cothread.Core.WaitForTask

/-!
# Some worker is coming

The threads that have yet to wake a worker and the workers that are coming are counted (`Inv.attended`): while a worker
dozes, they are no fewer than the queued tasks. A worker begins to doze only when `total_count_` is 0, and then every
queued task is one that has not been counted yet (`Inv.total`). From then on a worker that is coming leaves with a task,
and a `Submit` that wakes a dozing worker leaves that worker in its place.
-/

namespace Cothread.WaitForTask

open Run Count RunQueues

variable {n : ℕ} {S T : Type*} {s t : State n S T} {w : Fin n} {j : S}

/-- The thread has pushed a task that `total_count_` does not count yet. -/
def State.Uncounted (s : State n S T) (j : S) : Prop := s.submit j = some .count

/-- The worker has popped a task that `total_count_` still counts. -/
def State.Popped (s : State n S T) (w : Fin n) : Prop := s.worker w = .popped

structure Inv (s : State n S T) : Prop where
  shards : ∀ i, s.shards i ≠ [] → ∃ k : Fin n, (k : Int) = i
  range : s.totalCount < 2 ^ 31
  total : ∃ a b, Counts s.Uncounted a ∧ Counts s.Popped b ∧ s.tasks + b ≤ s.totalCount + a
  attended : ∃ m, Counts s.Attends m ∧ ((∃ w, s.Dozing w) → s.tasks ≤ m)

/-! ## Tasks -/

theorem tasks_update (s : State n S T) (i : Fin n) (q : List T) :
    { s with shards := Function.update s.shards i q }.tasks + (s.shards i).length = s.tasks + q.length := by
  have hrest : ∑ k ∈ Finset.univ.erase i, (Function.update s.shards (i : Int) q k).length =
      ∑ k ∈ Finset.univ.erase i, (s.shards k).length := by
    refine Finset.sum_congr rfl fun k hk => ?_
    rw [Function.update_of_ne]
    exact fun hki => Finset.ne_of_mem_erase hk (Fin.ext (Int.ofNat_inj.mp hki))
  simp only [State.tasks]
  rw [← Finset.sum_erase_add _ _ (Finset.mem_univ i), ← Finset.sum_erase_add _ _ (Finset.mem_univ i), hrest,
    Function.update_self]
  omega

/-- `SharedMPSCQueue::Push` adds one task. -/
theorem tasks_push (s : State n S T) (k : Fin n) (task : T) :
    { s with shards := Function.update s.shards k (s.shards k ++ [task]) }.tasks = s.tasks + 1 := by
  have := tasks_update s k (s.shards k ++ [task])
  rw [List.length_append, List.length_singleton] at this
  omega

theorem tasks_pos {i : Fin n} (h : s.shards i ≠ []) : 0 < s.tasks :=
  lt_of_lt_of_le (List.length_pos_iff.mpr h)
    (Finset.single_le_sum (f := fun k : Fin n => (s.shards k).length) (fun _ _ => Nat.zero_le _) (Finset.mem_univ i))

/-- The shards that `SharedMPSCQueue::Pop` tries exist. -/
theorem exists_of_popOrder {i : Int} (h : i ∈ popOrder w) : ∃ k : Fin n, (k : Int) = i := by
  rw [popOrder, List.mem_cons] at h
  obtain rfl | h := h
  · exact ⟨w, rfl⟩
  · obtain ⟨k, hk, rfl⟩ := List.mem_map.mp (List.mem_filter.mp h).1
    exact ⟨⟨k, List.mem_range.mp hk⟩, rfl⟩

/-! ## Workers -/

section Workers

variable {r : Idle.Registry (Fin n)} {p : Fin n → Bool} {pc : WorkerPc n}

theorem not_busy_of_expects {e : Int} (h : pc.expects = some e) : pc.busy = false := by
  cases pc <;> first | rfl | cases h

theorem worker_goto_self : (s.goto w pc).worker w = pc := Function.update_self ..

theorem worker_goto_of_ne {v : Fin n} (hv : v ≠ w) : (s.goto w pc).worker v = s.worker v := Function.update_of_ne hv _ _

theorem dozing_goto_of_ne {v : Fin n} (hv : v ≠ w) : (s.goto w pc).Dozing v ↔ s.Dozing v := by
  rw [State.Dozing, worker_goto_of_ne hv]
  rfl

/-- Nobody but the worker itself comes or leaves. -/
theorem attends_goto_of_ne {x : S ⊕ Fin n} (hx : x ≠ .inr w) : (s.goto w pc).Attends x ↔ s.Attends x := by
  cases x with
  | inl j => rfl
  | inr v =>
    have hv : v ≠ w := fun h => hx (congrArg _ h)
    rw [State.Attends, State.Attends, worker_goto_of_ne hv, dozing_goto_of_ne hv]

theorem popped_goto (hold : s.worker w ≠ .popped) (hnew : pc ≠ .popped) (v : Fin n) :
    (s.goto w pc).Popped v ↔ s.Popped v := by
  by_cases hvw : v = w
  · subst hvw
    rw [State.Popped, worker_goto_self]
    exact iff_of_false hnew hold
  · rw [State.Popped, worker_goto_of_ne hvw]
    rfl

/-- **A worker without a task**, or which has finished its task, goes on, and does not begin to doze. -/
theorem Inv.goto (h : Inv s) (hold : s.worker w ≠ .popped) (hnew : pc.busy = false)
    (hexp : pc.expects = some (s.wakeCount w) → s.Dozing w) :
    Inv ({ s with registry := r, wakePending := p }.goto w pc) := by
  have hdoze : ∀ v, (s.goto w pc).Dozing v → s.Dozing v := by
    intro v hv
    by_cases hvw : v = w
    · subst hvw
      rw [State.Dozing, worker_goto_self] at hv
      exact hexp hv
    · exact (dozing_goto_of_ne hvw).mp hv
  obtain ⟨a, b, ha, hb, hle⟩ := h.total
  obtain ⟨m, hm, hdoz⟩ := h.attended
  have hgrow : ∃ m', m ≤ m' ∧ Counts (s.goto w pc).Attends m' := hm.grow (j := .inr w)
    (fun hw => ⟨by rwa [worker_goto_self], fun hd => hw.2 (hdoze w hd)⟩) fun x hx => attends_goto_of_ne hx
  obtain ⟨m', hmm, hm'⟩ := hgrow
  refine ⟨h.shards, h.range, ⟨a, b, ha, hb.congr (popped_goto hold ?_), hle⟩,
    ⟨m', hm', fun ⟨v, hv⟩ => (hdoz ⟨v, hdoze v hv⟩).trans hmm⟩⟩
  rintro rfl
  cases hnew

/-- A worker with a task neither comes nor dozes. -/
theorem attends_busy (hnew : pc.busy = true) (x : S ⊕ Fin n) : (s.goto w pc).Attends x ↔ x ≠ .inr w ∧ s.Attends x := by
  by_cases hx : x = .inr w
  · subst hx
    refine iff_of_false (fun h => ?_) fun h => h.1 rfl
    have := h.1
    rw [worker_goto_self, hnew] at this
    cases this
  · rw [attends_goto_of_ne hx, and_iff_right hx]

theorem dozing_busy (hnew : pc.busy = true) {v : Fin n} (h : (s.goto w pc).Dozing v) : s.Dozing v := by
  by_cases hvw : v = w
  · subst hvw
    have := not_busy_of_expects h
    rw [worker_goto_self, hnew] at this
    cases this
  · exact (dozing_goto_of_ne hvw).mp h

/-- **A worker leaves with a task.** -/
theorem Inv.pop [DecidableEq S] (h : Inv s) {k : Fin n} {x : T} {q : List T} (hw : (s.worker w).busy = false)
    (hexp : (s.worker w).expects = none) (hq : s.shards k = x :: q) :
    Inv ({ s with shards := Function.update s.shards k q }.goto w .popped) := by
  have htasks : { s with shards := Function.update s.shards k q }.tasks + 1 = s.tasks := by
    have := tasks_update s k q
    rw [hq, List.length_cons] at this
    omega
  have hpopped : s.worker w ≠ .popped := by
    intro hp
    rw [hp] at hw
    cases hw
  have hcomes : s.Attends (.inr w) := ⟨hw, fun hd => nomatch hexp.symm.trans hd⟩
  obtain ⟨a, b, ha, hb, hle⟩ := h.total
  obtain ⟨m, hm, hdoz⟩ := h.attended
  refine ⟨fun i hi => ?_, h.range, ⟨a, b + 1, ha, hb.insert (j := w) hpopped fun v => ?_, ?_⟩,
    ⟨m - 1, hm.erase hcomes fun y => attends_busy rfl y, fun ⟨v, hv⟩ => ?_⟩⟩
  · by_cases hik : i = k
    · exact ⟨k, hik.symm⟩
    · exact h.shards i fun hnil => hi ((Function.update_of_ne hik _ _).trans hnil)
  · by_cases hvw : v = w
    · subst hvw
      exact iff_of_true worker_goto_self (Or.inl rfl)
    · rw [or_iff_right hvw, State.Popped, worker_goto_of_ne hvw]
      rfl
  · show (State.tasks { s with shards := Function.update s.shards k q } : Int) + (b + 1) ≤ s.totalCount + a
    omega
  · have := hdoz ⟨v, dozing_busy rfl hv⟩
    show (State.tasks { s with shards := Function.update s.shards k q } : Int) ≤ m - 1
    omega

/-- `total_count_.fetch_sub(1)`. -/
theorem Inv.popped (h : Inv s) (hw : s.worker w = .popped) :
    Inv ({ s with totalCount := wrap32 (s.totalCount - 1) }.goto w .running) := by
  have hrange := h.range
  have hsub := le_wrap32 (i := s.totalCount - 1) (by omega)
  obtain ⟨a, b, ha, hb, hle⟩ := h.total
  obtain ⟨m, hm, hdoz⟩ := h.attended
  refine ⟨h.shards, wrap32_lt _, ⟨a, b - 1, ha, hb.erase (j := w) hw fun v => ?_, ?_⟩,
    ⟨m, hm.congr fun y => ?_, fun ⟨v, hv⟩ => hdoz ⟨v, dozing_busy rfl hv⟩⟩⟩
  · by_cases hvw : v = w
    · subst hvw
      refine iff_of_false (fun hp => ?_) fun hp => hp.1 rfl
      rw [State.Popped, worker_goto_self] at hp
      cases hp
    · rw [and_iff_right hvw, State.Popped, worker_goto_of_ne hvw]
      rfl
  · show (s.tasks : Int) + (b - 1) ≤ wrap32 (s.totalCount - 1) + a
    omega
  · refine (attends_busy rfl y).trans ⟨fun hy => hy.2, fun hy => ⟨?_, hy⟩⟩
    rintro rfl
    have := hy.1
    rw [hw] at this
    cases this

/-- **A worker begins to doze** when `total_count_` is 0. -/
theorem Inv.doze [DecidableEq S] (h : Inv s) (hw : (s.worker w).busy = false) (hexp : (s.worker w).expects = none)
    (hzero : s.totalCount = 0) (e : Int) : Inv (s.goto w (.checkPending e)) := by
  have hpopped : s.worker w ≠ .popped := by
    intro hp
    rw [hp] at hw
    cases hw
  by_cases he : e = s.wakeCount w
  · subst he
    have hcomes : s.Attends (.inr w) := ⟨hw, fun hd => nomatch hexp.symm.trans hd⟩
    have hself : (s.goto w (.checkPending (s.wakeCount w))).Dozing w := by
      rw [State.Dozing, worker_goto_self]
      rfl
    obtain ⟨a, b, ha, hb, hle⟩ := h.total
    obtain ⟨m, hm, -⟩ := h.attended
    have hm' : Counts (s.goto w (.checkPending (s.wakeCount w))).Attends (m - 1) := hm.erase hcomes fun x => by
      by_cases hx : x = .inr w
      · subst hx
        exact iff_of_false (fun ht => ht.2 hself) fun ht => ht.1 rfl
      · rw [attends_goto_of_ne hx, and_iff_right hx]
    refine ⟨h.shards, h.range, ⟨a, b, ha, hb.congr (popped_goto hpopped nofun), hle⟩, ⟨m - 1, hm', fun _ => ?_⟩⟩
    have hdue : a ≤ m - 1 := ha.embed hm' .inl Sum.inl_injective fun j hj => ⟨.count, hj, rfl⟩
    have hb0 : 0 ≤ b := hb.nonneg
    show (s.tasks : Int) ≤ m - 1
    omega
  · exact h.goto hpopped rfl fun hd => absurd (Option.some.inj hd) he

end Workers

/-! ## Threads in `Submit` -/

section Submitters

variable [DecidableEq S] {r : Idle.Registry (Fin n)} {p : Fin n → Bool} {k : Int} {c : Option (SubmitPc n T)}

/-- Whether a thread at `c` has yet to wake a worker. -/
def Due (c : Option (SubmitPc n T)) : Prop := ∃ pc, c = some pc ∧ pc.due = true

theorem submit_proceed_self : (s.proceed j c).submit j = c := Function.update_self ..

theorem submit_proceed_of_ne {i : S} (hi : i ≠ j) : (s.proceed j c).submit i = s.submit i :=
  Function.update_of_ne hi _ _

/-- Nobody but the thread itself comes or leaves. -/
theorem attends_proceed_of_ne {x : S ⊕ Fin n} (hx : x ≠ .inl j) : (s.proceed j c).Attends x ↔ s.Attends x := by
  cases x with
  | inl i => rw [State.Attends, State.Attends, submit_proceed_of_ne fun h => hx (congrArg _ h)]
  | inr w => rfl

theorem attends_proceed_self : (s.proceed j c).Attends (.inl j) ↔ Due c := by
  rw [State.Attends, submit_proceed_self]
  rfl

theorem uncounted_proceed_of_ne {i : S} (hi : i ≠ j) : (s.proceed j c).Uncounted i ↔ s.Uncounted i := by
  rw [State.Uncounted, submit_proceed_of_ne hi]
  rfl

theorem uncounted_proceed (hold : s.submit j ≠ some .count) (hnew : c ≠ some .count) (i : S) :
    (s.proceed j c).Uncounted i ↔ s.Uncounted i := by
  by_cases hi : i = j
  · subst hi
    rw [State.Uncounted, submit_proceed_self]
    exact iff_of_false hnew hold
  · exact uncounted_proceed_of_ne hi

/-- **A thread goes on** that neither counts nor wakes. -/
theorem Inv.proceed (h : Inv s) (hold : s.submit j ≠ some .count) (hnew : c ≠ some .count)
    (hdue : Due (s.submit j) → Due c) :
    Inv ({ s with registry := r, wakePending := p, roundRobin := k }.proceed j c) := by
  obtain ⟨a, b, ha, hb, hle⟩ := h.total
  obtain ⟨m, hm, hdoz⟩ := h.attended
  have hgrow : ∃ m', m ≤ m' ∧ Counts (s.proceed j c).Attends m' :=
    hm.grow (j := .inl j) (fun hj => attends_proceed_self.mpr (hdue hj)) fun x hx => attends_proceed_of_ne hx
  obtain ⟨m', hmm, hm'⟩ := hgrow
  exact ⟨h.shards, h.range, ⟨a, b, ha.congr (uncounted_proceed hold hnew), hb, hle⟩, m', hm',
    fun hd => (hdoz hd).trans hmm⟩

/-- `shards_[shard].Push(task)`, of a shard that exists. -/
theorem Inv.push (h : Inv s) {x : T} {k : Fin n} (hj : s.submit j = some (.push x k)) :
    Inv ({ s with shards := Function.update s.shards k (s.shards k ++ [x]) }.proceed j (some .count)) := by
  have htasks := tasks_push s k x
  obtain ⟨a, b, ha, hb, hle⟩ := h.total
  obtain ⟨m, hm, hdoz⟩ := h.attended
  refine ⟨fun i hi => ?_, h.range, ⟨a + 1, b, ha.insert (j := j) ?_ fun i => ?_, hb, ?_⟩,
    ⟨m + 1, hm.insert (j := .inl j) ?_ fun y => ?_, fun hd => ?_⟩⟩
  · by_cases hik : i = k
    · exact ⟨k, hik.symm⟩
    · exact h.shards i fun hnil => hi ((Function.update_of_ne hik _ _).trans hnil)
  · rw [State.Uncounted, hj]
    nofun
  · by_cases hi : i = j
    · subst hi
      exact iff_of_true submit_proceed_self (Or.inl rfl)
    · rw [or_iff_right hi, uncounted_proceed_of_ne hi]
      rfl
  · show (State.tasks { s with shards := Function.update s.shards k (s.shards k ++ [x]) } : Int) + b ≤
      s.totalCount + (a + 1)
    omega
  · rintro ⟨pc, hpc, hdue⟩
    cases hj.symm.trans hpc
    cases hdue
  · by_cases hy : y = .inl j
    · subst hy
      exact iff_of_true (attends_proceed_self.mpr ⟨.count, rfl, rfl⟩) (Or.inl rfl)
    · rw [or_iff_right hy, attends_proceed_of_ne hy]
      cases y <;> rfl
  · have := hdoz hd
    show (State.tasks { s with shards := Function.update s.shards k (s.shards k ++ [x]) } : Int) ≤ m + 1
    omega

/-- `total_count_.fetch_add(1)`. -/
theorem Inv.count (h : Inv s) (hj : s.submit j = some .count) (hlap : wrap32 (s.totalCount + 1) = s.totalCount + 1) :
    Inv ({ s with totalCount := wrap32 (s.totalCount + 1) }.proceed j (some .popHead)) := by
  obtain ⟨a, b, ha, hb, hle⟩ := h.total
  obtain ⟨m, hm, hdoz⟩ := h.attended
  refine ⟨h.shards, wrap32_lt _, ⟨a - 1, b, ha.erase (j := j) hj fun i => ?_, hb, ?_⟩,
    ⟨m, hm.congr fun y => ?_, fun hd => hdoz hd⟩⟩
  · by_cases hi : i = j
    · subst hi
      refine iff_of_false (fun hc => ?_) fun hc => hc.1 rfl
      rw [State.Uncounted, submit_proceed_self] at hc
      cases hc
    · rw [and_iff_right hi, uncounted_proceed_of_ne hi]
      rfl
  · show (s.tasks : Int) + b ≤ wrap32 (s.totalCount + 1) + (a - 1)
    omega
  · by_cases hy : y = .inl j
    · subst hy
      exact iff_of_true (attends_proceed_self.mpr ⟨.popHead, rfl, rfl⟩) ⟨.count, hj, rfl⟩
    · rw [attends_proceed_of_ne hy]
      cases y <;> rfl

/-- Without the thread, those that have yet to wake a worker and those that are coming suffice. -/
theorem Inv.enough (h : Inv s) (hok : ¬Missed s (.submitter j)) (hj : s.Attends (.inl j)) (haim : s.Unaimed j) :
    ∃ m, Counts (fun x => x ≠ .inl j ∧ s.Attends x) m ∧ ((∃ w, s.Dozing w) → s.tasks ≤ m) := by
  obtain ⟨m, hm, -⟩ := h.attended
  have hm' : Counts (fun x => x ≠ .inl j ∧ s.Attends x) (m - 1) := hm.erase hj fun x => Iff.rfl
  exact ⟨m - 1, hm', fun hd => not_lt.mp fun hlt => hok (Or.inl ⟨haim, hd, m - 1, hm', hlt⟩)⟩

/-- `PopIdleWorker` returns -1. -/
theorem Inv.nobody (h : Inv s) (hok : ¬Missed s (.submitter j)) (hj : s.Attends (.inl j)) (haim : s.Unaimed j)
    (hcount : s.submit j ≠ some .count) : Inv (s.proceed j none) := by
  obtain ⟨m, hm, hdoz⟩ := h.enough hok hj haim
  obtain ⟨a, b, ha, hb, hle⟩ := h.total
  refine ⟨h.shards, h.range, ⟨a, b, ha.congr (uncounted_proceed hcount nofun), hb, hle⟩, m, hm.congr fun x => ?_, hdoz⟩
  by_cases hx : x = .inl j
  · subst hx
    refine iff_of_false (fun ht => ?_) fun ht => ht.1 rfl
    obtain ⟨pc, hpc, -⟩ := attends_proceed_self.mp ht
    cases hpc
  · rw [attends_proceed_of_ne hx, and_iff_right hx]

/-- **`wake_count_.fetch_add(1)`**: a dozing worker comes in the thread's place. -/
theorem Inv.wake (h : Inv s) (hok : ¬Missed s (.submitter j)) (hj : s.submit j = some (.wake w)) :
    Inv ({ s with wakeCount := Function.update s.wakeCount w (wrap32 (s.wakeCount w + 1)) }.proceed j
      (some (.futexWake w))) := by
  set t := { s with wakeCount := Function.update s.wakeCount w (wrap32 (s.wakeCount w + 1)) }.proceed j
    (some (.futexWake w)) with ht
  have hself : ¬t.Dozing w := fun hd =>
    hok (Or.inr (Or.inr (Or.inr ⟨w, hj, hd.trans (congrArg _ (Function.update_self ..))⟩)))
  have hother : ∀ v, v ≠ w → (t.Dozing v ↔ s.Dozing v) := fun v hv =>
    iff_of_eq (congrArg (fun e => (s.worker v).expects = some e) (Function.update_of_ne hv _ _))
  have hdoze : ∀ v, t.Dozing v → s.Dozing v := fun v hv => (hother v (fun hvw => hself (hvw ▸ hv))).mp hv
  have hdue : s.Attends (.inl j) := ⟨.wake w, hj, rfl⟩
  have hdone : ¬t.Attends (.inl j) := fun hd => by
    obtain ⟨pc, hpc, hdue⟩ := attends_proceed_self.mp hd
    cases hpc
    cases hdue
  have hrest : ∀ x, x ≠ .inl j → x ≠ .inr w → (t.Attends x ↔ s.Attends x) := by
    intro x hxj hxw
    rw [ht, attends_proceed_of_ne hxj]
    cases x with
    | inl i => rfl
    | inr v => exact and_congr_right fun _ => not_congr (hother v fun hv => hxw (congrArg _ hv))
  obtain ⟨a, b, ha, hb, hle⟩ := h.total
  have htotal : ∃ a b, Counts t.Uncounted a ∧ Counts t.Popped b ∧ t.tasks + b ≤ t.totalCount + a :=
    ⟨a, b, ha.congr (uncounted_proceed (by rw [hj]; nofun) nofun), hb, hle⟩
  by_cases hd : s.Dozing w
  · obtain ⟨m, hm, hdoz⟩ := h.attended
    have hbusy := not_busy_of_expects hd
    have hleft : Counts (fun x => x ≠ .inl j ∧ s.Attends x) (m - 1) := hm.erase hdue fun x => Iff.rfl
    have hm' : Counts t.Attends (m - 1 + 1) := hleft.insert (j := .inr w) (fun hw => hw.2.2 hd) fun x => ?_
    · exact ⟨h.shards, h.range, htotal, m, by rwa [sub_add_cancel] at hm', fun ⟨v, hv⟩ => hdoz ⟨v, hdoze v hv⟩⟩
    · by_cases hxw : x = .inr w
      · subst hxw
        exact iff_of_true ⟨hbusy, hself⟩ (Or.inl rfl)
      · rw [or_iff_right hxw]
        by_cases hxj : x = .inl j
        · subst hxj
          exact iff_of_false hdone fun h => h.1 rfl
        · rw [hrest x hxj hxw, and_iff_right hxj]
  · obtain ⟨m, hm, hdoz⟩ := h.enough hok hdue (Or.inr (Or.inr ⟨w, hj, hd⟩))
    refine ⟨h.shards, h.range, htotal, m, hm.congr fun x => ?_, fun ⟨v, hv⟩ => hdoz ⟨v, hdoze v hv⟩⟩
    by_cases hxj : x = .inl j
    · subst hxj
      exact iff_of_false hdone fun h => h.1 rfl
    · rw [and_iff_right hxj]
      by_cases hxw : x = .inr w
      · subst hxw
        exact and_congr_right fun _ => iff_of_true hself hd
      · exact hrest x hxj hxw

/-! ## Steps -/

theorem Inv.worker (h : Inv s) (hst : s.access w (s.worker w) = some t) : Inv t := by
  cases hw : s.worker w with
  | running | asleep e =>
    rw [hw] at hst
    cases hst
  | popGlobal i =>
    simp only [hw, State.access, Option.some.injEq] at hst
    subst hst
    cases hi : (popOrder w)[i]? with
    | none => exact h.goto (by rw [hw]; nofun) rfl nofun
    | some i =>
      obtain ⟨k, rfl⟩ := exists_of_popOrder (List.mem_of_getElem? hi)
      cases hq : s.shards k with
      | nil =>
        simp only [hq]
        exact h.goto (by rw [hw]; nofun) rfl nofun
      | cons x q =>
        simp only [hq]
        exact h.pop (by rw [hw]; rfl) (by rw [hw]; rfl) hq
  | popped =>
    simp only [hw, State.access, Option.some.injEq] at hst
    exact hst ▸ h.popped hw
  | check spins =>
    simp only [hw, State.access, spun, Option.some.injEq] at hst
    subst hst
    split_ifs <;> exact h.goto (by rw [hw]; nofun) rfl nofun
  | spinCheck spins =>
    simp only [hw, State.access, Option.some.injEq] at hst
    subst hst
    split_ifs <;> exact h.goto (by rw [hw]; nofun) rfl nofun
  | registerHead | registerNext head | loadCount =>
    simp only [hw, State.access, Option.some.injEq] at hst
    exact hst ▸ h.goto (by rw [hw]; nofun) rfl nofun
  | registerSwap head =>
    simp only [hw, State.access, Option.some.injEq] at hst
    subst hst
    split_ifs <;> exact h.goto (by rw [hw]; nofun) rfl nofun
  | recheck e =>
    simp only [hw, State.access, Option.some.injEq] at hst
    subst hst
    split_ifs with hzero
    · exact h.doze (by rw [hw]; rfl) (by rw [hw]; rfl) hzero e
    · exact h.goto (by rw [hw]; nofun) rfl nofun
  | checkPending e =>
    simp only [hw, State.access, Option.some.injEq] at hst
    subst hst
    split_ifs
    · exact h.goto (by rw [hw]; nofun) rfl nofun
    · exact h.goto (by rw [hw]; nofun) rfl fun he => (congrArg WorkerPc.expects hw).trans he
  | wait e =>
    simp only [hw, State.access, Option.some.injEq] at hst
    subst hst
    split_ifs
    · exact h.goto (by rw [hw]; nofun) rfl fun he => (congrArg WorkerPc.expects hw).trans he
    · exact h.goto (by rw [hw]; nofun) rfl nofun

omit [DecidableEq S] in
theorem Inv.futexWake (h : Inv s) (w : Fin n) : Inv (s.futexWake w) := by
  unfold State.futexWake
  split
  next e hw => exact h.goto (by rw [hw]; nofun) rfl nofun
  · exact h

theorem Inv.submitter (h : Inv s) (hok : ¬Missed s (.submitter j)) {pc : SubmitPc n T} (hj : s.submit j = some pc) :
    Inv (s.submitStep j pc) := by
  -- a thread that has yet to wake a worker goes on to a step at which it still has to
  have hnext : ∀ {c : Option (SubmitPc n T)}, Due c → Due (s.submit j) → Due c := fun hc _ => hc
  cases pc with
  | roundRobin x =>
    refine h.proceed (by rw [hj]; nofun) nofun fun ⟨pc, hpc, hdue⟩ => ?_
    cases hj.symm.trans hpc
    cases hdue
  | push x i =>
    have hi : 0 ≤ i ∧ i < n := not_not.mp fun hi => hok (Or.inr (Or.inl ⟨x, i, hj, hi⟩))
    obtain ⟨k, rfl⟩ : ∃ k : Fin n, (k : Int) = i := ⟨⟨i.toNat, by omega⟩, Int.toNat_of_nonneg hi.1⟩
    exact h.push hj
  | count => exact h.count hj (not_not.mp fun hlap => hok (Or.inr (Or.inr (Or.inl ⟨hj, hlap⟩))))
  | popHead =>
    cases hh : s.registry.head with
    | none =>
      rw [State.submitStep, hh]
      exact h.nobody hok ⟨_, hj, rfl⟩ (Or.inl ⟨hj, hh⟩) (by rw [hj]; nofun)
    | some v =>
      rw [State.submitStep, hh]
      exact h.proceed (by rw [hj]; nofun) nofun (hnext ⟨_, rfl, rfl⟩)
  | popNext v => exact h.proceed (by rw [hj]; nofun) nofun (hnext ⟨_, rfl, rfl⟩)
  | popSwap v next =>
    rw [State.submitStep]
    split_ifs with hh
    · exact h.proceed (by rw [hj]; nofun) nofun (hnext ⟨_, rfl, rfl⟩)
    · cases hh' : s.registry.head with
      | none => exact h.nobody hok ⟨_, hj, rfl⟩ (Or.inr (Or.inl ⟨v, next, hj, hh'⟩)) (by rw [hj]; nofun)
      | some v => exact h.proceed (by rw [hj]; nofun) nofun (hnext ⟨_, rfl, rfl⟩)
  | setPending v => exact h.proceed (by rw [hj]; nofun) nofun (hnext ⟨_, rfl, rfl⟩)
  | wake v => exact h.wake hok hj
  | futexWake v =>
    have hsub : (s.futexWake v).submit = s.submit := by
      unfold State.futexWake
      split <;> rfl
    refine (h.futexWake v).proceed (by rw [hsub, hj]; nofun) nofun fun ⟨pc, hpc, hdue⟩ => ?_
    rw [hsub] at hpc
    cases hj.symm.trans hpc
    cases hdue
  | clearPending v =>
    refine h.proceed (by rw [hj]; nofun) nofun fun ⟨pc, hpc, hdue⟩ => ?_
    cases hj.symm.trans hpc
    cases hdue

/-- **What one step preserves.** -/
theorem inv_step {l : Label n S T} (h : Inv s) (hok : ¬Missed s l) (hst : step s l = some t) : Inv t := by
  cases l with
  | submit j x =>
    simp only [step, Option.ite_none_right_eq_some, Option.isNone_iff_eq_none, Option.some.injEq] at hst
    obtain ⟨hj, rfl⟩ := hst
    refine h.proceed (by rw [hj]; nofun) nofun fun ⟨_, hpc, _⟩ => ?_
    cases hj.symm.trans hpc
  | submitter j =>
    obtain ⟨pc, hj, rfl⟩ := Option.map_eq_some_iff.mp hst
    exact h.submitter hok hj
  | worker w => exact h.worker hst
  | finish w =>
    simp only [step, Option.ite_none_right_eq_some, Option.some.injEq] at hst
    obtain ⟨hw, rfl⟩ := hst
    exact h.goto (by rw [hw]; nofun) rfl nofun
  | timeout w =>
    rw [step] at hst
    split at hst
    next e hw =>
      cases hst
      exact h.goto (by rw [hw]; nofun) rfl nofun
    · cases hst

end Submitters

theorem inv_start : Inv (.start : State n S T) := by
  have hworkers : Counts (State.start : State n S T).Attends n := by
    refine ⟨(List.finRange n).map .inr, (List.nodup_finRange n).map Sum.inr_injective, fun x => ?_, by simp⟩
    cases x with
    | inl j => exact iff_of_false (by simp) fun ⟨pc, hpc, _⟩ => nomatch hpc
    | inr w => exact iff_of_true (by simp) ⟨rfl, nofun⟩
  refine ⟨fun _ hi => absurd rfl hi, by show (0 : Int) < 2 ^ 31; decide, ⟨0, 0, .zero nofun, .zero nofun, ?_⟩,
    ⟨n, hworkers, fun ⟨w, hw⟩ => nomatch hw⟩⟩
  have htasks : (State.start : State n S T).tasks = 0 := Finset.sum_eq_zero fun i _ => rfl
  rw [htasks]
  rfl

/-- Without a `Submit` in progress only workers are counted. -/
theorem Inv.comes (h : Inv s) : Attended s := by
  intro hsub ⟨i, hi⟩ ⟨w, hw⟩
  by_cases hd : s.Dozing w
  · obtain ⟨m, ⟨l, -, hl, hm⟩, hdoz⟩ := h.attended
    obtain ⟨k, rfl⟩ := h.shards i hi
    have hpos := tasks_pos hi
    have hle := hdoz ⟨w, hd⟩
    obtain ⟨x, hx⟩ := List.exists_mem_of_length_pos (l := l) (by omega)
    cases x with
    | inl j =>
      obtain ⟨pc, hpc, -⟩ := (hl _).mp hx
      cases (hsub j).symm.trans hpc
    | inr v =>
      obtain ⟨hv, hnd⟩ := (hl _).mp hx
      exact ⟨v, hv, fun he => hnd (congrArg WorkerPc.expects he)⟩
  · exact ⟨w, hw, fun he => hd (congrArg WorkerPc.expects he)⟩

/-- **A submitted task has a worker coming for it** in every state of a run in which no `Submit` misses. -/
theorem stays_attended [DecidableEq S] {s : State n S T} (hs : Reach (system n S T) (fun s l => ¬Missed s l) s) :
    Attended s := by
  have hinv : Inv s := hs.invariant (fun _ h0 => h0 ▸ inv_start) fun _ _ _ h hok hst => inv_step h hok hst
  exact hinv.comes

/-- The submitter finds a worker and wakes it while it dozes. -/
def wakesDozing (s : State 1 Unit Unit) : Label 1 Unit Unit → Bool
  | .submitter j => match s.submit j with
    | some (.push _ i) => decide (0 ≤ i ∧ i < 1)
    | some .count => wrap32 (s.totalCount + 1) == s.totalCount + 1
    | some .popHead | some (.popSwap _ _) => s.registry.head.isSome
    | some (.wake w) => decide (s.Dozing w) && (s.worker w).expects != some (wrap32 (s.wakeCount w + 1))
    | _ => true
  | _ => true

/-- The only worker sleeps, and a `Submit` wakes it. -/
theorem stays_attended_woken : ∃ s : State 1 Unit Unit, (∀ j, s.submit j = none) ∧ s.shards (0 : Fin 1) ≠ [] ∧
    s.worker 0 = .check 0 ∧ Attended s := by
  have himp : ∀ s l, wakesDozing s l = true → ¬Missed s l := by
    intro s l h hm
    cases l with
    | submitter j =>
      simp only [wakesDozing] at h
      obtain ⟨(⟨hj, hh⟩ | ⟨w, next, hj, hh⟩ | ⟨w, hj, hd⟩), -⟩ | ⟨x, i, hj, hi⟩ | ⟨hj, hlap⟩ | ⟨w, hj, hlap⟩ := hm
      · simp [hj, hh] at h
      · simp [hj, hh] at h
      · simp [hj, hd] at h
      · rw [hj] at h
        exact hi (of_decide_eq_true h)
      · simp [hj, hlap] at h
      · simp [hj, hlap] at h
    | _ => exact hm
  have hatt := stays_attended (reach_exec (M := system 1 Unit Unit) himp (.init rfl)
    (show exec (system 1 Unit Unit) .start (List.replicate 70 (.worker 0) ++ .submit () () ::
      List.replicate 10 (.submitter ())) = some _ from rfl) (by decide +kernel))
  exact ⟨_, fun _ => rfl, by decide +kernel, rfl, hatt⟩

/-- Worker 0 registers, the first `Submit` pops it and worker 1 takes the task; worker 0 loads `wake_count_` after the
wake-up and goes to sleep, and a second `Submit` follows. -/
def asleepRun : List (Label 2 Unit Unit) :=
  List.flatten [List.replicate 67 (.worker 0), [.submit () ()], List.replicate 3 (.submitter ()),
    List.replicate 3 (.worker 1), List.replicate 7 (.submitter ()), List.replicate 4 (.worker 0), [.submit () ()],
    List.replicate 4 (.submitter ())]

/-- **A task whose `Submit` has woken nobody**: worker 0 has registered and not loaded `wake_count_` yet when the first
`Submit` pops and wakes it; worker 1 has taken the task. Worker 0 sleeps, and the second `Submit` finds nobody on the
registry. -/
theorem left_asleep : ∃ s : State 2 Unit Unit, Reachable (system 2 Unit Unit) s ∧ ¬Attended s := by
  have hrun : (exec (system 2 Unit Unit) .start asleepRun).any fun s => (∀ j, s.submit j = none) ∧ s.shards 1 ≠ [] ∧
      s.worker 0 = .asleep (s.wakeCount 0) ∧ s.worker 1 = .running := by
    decide +kernel
  obtain ⟨s, hs, hsub, htask, hzero, hone⟩ := of_exec_any hrun
  refine ⟨s, reachable_exec (.init rfl) hs, fun h => ?_⟩
  obtain ⟨w, hw, hne⟩ := h hsub ⟨1, htask⟩ ⟨0, by rw [hzero]; rfl⟩
  match w with
  | 0 => exact hne hzero
  | 1 =>
    rw [hone] at hw
    cases hw

end Cothread.WaitForTask
