import Cothread.Core.WorkerCode

/-!
# `Worker`: a task is executed by one worker at a time

A task is published before its context is saved, so a waker can push it, and another worker can pick it, while it is
still executed (`executed_twice`). Four kinds of steps lead there (`Exposed`): a push of a task that a worker still
executes, or for a wait that the task has left; `Wake` and the timeout callback both finding one wait `SUSPENDED`; and
`current_task_ = task` while the worker that has switched away from the task has not cleared its own. In every run
without such steps each task is the current task of one worker, and no run queue holds a task that a worker executes
(`executed_once`).
-/

namespace Cothread.Worker

open Run Places
open Butex (Call WaitPc WakePc TimerPc Loop)

variable {W E T B C : Type*} [DecidableEq W] [DecidableEq E] [DecidableEq T] [DecidableEq B] [DecidableEq C]

/-! ## The loop of the workers -/

section Loop

variable {s s' : State W E T B C} {m : Mem W T B C} {w : W} {t u : T}

/-- The queues, the timers and the tasks are the same. -/
structure Mem.SameQueues (m m' : Mem W T B C) : Prop where
  ready : m'.ready = m.ready
  waiters : m'.waiters = m.waiters
  queue : m'.queue = m.queue
  timer : m'.timer = m.timer
  epoch : m'.epoch = m.epoch
  born : m'.born = m.born

/-- A worker goes on to `pc`: it keeps what it has picked, drops it, or begins to run it. -/
structure Turned (s : State W E T B C) (m : Mem W T B C) (w : W) (pc : WorkerPc T B C) : Prop where
  queues : s.mem.SameQueues m
  waker : pc.waker = (s.worker w).waker
  state : ∀ u, m.taskState u = .suspended → s.mem.taskState u = .suspended
  picked : ∀ u, pc.picked = some u → (s.worker w).picked = some u
  current : ∀ u v, pc.current = some u → (s.worker v).current = some u → v = w
  code : ∀ u c', pc = .exec u c' → c'.stage = 3 ∧
    ((s.worker w).picked = some u ∨ ∃ c, s.worker w = .exec u c ∧ ¬c.Asleep)

section Turned

variable {pc : WorkerPc T B C}

omit [DecidableEq B] [DecidableEq C] in
theorem Turned.claims_le (h : Turned s m w pc) (u : T) (l : Loc W E C) : (s.goto m w pc).claims u l ≤ s.claims u l := by
  cases l with
  | picked v =>
    simp only [State.claims, Mem.claims, goto_picked]
    by_cases hv : v = w
    · subst hv
      rw [Function.update_self]
      split_ifs with h1 h2 <;> first | omega | exact absurd (h.picked u h1) h2
    · rw [Function.update_of_ne hv]
  | _ =>
    simp only [State.claims, Mem.claims, goto_mem, goto_waker_eq h.waker, h.queues.ready, h.queues.waiters,
      h.queues.timer, h.queues.epoch, le_refl]

omit [DecidableEq B] [DecidableEq C] in
theorem Turned.entries_eq (h : Turned s m w pc) (u : T) (j : Slot W E B) :
    (s.goto m w pc).entries u j = s.entries u j := by
  simp only [State.entries, goto_mem, goto_waker_eq h.waker]
  cases j <;> simp only [Mem.entries, h.queues.queue, h.queues.epoch]

omit [DecidableEq W] [DecidableEq E] [DecidableEq B] [DecidableEq C] in
/-- What a worker has picked is claimed by it. -/
theorem claims_picked (hp : (s.worker w).picked = some u) : 0 < s.claims u (.picked w) := by
  have : s.picked w = some u := hp
  simp [State.claims, Mem.claims, this]

omit [DecidableEq E] [DecidableEq T] [DecidableEq B] [DecidableEq C] in
/-- A task that runs has run before, or has been picked by the worker. -/
theorem Turned.runs_of (h : Turned s m w pc) (hr : (s.goto m w pc).Runs u) :
    s.Runs u ∨ ∃ c', pc = .exec u c' ∧ (s.worker w).picked = some u := by
  obtain ⟨v, c', hv⟩ := hr
  rw [goto_worker] at hv
  split_ifs at hv with hvw
  · rcases (h.code u c' hv).2 with h1 | ⟨c, hc, _⟩
    · exact Or.inr ⟨c', hv, h1⟩
    · exact Or.inl ⟨w, c, hc⟩
  · exact Or.inl ⟨v, c', hv⟩

omit [DecidableEq E] [DecidableEq T] [DecidableEq B] [DecidableEq C] in
/-- Code that is not past its wait is where it was. -/
theorem Turned.exec_of (h : Turned s m w pc) {v : W} {c' : TaskPc T B C} (hv : (s.goto m w pc).worker v = .exec u c')
    (hne : c'.stage ≠ 3) : s.worker v = .exec u c' := by
  rw [goto_worker] at hv
  split_ifs at hv with hvw
  · exact absurd (h.code u c' hv).1 hne
  · exact hv

omit [DecidableEq B] [DecidableEq C] in
theorem Turned.claimed (h : Turned s m w pc) (hc : Claimed s) : Claimed (s.goto m w pc) := by
  refine ⟨fun u => (hc.once u).mono (h.claims_le u), fun v1 v2 u h1 h2 => ?_, fun u l hl hpos hr => ?_,
    fun v u c' hv hq l => ?_, fun u hb => ?_⟩
  · rw [goto_worker] at h1 h2
    split_ifs at h1 h2 with hv1 hv2 hv2
    · rw [hv1, hv2]
    · rw [hv1]
      exact (h.current u v2 h1 h2).symm
    · rw [hv2]
      exact h.current u v1 h2 h1
    · exact hc.current v1 v2 u h1 h2
  · rcases h.runs_of hr with h1 | ⟨c', rfl, hp⟩
    · exact hc.token u l hl (hpos.trans_le (h.claims_le u l)) h1
    · -- the task that the worker begins to run has been picked by it, and nobody else has a claim on it
      have hl' := (hc.once u).unique (hpos.trans_le (h.claims_le u l)) (claims_picked hp)
      subst hl'
      simp [State.claims, Mem.claims, goto_picked, WorkerPc.picked] at hpos
  · have := hc.quiet v u c' (h.exec_of hv (by omega)) hq l
    have := h.claims_le u l
    omega
  · rw [goto_mem, h.queues.born] at hb
    obtain ⟨h1, h2⟩ := hc.born u hb
    refine ⟨fun l => Nat.eq_zero_of_le_zero ((h.claims_le u l).trans (h1 l).le), fun hr => ?_⟩
    rcases h.runs_of hr with h3 | ⟨c', _, hp⟩
    · exact h2 h3
    · have := claims_picked hp
      rw [h1] at this
      omega

omit [DecidableEq B] [DecidableEq C] in
theorem Turned.entered (h : Turned s m w pc) (he : Entered s) : Entered (s.goto m w pc) := by
  refine ⟨fun u => (he.once u).mono fun j => (h.entries_eq u j).le, fun v u c' hv hc j => ?_, fun v u c' hv hc => ?_,
    fun u l hl hpos => ?_⟩
  · rw [h.entries_eq]
    exact he.fresh v u c' (h.exec_of hv (by omega)) hc j
  · rw [goto_mem, h.queues.timer, h.queues.epoch]
    exact he.unarmed v u c' (h.exec_of hv (by omega)) hc
  · rw [goto_mem, h.queues.timer, h.queues.epoch]
    obtain ⟨h1, h2⟩ := he.kinds u l hl (hpos.trans_le (h.claims_le u l))
    exact ⟨fun j => (h.entries_eq u j).trans (h1 j), h2⟩

omit [DecidableEq B] [DecidableEq C] in
theorem Turned.keeps_awake (h : Turned s m w pc) (ha : Awake s) : Awake (s.goto m w pc) := by
  refine ha.frame fun u hs hawk => ⟨h.state u hs, ?_⟩
  rcases hawk with ⟨l, htok, hpos⟩ | ⟨b, hb⟩ | htm | ⟨v, c', hv, hc⟩ | hb
  · exact Or.inl ⟨l, htok, hpos.trans_le (h.claims_le u l)⟩
  · rw [goto_waker_eq h.waker, goto_mem, h.queues.epoch] at hb
    exact Or.inr (Or.inl ⟨b, hb⟩)
  · rw [goto_mem, h.queues.timer, h.queues.epoch] at htm
    exact Or.inr (Or.inr (Or.inl htm))
  · rw [goto_worker] at hv
    split_ifs at hv with hvw
    · rcases (h.code u c' hv).2 with h1 | ⟨c, h1, h2⟩
      · exact Or.inl ⟨.picked w, trivial, claims_picked h1⟩
      · exact Or.inr (Or.inr (Or.inr (Or.inl ⟨w, c, h1, h2⟩)))
    · exact Or.inr (Or.inr (Or.inr (Or.inl ⟨v, c', hv, hc⟩)))
  · rw [goto_mem, h.queues.born] at hb
    exact Or.inr (Or.inr (Or.inr (Or.inr hb)))

omit [DecidableEq B] [DecidableEq C] in
theorem Inv.goto (h : Inv s) (ht : Turned s m w pc) :
    Claimed (s.goto m w pc) ∧ Entered (s.goto m w pc) ∧ Awake (s.goto m w pc) :=
  ⟨ht.claimed h.claimed, ht.entered h.entered, ht.keeps_awake h.awake⟩

end Turned

/-! ### A task is picked -/

omit [DecidableEq B] [DecidableEq C] in
/-- After a pick, the picked task is with the worker, and only the run queues have changed otherwise. -/
theorem pick_claims {ready : Place W → List T} (hw : s.worker w = .pick)
    (hs' : s' = s.goto { s.mem with ready := ready } w (.setCurrent t)) (u : T) :
    (s'.claims u (.picked w) = [t].count u ∧ s.claims u (.picked w) = 0) ∧
      ∀ l, (∀ p, l ≠ .place p) → l ≠ .picked w → s'.claims u l = s.claims u l := by
  have hk : (WorkerPc.setCurrent t : WorkerPc T B C).waker = (s.worker w).waker := by rw [hw]; rfl
  subst hs'
  refine ⟨⟨?_, ?_⟩, fun l h1 h2 => ?_⟩
  · simp only [State.claims, Mem.claims, goto_picked, Function.update_self, WorkerPc.picked]
    simp [List.count_singleton]
  · simp [State.claims, Mem.claims, State.picked, hw, WorkerPc.picked]
  · cases l with
    | place p => exact absurd rfl (h1 p)
    | picked v =>
      have hv : v ≠ w := by rintro rfl; exact h2 rfl
      simp [State.claims, Mem.claims, goto_picked, hv]
    | parked d | timer => rfl
    | new a | popped a | found a => simp only [State.claims, Mem.claims, goto_mem, goto_waker_eq hk]

omit [DecidableEq B] [DecidableEq C] in
theorem Inv.pick_once (h : Inv s) {ready : Place W → List T} {K : Finset (Place W)} (hw : s.worker w = .pick)
    (hK : ∀ p ∉ K, ready p = s.mem.ready p)
    (hcount : ∀ x, ∑ p ∈ K, (ready p).count x + [t].count x ≤ ∑ p ∈ K, (s.mem.ready p).count x)
    (hs' : s' = s.goto { s.mem with ready := ready } w (.setCurrent t)) (u : T) : Once (s'.claims u) := by
  classical
  obtain ⟨⟨hnew, hold⟩, hother⟩ := pick_claims hw hs' u
  have hplace : ∀ p, s'.claims u (.place p) = (ready p).count u := fun p => by rw [hs']; rfl
  let place : Place W ↪ Loc W E C := ⟨Loc.place, fun _ _ h => by cases h; rfl⟩
  have hnotin : Loc.picked w ∉ K.map place := by simp [place]
  refine (h.claimed.once u).spread (Insert.insert (Loc.picked w) (K.map place)) ?_ fun l hl => ?_
  · rw [Finset.sum_insert hnotin, Finset.sum_insert hnotin, Finset.sum_map, Finset.sum_map, hnew, hold]
    calc [t].count u + ∑ p ∈ K, s'.claims u (.place p)
        = ∑ p ∈ K, (ready p).count u + [t].count u := by
          rw [Nat.add_comm, Finset.sum_congr rfl fun p _ => hplace p]
      _ ≤ ∑ p ∈ K, (s.mem.ready p).count u := hcount u
      _ = 0 + ∑ p ∈ K, s.claims u (.place p) := (Nat.zero_add _).symm
  · simp only [Finset.mem_insert, Finset.mem_map, not_or] at hl
    by_cases hlp : ∃ p, l = .place p
    · obtain ⟨p, rfl⟩ := hlp
      rw [hplace, hK p fun hpK => hl.2 ⟨p, hpK, rfl⟩]
      rfl
    · exact (hother l (fun p hp => hlp ⟨p, hp⟩) hl.1).le

omit [DecidableEq B] [DecidableEq C] in
/-- The picked task was in a run queue before. -/
theorem pick_token {ready : Place W → List T} {K : Finset (Place W)} (hw : s.worker w = .pick)
    (hK : ∀ p ∉ K, ready p = s.mem.ready p)
    (hcount : ∀ x, ∑ p ∈ K, (ready p).count x + [t].count x ≤ ∑ p ∈ K, (s.mem.ready p).count x)
    (hs' : s' = s.goto { s.mem with ready := ready } w (.setCurrent t)) {u : T} {l : Loc W E C}
    (hl : 0 < s'.claims u l) : 0 < s.claims u l ∨ l.Token ∧ ∃ p, 0 < s.claims u (.place p) := by
  classical
  obtain ⟨⟨hnew, _⟩, hother⟩ := pick_claims hw hs' u
  have hplace : ∀ p, s'.claims u (.place p) = (ready p).count u := fun p => by rw [hs']; rfl
  have hsum : ∀ p, 0 < (ready p).count u ∨ 0 < [t].count u → ∃ p, 0 < s.claims u (.place p) := by
    intro p hpos
    by_contra hne
    push Not at hne
    have hzero : ∑ p ∈ K, (s.mem.ready p).count u = 0 :=
      Finset.sum_eq_zero fun p _ => Nat.eq_zero_of_le_zero (hne p)
    have hc := hcount u
    rw [hzero] at hc
    rcases hpos with h1 | h1
    · by_cases hpK : p ∈ K
      · have := Finset.single_le_sum (f := fun p => (ready p).count u) (fun _ _ => Nat.zero_le _) hpK
        omega
      · rw [hK p hpK] at h1
        have := hne p
        simp only [State.claims, Mem.claims] at this
        omega
    · omega
  by_cases hlp : ∃ p, l = .place p
  · obtain ⟨p, rfl⟩ := hlp
    exact Or.inr ⟨trivial, hsum p (Or.inl (hplace p ▸ hl))⟩
  · by_cases hlw : l = .picked w
    · subst hlw
      exact Or.inr ⟨trivial, hsum .global (Or.inr (hnew ▸ hl))⟩
    · exact Or.inl (hother l (fun p hp => hlp ⟨p, hp⟩) hlw ▸ hl)

omit [DecidableEq B] [DecidableEq C] in
/-- A worker picks a task. -/
theorem Inv.pick (h : Inv s) (hw : s.worker w = .pick) (hp : Picks s.mem m t) :
    Claimed (s.goto m w (.setCurrent t)) ∧ Entered (s.goto m w (.setCurrent t)) ∧
      Awake (s.goto m w (.setCurrent t)) := by
  obtain ⟨ready, rfl, K, hK, hcount⟩ := hp
  have hk : (WorkerPc.setCurrent t : WorkerPc T B C).waker = (s.worker w).waker := by rw [hw]; rfl
  set s' := s.goto { s.mem with ready := ready } w (.setCurrent t) with hs'
  have htoken : ∀ u l, 0 < s'.claims u l → 0 < s.claims u l ∨ l.Token ∧ ∃ p, 0 < s.claims u (.place p) :=
    fun u l hl => pick_token hw hK hcount hs' hl
  have hcode : ∀ v u c, s'.worker v = .exec u c → s.worker v = .exec u c := by
    intro v u c hv
    rw [hs', goto_worker] at hv
    split_ifs at hv
    exact hv
  have hlater : Later s s' := fun v u c hv => ⟨c, hcode v u c hv, le_rfl⟩
  have hentry : ∀ u j, s'.entries u j = s.entries u j := by
    intro u j
    simp only [State.entries, hs', goto_mem, goto_waker_eq hk]
    cases j <;> rfl
  refine ⟨h.claimed.frame (h.pick_once hw hK hcount hs') hlater (fun v u hv => ?_) (fun u hb => hb)
    (fun u l hl => Or.inl ?_) (fun u l htok hl => Or.inl ?_),
    h.entered.frame (fun u => (h.entered.once u).mono fun j => (hentry u j).le) hlater
    (fun u j hj => Or.inl ⟨j, hentry u j ▸ hj⟩) (fun u hu => Or.inl hu) (fun u l hl hpos => Or.inl ?_),
    h.awake.frame fun u hs hawk => ⟨hs, ?_⟩⟩
  · rw [hs', goto_worker] at hv
    split_ifs at hv
    · cases hv
    · exact hv
  · rcases htoken u l hl with h1 | ⟨_, p, h1⟩
    · exact ⟨l, h1⟩
    · exact ⟨_, h1⟩
  · rcases htoken u l hl with h1 | ⟨_, p, h1⟩
    · exact ⟨l, htok, h1⟩
    · exact ⟨.place p, trivial, h1⟩
  · rcases htoken u l hpos with h1 | ⟨htok, _⟩
    · exact ⟨l, hl, h1⟩
    · exact absurd htok hl.not_token
  · rcases hawk with ⟨l, htok, hpos⟩ | ⟨b, hb⟩ | htm | ⟨v, c', hv, hc⟩ | hb
    · rcases htoken u l hpos with h1 | ⟨_, p, h1⟩
      · exact Or.inl ⟨l, htok, h1⟩
      · exact Or.inl ⟨.place p, trivial, h1⟩
    · rw [hs', goto_waker_eq hk] at hb
      exact Or.inr (Or.inl ⟨b, hb⟩)
    · exact Or.inr (Or.inr (Or.inl htm))
    · exact Or.inr (Or.inr (Or.inr (Or.inl ⟨v, c', hcode v u c' hv, hc⟩)))
    · exact Or.inr (Or.inr (Or.inr (Or.inr hb)))

/-! ### A wait begins -/

omit [DecidableEq W] [DecidableEq E] [DecidableEq B] [DecidableEq C] in
/-- Where nobody knows the current wait of a task, only tokens of it can be anywhere. -/
theorem unknown_claims (hx : ¬Known s (t, s.mem.epoch t)) {l : Loc W E C} (hl : ¬l.Token) : s.claims t l = 0 := by
  cases l with
  | place p | picked v | new a => exact absurd trivial hl
  | parked d => exact List.count_eq_zero.mpr fun hd => hx (Or.inl (Or.inr (Or.inl ⟨d, hd⟩)))
  | timer =>
    refine if_neg fun htm => hx (Or.inl (Or.inr (Or.inr fun hn => ?_)))
    have hn' : s.mem.timer t (s.mem.epoch t) = none := hn
    rw [hn'] at htm
    cases htm
  | popped a =>
    refine if_neg fun hp => ?_
    obtain ⟨pc, hpc, hpop⟩ := Option.bind_eq_some_iff.mp hp
    exact hx (Or.inr ⟨a, pc, hpc, Or.inr hpop⟩)
  | found a =>
    refine if_neg fun hf => ?_
    obtain ⟨pc, hpc, hfound⟩ := Option.bind_eq_some_iff.mp hf
    exact hx (Or.inr ⟨a, pc, hpc, Or.inl (found_batch (Or.inl hfound))⟩)

omit [DecidableEq W] [DecidableEq E] [DecidableEq B] [DecidableEq C] in
theorem unknown_entries (hx : ¬Known s (t, s.mem.epoch t)) (j : Slot W E B) : s.entries t j = 0 := by
  cases j with
  | queue b => exact List.count_eq_zero.mpr fun hd => hx (Or.inl (Or.inl ⟨b, hd⟩))
  | batch a =>
    refine List.count_eq_zero.mpr fun hd => ?_
    cases hpc : s.waker a with
    | none =>
      rw [hpc] at hd
      cases hd
    | some pc =>
      rw [hpc] at hd
      exact hx (Or.inr ⟨a, pc, hpc, Or.inl hd⟩)

/-- Nobody knows the current wait of `t`, which some worker runs, and the other tasks stay where they are. -/
structure Renewed (s s' : State W E T B C) (t : T) : Prop where
  claims : ∀ l, s'.claims t l = 0
  entries : ∀ j, s'.entries t j = 0
  timer : s'.mem.timer t (s'.mem.epoch t) = none
  runs : s.Runs t
  awake : ∃ v c, s.worker v = .exec t c ∧ ¬c.Asleep
  other_claims : ∀ u, u ≠ t → s'.claims u = s.claims u
  other_entries : ∀ u, u ≠ t → s'.entries u = s.entries u
  other_epoch : ∀ u, u ≠ t → s'.mem.epoch u = s.mem.epoch u
  other_runs : ∀ v u c, s'.worker v = .exec u c → u = t ∨ s.worker v = .exec u c
  current : ∀ v u, (s'.worker v).current = some u → (s.worker v).current = some u
  timers : s'.mem.timer = s.mem.timer
  waker : s'.waker = s.waker
  born : s'.mem.born = s.mem.born
  state : s'.mem.taskState = s.mem.taskState

omit [DecidableEq W] [DecidableEq E] [DecidableEq B] [DecidableEq C] in
theorem Renewed.runs_of (h : Renewed s s' t) {u : T} (hr : s'.Runs u) : s.Runs u := by
  obtain ⟨v, c, hv⟩ := hr
  rcases h.other_runs v u c hv with rfl | h1
  · exact h.runs
  · exact ⟨v, c, h1⟩

omit [DecidableEq W] [DecidableEq E] [DecidableEq B] [DecidableEq C] in
theorem Renewed.claimed (h : Renewed s s' t) (hc : Claimed s) : Claimed s' := by
  refine ⟨fun u => ?_, fun v1 v2 u h1 h2 => hc.current v1 v2 u (h.current v1 u h1) (h.current v2 u h2),
    fun u l hl hpos hr => ?_, fun v u c hv hq l => ?_, fun u hb => ?_⟩
  · by_cases hu : u = t
    · subst hu
      exact (hc.once u).mono fun l => by rw [h.claims l]; exact Nat.zero_le _
    · rw [h.other_claims u hu]
      exact hc.once u
  · by_cases hu : u = t
    · subst hu
      exact absurd (h.claims l) hpos.ne'
    · rw [h.other_claims u hu] at hpos
      exact hc.token u l hl hpos (h.runs_of hr)
  · by_cases hu : u = t
    · exact hu ▸ h.claims l
    · rw [h.other_claims u hu]
      exact hc.quiet v u c ((h.other_runs v u c hv).resolve_left hu) hq l
  · rw [h.born] at hb
    obtain ⟨h1, h2⟩ := hc.born u hb
    have hu : u ≠ t := by
      rintro rfl
      exact h2 h.runs
    rw [h.other_claims u hu]
    exact ⟨h1, fun hr => h2 (h.runs_of hr)⟩

omit [DecidableEq W] [DecidableEq E] [DecidableEq B] [DecidableEq C] in
theorem Renewed.entered (h : Renewed s s' t) (he : Entered s) : Entered s' := by
  refine ⟨fun u => ?_, fun v u c hv hq j => ?_, fun v u c hv hq => ?_, fun u l hl hpos => ?_⟩
  · by_cases hu : u = t
    · subst hu
      exact (he.once u).mono fun j => by rw [h.entries j]; exact Nat.zero_le _
    · rw [h.other_entries u hu]
      exact he.once u
  · by_cases hu : u = t
    · exact hu ▸ h.entries j
    · rw [h.other_entries u hu]
      exact he.fresh v u c ((h.other_runs v u c hv).resolve_left hu) hq j
  · by_cases hu : u = t
    · exact hu ▸ h.timer
    · rw [h.timers, h.other_epoch u hu]
      exact he.unarmed v u c ((h.other_runs v u c hv).resolve_left hu) hq
  · by_cases hu : u = t
    · subst hu
      exact absurd (h.claims l) hpos.ne'
    · rw [h.other_claims u hu] at hpos
      rw [h.other_entries u hu, h.timers, h.other_epoch u hu]
      exact he.kinds u l hl hpos

omit [DecidableEq W] [DecidableEq E] [DecidableEq B] [DecidableEq C] in
theorem Renewed.keeps_awake (h : Renewed s s' t) (ha : Awake s) : Awake s' := by
  refine ha.frame fun u hs hawk => ⟨h.state ▸ hs, ?_⟩
  by_cases hu : u = t
  · subst hu
    exact Or.inr (Or.inr (Or.inr (Or.inl h.awake)))
  · rcases hawk with ⟨l, htok, hpos⟩ | ⟨b, hb⟩ | htm | ⟨v, c, hv, hc⟩ | hb
    · rw [h.other_claims u hu] at hpos
      exact Or.inl ⟨l, htok, hpos⟩
    · rw [h.waker, h.other_epoch u hu] at hb
      exact Or.inr (Or.inl ⟨b, hb⟩)
    · rw [h.timers, h.other_epoch u hu] at htm
      exact Or.inr (Or.inr (Or.inl htm))
    · exact Or.inr (Or.inr (Or.inr (Or.inl ⟨v, c, (h.other_runs v u c hv).resolve_left hu, hc⟩)))
    · rw [h.born] at hb
      exact Or.inr (Or.inr (Or.inr (Or.inr hb)))

omit [DecidableEq B] [DecidableEq C] in
theorem Inv.renewed (h : Inv s) {c' : TaskPc T B C} (hw : s.worker w = .exec t .user) (hcode : ∀ k, c' ≠ .wake k) :
    Renewed s (s.goto { s.mem with epoch := Function.update s.mem.epoch t (s.mem.epoch t + 1) } w (.exec t c')) t := by
  have hk : (WorkerPc.exec t c').waker = (s.worker w).waker := by rw [hw, exec_waker hcode]; rfl
  have hp : (WorkerPc.exec t c').picked = (s.worker w).picked := by rw [hw]; rfl
  set s' := s.goto { s.mem with epoch := Function.update s.mem.epoch t (s.mem.epoch t + 1) } w (.exec t c') with hs'
  have hwk : s'.waker = s.waker := goto_waker_eq hk
  have hpk : s'.picked = s.picked := goto_picked_eq hp
  have hepoch : s'.mem.epoch t = s.mem.epoch t + 1 := by simp [hs']
  have hother : ∀ u, u ≠ t → s'.mem.epoch u = s.mem.epoch u := fun u hu => by simp [hs', hu]
  -- the number of the wait is new
  have hunknown : ¬Known s' (t, s'.mem.epoch t) := by
    intro hkn
    have hold : Known s (t, s'.mem.epoch t) := by
      unfold Known at hkn ⊢
      rwa [hwk] at hkn
    have hle := h.books.known _ hold
    simp only [hepoch] at hle
    omega
  have htoken : ∀ l, l.Token → s'.claims t l = 0 := by
    intro l hl
    have hzero : s.claims t l = 0 := by
      by_contra hne
      exact h.claimed.token t l hl (Nat.pos_of_ne_zero hne) ⟨w, _, hw⟩
    cases l with
    | place p => exact hzero
    | picked v =>
      simp only [State.claims, Mem.claims, hpk] at hzero ⊢
      exact hzero
    | new a =>
      simp only [State.claims, Mem.claims, hwk] at hzero ⊢
      exact hzero
    | _ => cases hl
  have hrun : ∀ v u c, s'.worker v = .exec u c → u = t ∨ s.worker v = .exec u c := by
    intro v u c hv
    rw [hs', goto_worker] at hv
    split_ifs at hv with hvw
    · cases hv
      exact Or.inl rfl
    · exact Or.inr hv
  refine ⟨fun l => ?_, unknown_entries hunknown, ?_, ⟨w, _, hw⟩, ⟨w, _, hw, id⟩, fun u hu => ?_, fun u hu => ?_,
    hother, hrun, fun v u hv => ?_, rfl, hwk, rfl, rfl⟩
  · by_cases hl : l.Token
    · exact htoken l hl
    · exact unknown_claims hunknown hl
  · by_contra hne
    exact hunknown (Or.inl (Or.inr (Or.inr hne)))
  · funext l
    cases l <;> simp only [State.claims, Mem.claims, hother u hu, hwk, hpk] <;> rfl
  · funext j
    cases j with
    | queue b =>
      simp only [State.entries, Mem.entries, hother u hu]
      rfl
    | batch a => simp only [State.entries, Mem.entries, hother u hu, hwk]
  · rw [hs', goto_worker] at hv
    split_ifs at hv with hvw
    · rw [hvw, hw]
      exact hv
    · exact hv

omit [DecidableEq B] [DecidableEq C] in
/-- A task begins a wait: nothing that is known is about it. -/
theorem Inv.begin (h : Inv s) {c' : TaskPc T B C} (hw : s.worker w = .exec t .user)
    (hm : m = { s.mem with epoch := Function.update s.mem.epoch t (s.mem.epoch t + 1) })
    (hcode : ∀ k, c' ≠ .wake k) :
    Claimed (s.goto m w (.exec t c')) ∧ Entered (s.goto m w (.exec t c')) ∧ Awake (s.goto m w (.exec t c')) := by
  subst hm
  have hrenewed := h.renewed hw hcode
  exact ⟨hrenewed.claimed h.claimed, hrenewed.entered h.entered, hrenewed.keeps_awake h.awake⟩

omit [DecidableEq W] [DecidableEq B] [DecidableEq C] in
/-- Only the task that the waker makes is born. -/
theorem startWaking_born {m m' : Mem W T B C} {k : Waking T B C} (hk : m.startWaking k = some m') :
    ∃ born, m' = { m with born := born } ∧ (∀ u, born u = false → m.born u = false) ∧
      ∀ u, k.start.new = some u → m.born u = false ∧ born u = true := by
  cases k with
  | create u =>
    simp only [Mem.startWaking] at hk
    split_ifs at hk with hb
    cases hk
    refine ⟨_, rfl, fun v hv => ?_, fun v hv => ?_⟩
    · by_cases hvu : v = u
      · subst hvu; simp at hv
      · simpa [hvu] using hv
    · cases hv
      exact ⟨by simpa using hb, by simp⟩
  | _ => cases hk; exact ⟨_, rfl, fun _ h => h, fun _ h => by cases h⟩

omit [DecidableEq W] [DecidableEq T] [DecidableEq B] [DecidableEq C] in
/-- A waker that starts holds no wait. -/
theorem start_hand (k : Waking T B C) :
    k.start.popped = none ∧ k.start.found = none ∧ k.start.batch = [] ∧ k.start.stored = none := by
  cases k <;> exact ⟨rfl, rfl, rfl, rfl⟩

omit [DecidableEq B] [DecidableEq C] in
/-- A waker starts; a task that it makes was nowhere before. -/
theorem Inv.start (h : Inv s) {a : W ⊕ E} {k : Waking T B C} (hw : s.waker a = none)
    (hk : s.mem.startWaking k = some m) (ha : Agent s s' a m (some k.start)) : Claimed s' ∧ Entered s' ∧ Awake s' := by
  obtain ⟨born, rfl, hborn, hnew⟩ := startWaking_born hk
  have hnone := start_hand k
  have hle : ∀ u l, l ≠ .new a → s'.claims u l ≤ s.claims u l := by
    intro u l hl
    refine ha.claims_le rfl l id ?_
    cases l with
    | place p => exact rfl
    | parked d => exact rfl
    | picked _ | timer => trivial
    | new b => exact fun hb => absurd (by rw [hb]) hl
    | popped b => exact fun _ hx => by rw [Option.bind_some, hnone.1] at hx; cases hx
    | found b => exact fun _ hx => by rw [Option.bind_some, hnone.2.1] at hx; cases hx
  have hna : ∀ u, s'.claims u (.new a) = if k.start.new = some u then 1 else 0 := by
    intro u
    simp only [State.claims, Mem.claims, ha.hand, if_true, Option.bind_some]
  have hentry : ∀ u j, s'.entries u j = s.entries u j := by
    intro u j
    cases j with
    | queue b => simp only [State.entries, Mem.entries, ha.mem]
    | batch b =>
      simp only [State.entries, Mem.entries, ha.mem, ha.waker]
      by_cases hb : b = a
      · subst hb
        rw [Function.update_self, hw, Option.elim_some, hnone.2.2.1]
        rfl
      · rw [Function.update_of_ne hb]
  have hclaim : ∀ u l, 0 < s'.claims u l → 0 < s.claims u l ∨ l = .new a ∧ k.start.new = some u := by
    intro u l hpos
    by_cases hl : l = .new a
    · subst hl
      rw [hna] at hpos
      split_ifs at hpos with hn
      · exact Or.inr ⟨rfl, hn⟩
      · omega
    · exact Or.inl (hpos.trans_le (hle u l hl))
  have htimer : ∀ u, s'.mem.timer u (s'.mem.epoch u) = s.mem.timer u (s.mem.epoch u) := by
    intro u
    rw [ha.mem]
  refine ⟨h.claimed.frame (fun u => ?_) ha.later (fun v u hv => by rw [← ha.current]; exact hv)
    (fun u hb => hborn u (by rw [ha.mem] at hb; exact hb)) (fun u l hpos => ?_) (fun u l htok hpos => ?_),
    h.entered.frame (fun u => (h.entered.once u).mono fun j => (hentry u j).le) ha.later
      (fun u j hj => Or.inl ⟨j, hentry u j ▸ hj⟩) (fun u hu => Or.inl (htimer u ▸ hu)) (fun u l hl hpos => Or.inl ?_),
    h.awake.frame fun u hs hawk => ⟨by rw [ha.mem] at hs; exact hs, ?_⟩⟩
  · by_cases hn : k.start.new = some u
    · refine Once.insert (h.claimed.born u (hnew u hn).1).1 (b := .new a) ?_ fun l hl => hle u l hl
      rw [hna, if_pos hn]
    · refine (h.claimed.once u).mono fun l => ?_
      by_cases hl : l = .new a
      · subst hl
        rw [hna, if_neg hn]
        exact Nat.zero_le _
      · exact hle u l hl
  · rcases hclaim u l hpos with h1 | ⟨_, hn⟩
    · exact Or.inl ⟨l, h1⟩
    · refine Or.inr ⟨by rw [ha.mem]; exact (hnew u hn).2, fun v c hv => ?_⟩
      exact absurd (ha.later.runs ⟨v, c, hv⟩) (h.claimed.born u (hnew u hn).1).2
  · rcases hclaim u l hpos with h1 | ⟨_, hn⟩
    · exact Or.inl ⟨l, htok, h1⟩
    · exact Or.inr (h.claimed.born u (hnew u hn).1).2
  · rcases hclaim u l hpos with h1 | ⟨rfl, _⟩
    · exact ⟨l, hl, h1⟩
    · cases hl
  · rcases hawk with ⟨l, htok, hpos⟩ | ⟨b, hb⟩ | htm | ⟨v, c', hv, hc⟩ | hb
    · rcases hclaim u l hpos with h1 | ⟨_, hn⟩
      · exact Or.inl ⟨l, htok, h1⟩
      · exact Or.inr (Or.inr (Or.inr (Or.inr (hnew u hn).1)))
    · rw [ha.waker, ha.mem] at hb
      by_cases hba : b = a
      · subst hba
        rw [Function.update_self, Option.bind_some, hnone.2.2.2] at hb
        cases hb
      · rw [Function.update_of_ne hba] at hb
        exact Or.inr (Or.inl ⟨b, hb⟩)
    · rw [htimer] at htm
      exact Or.inr (Or.inr (Or.inl htm))
    · obtain ⟨c, hcv, rfl | ⟨_, _, h3, _⟩⟩ := ha.code v u c' hv
      · exact Or.inr (Or.inr (Or.inr (Or.inl ⟨v, c', hcv, hc⟩)))
      · exact Or.inr (Or.inr (Or.inr (Or.inl ⟨v, c, hcv, h3⟩)))
    · rw [ha.mem] at hb
      exact Or.inr (Or.inr (Or.inr (Or.inr (hborn u hb))))

end Loop

/-! ## Every run -/

section Runs

variable {s s' : State W E T B C}

/-- **What one step preserves.** -/
theorem inv_step {l : Label W E T B C} (h : Inv s) (hok : ¬Exposed s l) (hl : Moved s l s') : Inv s' := by
  have hb := books_step hl h.books
  suffices hs : Claimed s' ∧ Entered s' ∧ Awake s' from ⟨hs.1, hs.2.1, hs.2.2, hb⟩
  cases hl with
  | pick _ w t m hw picks => exact h.pick hw picks
  | setCurrent w t hw =>
    refine h.goto ⟨⟨rfl, rfl, rfl, rfl, rfl, rfl⟩, by rw [hw]; rfl, fun u hu => hu, fun u hu => by rw [hw]; exact hu,
      fun u v hu hv => ?_, fun u c' hc => by cases hc⟩
    cases hu
    cases hvp : s.worker v with
    | setRunning x | swapIn x =>
      rw [hvp] at hv
      cases hv
      have := (h.claimed.once t).unique (claims_picked (w := w) (by rw [hw]; rfl))
        (claims_picked (w := v) (by rw [hvp]; rfl))
      cases this
      rfl
    | exec x c =>
      rw [hvp] at hv
      cases hv
      exact absurd ⟨v, c, hvp⟩ (h.claimed.token t (.picked w) trivial (claims_picked (by rw [hw]; rfl)))
    | swapped x =>
      rw [hvp] at hv
      cases hv
      exact absurd (Or.inr (Or.inr ⟨t, v, hw, hvp⟩)) hok
    | _ => rw [hvp] at hv; cases hv
  | setRunning w t hw =>
    refine h.goto ⟨⟨rfl, rfl, rfl, rfl, rfl, rfl⟩, by rw [hw]; rfl, fun u hu => ?_, fun u hu => by rw [hw]; exact hu,
      fun u v hu hv => h.claimed.current v w u hv (by rw [hw]; exact hu), fun u c' hc => by cases hc⟩
    by_cases hut : u = t
    · simp [Mem.setState, hut] at hu
    · simpa [Mem.setState, hut] using hu
  | swapIn w t hw =>
    have hsaved := h.books.context t
    refine h.goto ⟨⟨rfl, rfl, rfl, rfl, rfl, rfl⟩, ?_, fun u hu => hu, fun u hu => (by cases hu),
      fun u v hu hv => h.claimed.current v w u hv (by rw [hw]; exact hu), fun u c' hc => ?_⟩
    · rw [hw]
      cases hc : s.mem.context t <;> first | rfl | (rw [hc] at hsaved; cases hsaved)
    · cases hc
      exact ⟨hsaved.stage, Or.inl (by rw [hw]; rfl)⟩
  | swap w t next hw =>
    exact h.goto ⟨⟨rfl, rfl, rfl, rfl, rfl, rfl⟩, by rw [hw]; rfl, fun u hu => hu, fun u hu => (by cases hu),
      fun u v hu hv => h.claimed.current v w u hv (by rw [hw]; exact hu), fun u c' hc => by cases hc⟩
  | swapped w t hw | handle w t hw =>
    exact h.goto ⟨⟨rfl, rfl, rfl, rfl, rfl, rfl⟩, by rw [hw]; rfl, fun u hu => hu, fun u hu => (by cases hu),
      fun u v hu => (by cases hu), fun u c' hc => by cases hc⟩
  | task w t c c' m hw hcode hacc =>
    have hself : ¬c.SelfPush := fun hp => hok (Or.inr (Or.inl ⟨t, c, hw, hp⟩))
    exact ⟨h.code_claimed hw hcode hacc hself, h.code_entered hw hcode hacc hself, h.code_awake hw hcode hacc hself⟩
  | call w t k hw =>
    obtain ⟨⟨hm, hstage⟩ | ⟨hm, _⟩, _, hcode⟩ := startWaiting_cases s.mem t k
    · rw [hm]
      refine h.goto ⟨⟨rfl, rfl, rfl, rfl, rfl, rfl⟩, by rw [hw, exec_waker hcode]; rfl, fun u hu => hu,
        fun u hu => (by cases hu), fun u v hu hv => h.claimed.current v w u hv (by rw [hw]; exact hu),
        fun u c' hc => ?_⟩
      cases hc
      exact ⟨hstage, Or.inr ⟨_, hw, id⟩⟩
    · exact h.begin hw hm hcode
  | start _ a k m _ hw hstart agent => exact h.start hw hstart agent
  | waker _ a p pc _ hw agent hlabel =>
    have hrash : ¬s.Rash pc := by
      intro hr
      subst hlabel
      cases a with
      | inl w => exact hok (Or.inl ⟨pc, hw, hr⟩)
      | inr e => exact hok ⟨pc, hw, hr⟩
    exact ⟨h.waker_claimed hw agent hrash, h.waker_entered hw agent hrash, h.waker_awake hw agent hrash⟩
  | fire t n harm =>
    exact h.ticked (m := s.mem.setTimer t n .claim) harm
      (.idle .claim rfl rfl rfl rfl rfl (fun hc => by cases hc) fun u hu => hu) ⟨rfl, rfl, rfl⟩ (fun hc => by cases hc)
      fun hc => by cases hc
  | timer t n pc m hpc hacc =>
    refine h.ticked hpc (ticked hacc) (timerStep_same hacc) (fun hp hh => ?_) fun hl hs hw => ?_
    · subst hp
      exact hok (Or.inl ⟨hpc, hh⟩)
    · subst hl
      exact hok (Or.inr ⟨hpc, hs, hw⟩)

/-- At the start nothing is anywhere. -/
theorem inv_start (value : B → Int) (flag : C → Bool) : Inv (State.start value flag : State W E T B C) := by
  have hclaims : ∀ t l, (State.start value flag : State W E T B C).claims t l = 0 := by
    intro t l
    cases l with
    | new a | popped a | found a => cases a <;> rfl
    | _ => rfl
  have hentries : ∀ t j, (State.start value flag : State W E T B C).entries t j = 0 := by
    intro t j
    cases j with
    | queue b => rfl
    | batch a => cases a <;> rfl
  have hreach : Reachable (system W E T B C) (State.start value flag) := .init ⟨value, flag, rfl⟩
  have hbooks := reachable_books hreach
  refine ⟨⟨fun t => ?_, fun w v t hw => ?_, fun t l _ hpos => ?_, fun w t c hw => ?_, fun t _ => ⟨hclaims t, ?_⟩⟩,
    ⟨fun t => ?_, fun w t c hw => ?_, fun w t c hw => ?_, fun t l _ hpos => ?_⟩, fun t _ => ?_, hbooks⟩
  · exact fun K => by simp [hclaims]
  · cases hw
  · rw [hclaims] at hpos
    omega
  · cases hw
  · rintro ⟨w, c, hw⟩
    cases hw
  · exact fun K => by simp [hentries]
  · cases hw
  · cases hw
  · rw [hclaims] at hpos
    omega
  · exact fun hs => by cases hs

omit [DecidableEq W] [DecidableEq E] [DecidableEq B] [DecidableEq C] in
/-- The invariant gives exclusion. -/
theorem Inv.exclusive (h : Inv s) : Exclusive s where
  current := h.claimed.current
  executing w t p hw hp := by
    have hplace : 0 < s.claims t (.place p) := List.count_pos_iff.mpr hp
    cases hwp : s.worker w with
    | exec x c =>
      rw [hwp] at hw
      cases hw
      exact h.claimed.token t (.place p) trivial hplace ⟨w, c, hwp⟩
    | setRunning x | swapIn x =>
      rw [hwp] at hw
      cases hw
      have := (h.claimed.once t).unique (claims_picked (w := w) (by rw [hwp]; rfl)) hplace
      cases this
    | _ => rw [hwp] at hw; cases hw

/-- **A task is executed by one worker at a time** in every run without an exposing step. -/
theorem executed_once (hs : Reach (system W E T B C) (fun s l => ¬Exposed s l) s) : Exclusive s := by
  refine Inv.exclusive (hs.invariant (I := Inv) ?_ fun s t l h hok hst => inv_step h hok (step_cases hst))
  rintro s ⟨value, flag, rfl⟩
  exact inv_start value flag

/-- With one worker and one thread: the worker runs no waker and does not push its own task, and the thread pushes for
the current wait of a task that is put away. -/
def careful (s : State Unit Unit Unit Unit Unit) : Label Unit Unit Unit Unit Unit → Bool
  | .worker _ => match s.worker () with
    | .setCurrent _ | .setRunning _ | .swapIn _ | .swapped _ | .handle _ => true
    | .exec _ (.park _) | .exec _ (.publish _) | .exec _ (.swap _) => true
    | _ => false
  | .thread _ => match s.thread () with
    | some (.push _ _ x) => x.2 == s.mem.epoch x.1 && (s.worker ()).executing == none
    | some (.butex _ _) => false
    | _ => true
  | .timer _ _ => false
  | _ => true

theorem not_exposed_of_careful (s : State Unit Unit Unit Unit Unit) (l : Label Unit Unit Unit Unit Unit)
    (h : careful s l = true) : ¬Exposed s l := by
  cases l with
  | timer t n => cases h
  | worker w =>
    rintro (⟨pc, hpc, _⟩ | ⟨t, c, hc, hp⟩ | ⟨t, v, hw, hv⟩)
    · simp only [careful] at h
      simp only [State.waker] at hpc
      cases hw : s.worker () with
      | exec t c =>
        rw [hw] at h hpc
        cases c with
        | wake k => cases h
        | _ => cases hpc
      | finishing pc => rw [hw] at h; cases h
      | _ => rw [hw] at hpc; cases hpc
    · simp only [careful, hc] at h
      cases c with
      | yieldBatch | wait b call pc => cases h
      | _ => cases hp
    · rw [hw] at hv
      cases hv
  | thread e =>
    rintro ⟨pc, hpc, ⟨x, hx, hh⟩ | ⟨x, hx, _⟩⟩ <;> simp only [careful, show s.thread () = some pc from hpc] at h
    · cases pc with
      | push c all y =>
        cases hx
        simp only [Bool.and_eq_true, beq_iff_eq] at h
        rcases hh with h1 | ⟨w, hw⟩
        · exact h1 h.1
        · rw [h.2] at hw
          cases hw
      | butex b pc => cases h
      | _ => cases hx
    · cases pc with
      | butex b pc => cases h
      | _ => cases hx
  | _ => exact id

/-- A task waits on a condition variable; after its worker has put it away, a thread notifies it, and it goes on. -/
theorem executed_once_notified : ∃ s : State Unit Unit Unit Unit Unit,
    s.worker () = .exec () .user ∧ s.mem.epoch () = 1 ∧ Exclusive s :=
  ⟨_, rfl, rfl, executed_once (reach_exec not_exposed_of_careful (.init ⟨fun _ => 0, fun _ => false, rfl⟩)
    (show exec _ _ [.threadWake () (.create ()), .thread (), .thread (), .pickGlobal () (), .worker (), .worker (),
      .worker (), .call () (.condWait ()), .worker (), .worker (), .worker (), .worker (), .worker (),
      .threadWake () (.notify () false), .thread (), .thread (), .thread (), .thread (), .pickGlobal () (),
      .worker (), .worker (), .worker ()] = some _ from rfl) (by decide))⟩

/-- **A task that two workers execute**: it is published in the wait queue of a condition variable, and before its
context is saved a thread notifies it and a second worker picks it. -/
theorem executed_twice : ∃ s : State Bool Unit Unit Unit Unit, Reachable (system Bool Unit Unit Unit Unit) s ∧
    s.worker false = .exec () (.swap .user) ∧ () ∈ s.mem.ready .global ∧ ∃ s', step s (.pickGlobal true ()) = some s' ∧
      ∃ s'', step s' (.worker true) = some s'' ∧ (s''.worker false).current = some () ∧
        (s''.worker true).current = some () ∧ ¬Exclusive s ∧ ¬Exclusive s'' := by
  refine ⟨_, reachable_exec (.init ⟨fun _ => 0, fun _ => false, rfl⟩) (show exec _ _ [.threadWake () (.create ()),
    .thread (), .thread (), .pickGlobal false (), .worker false, .worker false, .worker false,
    .call false (.condWait ()), .worker false, .worker false, .threadWake () (.notify () false), .thread (),
    .thread (), .thread (), .thread ()] = some _ from rfl), rfl, ?_, _, rfl, _, rfl, rfl, rfl, ?_, ?_⟩
  · exact List.mem_singleton.mpr rfl
  · exact fun h => h.executing false () .global rfl (List.mem_singleton.mpr rfl)
  · exact fun h => absurd (h.current false true () rfl rfl) (by decide)

end Runs

end Cothread.Worker
