import Cothread.Core.RunQueuesKept

/-!
# `YieldCurrent` and the next `PickTask`

`YieldCurrent` puts the running task on top of `local_batch_`, and `PickTask` takes the top of `local_batch_`: unless
the batch has become full, the task that yields is the next one to run (`yields_to_itself`). A full batch is flushed
into the local queue, `PopMultiple` pops it back in the opposite order, and the oldest of the eight tasks comes out. A
push onto a local queue without room empties it, so with 1017 tasks in the local queue the task that yields comes out
again, and with 1016 nothing is left there and `PickTask` looks elsewhere (`gives_way_iff`).
-/

namespace Cothread.RunQueues

open Run WorkStealing

variable {n : ℕ} {T : Type*} [DecidableEq T]

/-- The worker goes on alone until it is in neither `MaybeFlushBatch` nor `PickTask`. -/
def Alone (w : Fin n) (s t : State n T) : Prop :=
  ∃ k, exec (system n T) s (List.replicate k (.worker w)) = some t ∧ t.pc w = .out

/-- `YieldCurrent` and the next `PickTask`, while nobody else acts. -/
def Next (w : Fin n) (s t : State n T) : Prop :=
  ∃ s₁ s₂ s₃, step s (.yield w) = some s₁ ∧ Alone w s₁ s₂ ∧ step s₂ (.pick w) = some s₃ ∧ Alone w s₃ t

/-- **The task gives way**: the next `PickTask` returns a task, and a different one. -/
def GivesWay (s : State n T) (w : Fin n) (task : T) : Prop :=
  ∃ t, Next w s t ∧ ∃ x, t.current w = some x ∧ x ≠ task

/-- A worker that executes a task, and a task that is not in any queue meanwhile. -/
structure Running (s : State n T) (w : Fin n) (task : T) : Prop where
  current : s.current w = some task
  out : s.pc w = .out
  ring : ∀ v, ∃ xs, Holds (s.queue v) xs
  batch : BatchOk (s.batch w) (s.batchCount w) .out
  waiting : s.waiting task = false
  apart : ∀ p, task ∉ s.at p

/-- The task is in the global queue or in the local queue of another worker. -/
def Outside (s : State n T) (w : Fin n) (x : T) : Prop :=
  (∃ i, x ∈ s.at (.shard i)) ∨ ∃ v, v ≠ w ∧ x ∈ s.at (.window v)

/-- The batch becomes full and is flushed, and then the local queue does not hold the last task only; when it holds
none, there is one outside. -/
def GivesWayWhen (s : State n T) (w : Fin n) : Prop :=
  s.batchCount w + 1 = BATCH_SIZE ∧ (s.queue w).window.length + 7 ≠ CAPACITY ∧
    ((s.queue w).window.length + 8 = CAPACITY → ∃ x, Outside s w x)

variable {s t u : State n T} {w v : Fin n} {x task : T} {xs ys : List T} {i k : ℕ}

/-- Running tasks are apart from the queues, in every run in which no task is pushed where there is no room. -/
theorem Inv.running (h : Inv s) (hc : s.current w = some task) (ho : s.pc w = .out) (hw : s.waiting task = false) :
    Running s w task where
  current := hc
  out := ho
  ring := h.ring
  batch := ho ▸ h.batch w
  waiting := hw
  apart p hm := by
    rw [(h.kept.stored task).mpr ⟨p, hm⟩] at hw
    cases hw

/-! ## A worker alone -/

theorem Alone.refl (h : s.pc w = .out) : Alone w s s := ⟨0, rfl, h⟩

theorem Alone.cons (hst : s.access w (s.pc w) = some u) (h : Alone w u t) : Alone w s t := by
  obtain ⟨k, hk, ht⟩ := h
  refine ⟨k + 1, ?_, ht⟩
  rw [List.replicate_succ, exec_cons]
  show (s.access w (s.pc w)).bind _ = some t
  rw [hst]
  exact hk

theorem worker_out (h : s.pc w = .out) : (system n T).step s (.worker w) = none := by
  show s.access w (s.pc w) = none
  rw [h]
  rfl

/-- The worker alone comes to one state only. -/
theorem Alone.unique (h : Alone w s t) (h' : Alone w s u) : t = u := by
  obtain ⟨k, hk, ht⟩ := h
  obtain ⟨j, hj, hu⟩ := h'
  induction k generalizing s j with
  | zero =>
    cases hk
    cases j with
    | zero => exact Option.some.inj hj
    | succ j =>
      rw [List.replicate_succ, exec_cons] at hj
      rw [worker_out ht] at hj
      cases hj
  | succ k ih =>
    rw [List.replicate_succ, exec_cons] at hk
    cases j with
    | zero =>
      cases hj
      rw [worker_out hu] at hk
      cases hk
    | succ j =>
      obtain ⟨r, hr, hk⟩ := Option.bind_eq_some_iff.mp hk
      rw [List.replicate_succ, exec_cons, hr] at hj
      exact ih hk j hj

theorem Next.unique (h : Next w s t) (h' : Next w s u) : t = u := by
  obtain ⟨a₁, a₂, a₃, h₁, h₂, h₃, h₄⟩ := h
  obtain ⟨b₁, b₂, b₃, k₁, k₂, k₃, k₄⟩ := h'
  obtain rfl := Option.some.inj (h₁.symm.trans k₁)
  obtain rfl := h₂.unique k₂
  obtain rfl := Option.some.inj (h₃.symm.trans k₃)
  exact h₄.unique k₄

/-- Whether the task gives way is decided by the one run there is. -/
theorem givesWay_iff (h : Next w s t) : GivesWay s w task ↔ ∃ x, t.current w = some x ∧ x ≠ task := by
  refine ⟨?_, fun hx => ⟨t, h, hx⟩⟩
  rintro ⟨u, hu, hx⟩
  exact h.unique hu ▸ hx

/-- The task is picked again. -/
theorem Next.not_givesWay (h : Next w s t) (hcur : t.current w = some task) : ¬GivesWay s w task := by
  rw [givesWay_iff h]
  rintro ⟨x, hx, hne⟩
  exact hne (Option.some.inj (hx.symm.trans hcur))

/-! ## The flush -/

/-- `Push` on the list that the window holds: without room everything is lost. -/
def pushed (xs : List T) (x : T) : List T := if xs.length + 1 = CAPACITY then [] else xs ++ [x]

omit [DecidableEq T] in
theorem holds_pushed {q : Queue T} (h : Holds q xs) : Holds (q.push (some x)) (pushed xs x) := by
  unfold pushed
  split_ifs with hfull
  · exact h.push_full hfull _
  · have hlen : xs.length < CAPACITY := by
      obtain ⟨-, -, -, hlen, -⟩ := h
      exact hlen
    exact h.push (by omega)

omit [DecidableEq T] in
/-- Pushes that fit. -/
theorem foldl_pushed (h : xs.length + ys.length < CAPACITY) : ys.foldl pushed xs = xs ++ ys := by
  induction ys generalizing xs with
  | nil => simp
  | cons y ys ih =>
    rw [List.length_cons] at h
    have hy : pushed xs y = xs ++ [y] := if_neg (by omega)
    rw [List.foldl_cons, hy, ih (by simp; omega), List.append_assoc, List.singleton_append]

omit [DecidableEq T] in
/-- Pushes that do not fit: what comes after the push that empties the queue stays. -/
theorem foldl_pushed_full (hxs : xs.length < CAPACITY) (hys : ys.length ≤ CAPACITY)
    (h : CAPACITY ≤ xs.length + ys.length) : ys.foldl pushed xs = ys.drop (CAPACITY - xs.length) := by
  induction ys generalizing xs with
  | nil => simp at h; omega
  | cons y ys ih =>
    rw [List.length_cons] at h hys
    rw [List.foldl_cons, pushed]
    split_ifs with hfull
    · have hone : CAPACITY - xs.length = 1 := by omega
      rw [hone, List.drop_one, List.tail_cons, foldl_pushed (by simp; omega), List.nil_append]
    · have hsub : CAPACITY - xs.length = CAPACITY - (xs ++ [y]).length + 1 := by
        rw [List.length_append, List.length_singleton]
        omega
      rw [hsub, List.drop_succ_cons]
      exact ih (by simp; omega) (by omega) (by simp; omega)

/-- What the worker leaves alone: the global queue and the other local queues. -/
def Frame (w : Fin n) (s t : State n T) : Prop := t.shards = s.shards ∧ ∀ v, v ≠ w → t.queue v = s.queue v

/-- `MaybeFlushBatch` pushes the rest of the batch. -/
theorem flush_alone (d : ℕ) (hi : i + d + 1 = s.batchCount w) (hpc : s.pc w = .flush i) (hq : Holds (s.queue w) xs)
    (hb : ∀ j < s.batchCount w, (s.batch w j).isSome) :
    ∃ t, Alone w s t ∧ Frame w s t ∧ t.current = s.current ∧ t.batchCount w = 0 ∧
      Holds (t.queue w) ((slots (s.batch w) i (s.batchCount w)).foldl pushed xs) := by
  obtain ⟨x, hx⟩ := Option.isSome_iff_exists.mp (hb i (by omega))
  rw [slots_cons (by omega) hx, List.foldl_cons]
  induction d generalizing s i xs x with
  | zero =>
    let t := ((s.setQueue w ((s.queue w).push (s.batch w i))).setCount w 0).goto w .out
    have hst : s.access w (s.pc w) = some t := by
      rw [hpc, State.access]
      simp only [if_neg (show ¬i + 1 < s.batchCount w by omega)]
      rfl
    have hpush : t.queue w = (s.queue w).push (some x) := by
      rw [← hx]
      exact Function.update_self ..
    have hpc' : t.pc w = .out := Function.update_self ..
    have hcount : t.batchCount w = 0 := Function.update_self ..
    refine ⟨t, .cons hst (.refl hpc'), ⟨rfl, fun v hv => Function.update_of_ne hv _ _⟩, rfl, hcount, ?_⟩
    rw [slots_nil (by omega), hpush]
    exact holds_pushed hq
  | succ d ih =>
    let u := (s.setQueue w ((s.queue w).push (s.batch w i))).goto w (.flush (i + 1))
    have hst : s.access w (s.pc w) = some u := by
      rw [hpc, State.access]
      simp only [if_pos (show i + 1 < s.batchCount w by omega)]
      rfl
    have hpush : u.queue w = (s.queue w).push (some x) := by
      rw [← hx]
      exact Function.update_self ..
    have hpc' : u.pc w = .flush (i + 1) := Function.update_self ..
    obtain ⟨y, hy⟩ := Option.isSome_iff_exists.mp (hb (i + 1) (by omega))
    have hq' : Holds (u.queue w) (pushed xs x) := by
      rw [hpush]
      exact holds_pushed hq
    have hcount : i + 1 + d + 1 = u.batchCount w := by
      show i + 1 + d + 1 = s.batchCount w
      omega
    obtain ⟨t, h₁, h₂, h₃, h₄, h₅⟩ := ih hcount hpc' hq' hb y hy
    refine ⟨t, .cons hst h₁, ⟨h₂.1, fun v hv => (h₂.2 v hv).trans (Function.update_of_ne hv _ _)⟩, h₃, h₄, ?_⟩
    rw [slots_cons (by omega) hy, List.foldl_cons]
    exact h₅

/-! ## `PickTask` -/

/-- The top of the batch is taken. -/
theorem take_alone (hpc : s.pc w = .take) (hk : s.batchCount w = k + 1) :
    ∃ t, Alone w s t ∧ ∀ x, s.batch w k = some x → t.current w = some x := by
  let t := (s.setCount w k).picked w (s.batch w k)
  have hst : s.access w (s.pc w) = some t := by
    rw [hpc, State.access, hk, Nat.add_sub_cancel]
  have hpc' : t.pc w = .out := by
    show ((s.setCount w k).picked w (s.batch w k)).pc w = .out
    cases s.batch w k <;> exact Function.update_self ..
  refine ⟨t, .cons hst (.refl hpc'), fun x hx => ?_⟩
  show ((s.setCount w k).picked w (s.batch w k)).current w = some x
  rw [hx]
  exact Function.update_self ..

/-- `PopMultiple` pops a task. -/
theorem fill_snoc {y : T} (hpc : s.pc w = .fill k) (hq : Holds (s.queue w) (xs ++ [y])) :
    ∃ u, s.access w (s.pc w) = some u ∧ Holds (u.queue w) xs ∧ u.batch w k = some y ∧
      (k + 1 < BATCH_SIZE → u.pc w = .fill (k + 1)) ∧
      (¬k + 1 < BATCH_SIZE → u.pc w = .take ∧ u.batchCount w = k + 1) := by
  obtain ⟨hy, hrest⟩ := hq.pop_snoc
  have hpop : (s.queue w).pop = ((s.queue w).pop.1, some y) := Prod.ext rfl hy
  let s' := (s.setQueue w (s.queue w).pop.1).setBatch w k (some y)
  have hqueue : s'.queue w = (s.queue w).pop.1 := Function.update_self ..
  have hbatch : s'.batch w k = some y := by simp [s', State.setBatch]
  by_cases hk : k + 1 < BATCH_SIZE
  · refine ⟨s'.goto w (.fill (k + 1)), ?_, hqueue ▸ hrest, hbatch, fun _ => Function.update_self ..,
      fun h => absurd hk h⟩
    rw [hpc, State.access, hpop]
    simp only [if_pos hk]
    rfl
  · refine ⟨(s'.setCount w (k + 1)).goto w .take, ?_, hqueue ▸ hrest, hbatch, fun h => absurd h hk,
      fun _ => ⟨Function.update_self .., Function.update_self ..⟩⟩
    rw [hpc, State.access, hpop]
    simp only [if_neg hk]
    rfl

/-- `PopMultiple` finds the queue empty after it has popped a task. -/
theorem fill_nil {a : T} (hpc : s.pc w = .fill (k + 1)) (ha : s.batch w k = some a) (hq : Holds (s.queue w) []) :
    ∃ t, Alone w s t ∧ t.current w = some a := by
  let u := ((s.setQueue w (s.queue w)).setCount w (k + 1)).goto w .take
  have hst : s.access w (s.pc w) = some u := by
    rw [hpc, State.access, hq.pop_nil]
    simp only [if_pos (Nat.succ_pos k)]
    rfl
  obtain ⟨t, ht, hcur⟩ := take_alone (s := u) (w := w) (k := k) (Function.update_self ..) (Function.update_self ..)
  exact ⟨t, .cons hst ht, hcur a ha⟩

/-- `PopMultiple` after it has popped a task: the last task that it pops comes out. -/
theorem fill_alone (d : ℕ) {a : T} (hk : k + 1 + d + 1 = BATCH_SIZE) (hpc : s.pc w = .fill (k + 1))
    (ha : s.batch w k = some a) (hq : Holds (s.queue w) ys) :
    ∃ t, Alone w s t ∧ t.current w = (a :: ys.reverse.take (d + 1)).getLast? := by
  induction d generalizing s k a ys with
  | zero =>
    obtain rfl | ⟨zs, y, rfl⟩ := List.eq_nil_or_concat' ys
    · exact fill_nil hpc ha hq
    · obtain ⟨u, hst, -, hy, -, hfull⟩ := fill_snoc hpc hq
      obtain ⟨hpc', hcount⟩ := hfull (by omega)
      obtain ⟨t, ht, hcur⟩ := take_alone hpc' hcount
      exact ⟨t, .cons hst ht, by simpa using hcur y hy⟩
  | succ d ih =>
    obtain rfl | ⟨zs, y, rfl⟩ := List.eq_nil_or_concat' ys
    · exact fill_nil hpc ha hq
    · obtain ⟨u, hst, hq', hy, hmore, -⟩ := fill_snoc hpc hq
      obtain ⟨t, ht, hcur⟩ := ih (by omega) (hmore (by omega)) hy hq'
      refine ⟨t, .cons hst ht, ?_⟩
      rw [hcur, List.reverse_append, List.reverse_singleton, List.singleton_append, List.take_succ_cons,
        List.getLast?_cons_cons]

/-- The local queue is not empty: at most eight tasks are popped, and the oldest of them comes out. -/
theorem local_alone (hpc : s.pc w = .fill 0) (hq : Holds (s.queue w) ys) (hne : ys ≠ []) :
    ∃ t, Alone w s t ∧ t.current w = (ys.reverse.take BATCH_SIZE).getLast? := by
  obtain ⟨zs, y, rfl⟩ := (List.eq_nil_or_concat' ys).resolve_left hne
  obtain ⟨u, hst, hq', hy, hmore, -⟩ := fill_snoc hpc hq
  obtain ⟨t, ht, hcur⟩ := fill_alone 6 rfl (hmore (by decide)) hy hq'
  refine ⟨t, .cons hst ht, ?_⟩
  rw [hcur, List.reverse_append, List.reverse_singleton, List.singleton_append]
  rfl

/-! ## Elsewhere -/

omit [DecidableEq T] in
/-- No task in the shards. -/
theorem popShards_none {shards : Int → List T} : ∀ {order : List Int},
    popShards shards order = none → ∀ i ∈ order, shards i = []
  | [], _, i, hi => by cases hi
  | j :: order, h, i, hi => by
    cases hj : shards j with
    | nil =>
      simp only [popShards, hj] at h
      obtain rfl | hi := List.mem_cons.mp hi
      · exact hj
      · exact popShards_none h i hi
    | cons y q =>
      simp only [popShards, hj] at h
      cases h

omit [DecidableEq T] in
theorem mem_popOrder_iff {i : Int} : i ∈ popOrder w ↔ 0 ≤ i ∧ i < n := by
  refine ⟨mem_popOrder, fun ⟨h0, hn⟩ => ?_⟩
  obtain ⟨k, rfl⟩ := Int.eq_ofNat_of_zero_le h0
  by_cases hk : (k : Int) = w
  · exact List.mem_cons.mpr (.inl hk)
  · refine List.mem_cons_of_mem _ (List.mem_filter.mpr ⟨List.mem_map.mpr ⟨k, ?_, rfl⟩, decide_eq_true hk⟩)
    exact List.mem_range.mpr (by exact_mod_cast hn)

/-- Every worker is among the victims. -/
theorem exists_victim (w v : Fin n) : ∃ j < n, victim w j = v := by
  have hn : 0 < n := w.pos
  have ha : (w + 1) % n < n := Nat.mod_lt _ hn
  refine ⟨(v + (n - (w + 1) % n)) % n, Nat.mod_lt _ hn, Fin.ext ?_⟩
  show ((w + 1) % n + (v + (n - (w + 1) % n)) % n) % n = v
  have harith : (w + 1) % n + (v + (n - (w + 1) % n)) = v + n := by omega
  rw [Nat.add_mod_mod, harith, Nat.add_mod_right, Nat.mod_eq_of_lt v.isLt]

/-- An attempt to steal: there is nothing to take, or a task is taken. -/
theorem steal_step (hpc : s.pc w = .steal i) (hring : ∀ v, ∃ xs, Holds (s.queue v) xs) :
    s.access w (s.pc w) = some (s.nextSteal w i) ∧ (victim w i ≠ w → s.at (.window (victim w i)) = []) ∨
      ∃ u x, s.access w (s.pc w) = some u ∧ u.pc w = .out ∧ u.current w = some x ∧ victim w i ≠ w ∧
        x ∈ s.at (.window (victim w i)) := by
  rw [hpc, State.access]
  by_cases hv : victim w i = w
  · exact .inl ⟨by rw [if_pos hv], fun hne => absurd hv hne⟩
  · obtain ⟨xs, hxs⟩ := hring (victim w i)
    have hat : s.at (.window (victim w i)) = xs := window_of_holds hxs
    cases xs with
    | nil =>
      have hself : s.setQueue (victim w i) (s.queue (victim w i)) = s := by
        rw [State.setQueue, Function.update_eq_self]
      refine .inl ⟨?_, fun _ => hat⟩
      rw [if_neg hv, hxs.steal_nil]
      simp only [hself]
    | cons x xs =>
      obtain ⟨hx, -⟩ := hxs.steal_cons
      have hsteal : (s.queue (victim w i)).steal = ((s.queue (victim w i)).steal.1, some x) := Prod.ext rfl hx
      refine .inr ⟨_, x, by rw [if_neg hv, hsteal], Function.update_self .., Function.update_self .., hv, ?_⟩
      rw [hat]
      exact List.mem_cons_self

/-- The worker goes through the victims from attempt `i` on: it takes a task from one of them, or they have none. -/
theorem steal_alone (d : ℕ) (hd : i + d + 1 = 2 * n) (hpc : s.pc w = .steal i)
    (hring : ∀ v, ∃ xs, Holds (s.queue v) xs) :
    ∃ t, Alone w s t ∧ ((∃ v x, v ≠ w ∧ x ∈ s.at (.window v) ∧ t.current w = some x) ∨
      t.current w = s.current w ∧ ∀ j, i ≤ j → j < 2 * n → victim w j ≠ w → s.at (.window (victim w j)) = []) := by
  induction d generalizing s i with
  | zero =>
    obtain ⟨hst, hnone⟩ | ⟨u, x, hst, hout, hcur, hv, hx⟩ := steal_step hpc hring
    · have hlast : s.nextSteal w i = s.goto w .out := if_neg (by omega)
      refine ⟨_, .cons (hst.trans (congrArg some hlast)) (.refl (Function.update_self ..)), .inr ⟨rfl, ?_⟩⟩
      intro j hij hj
      obtain rfl : j = i := by omega
      exact hnone
    · exact ⟨u, .cons hst (.refl hout), .inl ⟨_, x, hv, hx, hcur⟩⟩
  | succ d ih =>
    obtain ⟨hst, hnone⟩ | ⟨u, x, hst, hout, hcur, hv, hx⟩ := steal_step hpc hring
    · have hmore : s.nextSteal w i = s.goto w (.steal (i + 1)) := if_pos (by omega)
      obtain ⟨t, ht, hcase⟩ :=
        ih (s := s.goto w (.steal (i + 1))) (i := i + 1) (by omega) (Function.update_self ..) hring
      refine ⟨t, .cons (hst.trans (congrArg some hmore)) ht, hcase.imp_right fun ⟨hcur, hrest⟩ => ⟨hcur, ?_⟩⟩
      intro j hij hj hv
      obtain rfl | hlt := Nat.eq_or_lt_of_le hij
      · exact hnone hv
      · exact hrest j hlt hj hv
    · exact ⟨u, .cons hst (.refl hout), .inl ⟨_, x, hv, hx, hcur⟩⟩

/-- `PickTask` with nothing in the batch and in the local queue: it takes a task from outside if there is one. -/
theorem outside_alone (hpc : s.pc w = .global) (hring : ∀ v, ∃ xs, Holds (s.queue v) xs) :
    ∃ t, Alone w s t ∧ ((∃ x, Outside s w x ∧ t.current w = some x) ∨
      t.current w = s.current w ∧ ∀ x, ¬Outside s w x) := by
  cases hpop : popShards s.shards (popOrder w) with
  | some r =>
    obtain ⟨x, shards⟩ := r
    obtain ⟨i, hi, q, hq, -⟩ := popShards_some hpop
    have hat : s.at (.shard i) = x :: q := (if_pos (mem_popOrder hi)).trans hq
    have hst : s.access w (s.pc w) = some ({ s with shards := shards }.picked w (some x)) := by
      rw [hpc, State.access, hpop]
    refine ⟨_, .cons hst (.refl (Function.update_self ..)), .inl ⟨x, .inl ⟨i, ?_⟩, Function.update_self ..⟩⟩
    rw [hat]
    exact List.mem_cons_self
  | none =>
    have hshards : ∀ i x, x ∉ s.at (.shard i) := by
      intro i x
      simp only [State.at]
      split_ifs with hi
      · rw [popShards_none hpop i (mem_popOrder_iff.mpr hi)]
        exact List.not_mem_nil
      · exact List.not_mem_nil
    have hst : s.access w (s.pc w) = some (if n ≤ 1 then s.picked w none else s.goto w (.steal 0)) := by
      rw [hpc, State.access, hpop]
    by_cases hn : n ≤ 1
    · rw [if_pos hn] at hst
      refine ⟨_, .cons hst (.refl (Function.update_self ..)), .inr ⟨rfl, ?_⟩⟩
      rintro x (⟨i, hi⟩ | ⟨v, hv, -⟩)
      · exact hshards i x hi
      · exact hv (Fin.ext (by omega))
    · rw [if_neg hn] at hst
      obtain ⟨t, ht, hcase⟩ :=
        steal_alone (s := s.goto w (.steal 0)) (2 * n - 1) (by omega) (Function.update_self ..) hring
      refine ⟨t, .cons hst ht, ?_⟩
      obtain ⟨v, x, hv, hx, hcur⟩ | ⟨hcur, hnone⟩ := hcase
      · exact .inl ⟨x, .inr ⟨v, hv, hx⟩, hcur⟩
      · refine .inr ⟨hcur, ?_⟩
        rintro x (⟨i, hi⟩ | ⟨v, hv, hx⟩)
        · exact hshards i x hi
        · obtain ⟨j, hj, rfl⟩ := exists_victim w v
          have hnil : s.at (.window (victim w j)) = [] := hnone j (Nat.zero_le j) (by omega) hv
          rw [hnil] at hx
          cases hx

/-! ## `YieldCurrent` and `PickTask` -/

omit [DecidableEq T] in
theorem slots_length {b : ℕ → Option T} (hb : ∀ j < k, (b j).isSome) : (slots b 0 k).length = k := by
  induction k with
  | zero => rw [slots_nil le_rfl, List.length_nil]
  | succ k ih =>
    obtain ⟨x, hx⟩ := Option.isSome_iff_exists.mp (hb k (Nat.lt_succ_self k))
    rw [slots_snoc (Nat.zero_le k) hx, List.length_append, ih fun j hj => hb j (by omega), List.length_singleton]

/-- The batch does not become full: the task itself comes out. -/
theorem Running.next_short (h : Running s w task) (hne : ¬(s.batchCount w = 0 ∧ (s.queue w).empty))
    (hk : s.batchCount w + 1 < BATCH_SIZE) : ∃ t, Next w s t ∧ t.current w = some task := by
  let s₁ := { ((s.setBatch w (s.batchCount w) (some task)).setCount w (s.batchCount w + 1)).setWaiting task true with
    current := Function.update s.current w none }.goto w .out
  have hyield : step s (.yield w) = some s₁ := by
    simp only [step, h.current, if_pos (And.intro h.out h.waiting), State.yield, if_neg hne,
      if_neg (Nat.not_le.mpr hk)]
    rfl
  have hpc : s₁.pc w = .out := Function.update_self ..
  have hcur : s₁.current w = none := Function.update_self ..
  have hcount : s₁.batchCount w = s.batchCount w + 1 := Function.update_self ..
  have hbatch : s₁.batch w (s.batchCount w) = some task := by
    show Function.update s.batch w (Function.update (s.batch w) (s.batchCount w) (some task)) w (s.batchCount w) = _
    rw [Function.update_self, Function.update_self]
  have hpick : step s₁ (.pick w) = some (s₁.goto w .take) := by
    have hpos : 0 < s₁.batchCount w := by omega
    simp only [step, if_pos (And.intro hpc hcur), if_pos hpos]
  obtain ⟨t, ht, hx⟩ := take_alone (s := s₁.goto w .take) (Function.update_self ..) hcount
  exact ⟨t, ⟨s₁, s₁, _, hyield, .refl hpc, hpick, ht⟩, hx task hbatch⟩

/-- The batch becomes full: it is flushed and `PopMultiple` starts. -/
theorem Running.next_full (h : Running s w task) (hk : s.batchCount w + 1 = BATCH_SIZE) (hq : Holds (s.queue w) xs) :
    ∃ u, (∀ t, Alone w u t → Next w s t) ∧ u.pc w = .fill 0 ∧ u.current w = none ∧ Frame w s u ∧
      Holds (u.queue w) ((s.at (.batch w) ++ [task]).foldl pushed xs) := by
  have hne : ¬(s.batchCount w = 0 ∧ (s.queue w).empty) := by
    rintro ⟨h0, -⟩
    rw [h0] at hk
    cases hk
  let s₁ := { ((s.setBatch w (s.batchCount w) (some task)).setCount w (s.batchCount w + 1)).setWaiting task true with
    current := Function.update s.current w none }.goto w (.flush 0)
  have hyield : step s (.yield w) = some s₁ := by
    simp only [step, h.current, if_pos (And.intro h.out h.waiting), State.yield, if_neg hne, if_pos hk.ge]
    rfl
  have hcount : s₁.batchCount w = s.batchCount w + 1 := Function.update_self ..
  have hbatch : s₁.batch w = Function.update (s.batch w) (s.batchCount w) (some task) := Function.update_self ..
  have hsome : ∀ j < s₁.batchCount w, (s₁.batch w j).isSome := by
    intro j hj
    rw [hbatch]
    by_cases hjk : j = s.batchCount w
    · rw [hjk, Function.update_self]
      rfl
    · rw [Function.update_of_ne hjk]
      exact h.batch.2 j (by omega)
  have hslots : slots (s₁.batch w) 0 (s₁.batchCount w) = s.at (.batch w) ++ [task] := by
    rw [hbatch, hcount, slots_snoc (Nat.zero_le _) (Function.update_self ..), slots_update le_rfl]
    exact congrArg (· ++ [task]) (stored_out h.out).symm
  obtain ⟨s₂, h₁, h₂, h₃, h₄, h₅⟩ := flush_alone (s := s₁) (s.batchCount w) (by omega)
    (Function.update_self ..) hq hsome
  have hcur : s₂.current w = none := by
    rw [h₃]
    exact Function.update_self ..
  have hpick : step s₂ (.pick w) = some (s₂.goto w (.fill 0)) := by
    have hout : s₂.pc w = .out := h₁.choose_spec.2
    simp only [step, if_pos (And.intro hout hcur), if_neg (show ¬0 < s₂.batchCount w by omega)]
  exact ⟨s₂.goto w (.fill 0), fun t ht => ⟨s₁, s₂, _, hyield, h₁, hpick, ht⟩, Function.update_self .., hcur, h₂,
    hslots ▸ h₅⟩

omit [DecidableEq T] in
/-- The oldest of the last eight tasks. -/
theorem oldest (xs : List T) {l : List T} (hl : l.length = BATCH_SIZE) :
    ((xs ++ l).reverse.take BATCH_SIZE).getLast? = l.head? := by
  rw [List.reverse_append, List.take_left' (by rw [List.length_reverse, hl]), List.getLast?_reverse]

omit [DecidableEq T] in
/-- The oldest of at most eight tasks. -/
theorem oldest_short {l : List T} (hl : l.length ≤ BATCH_SIZE) :
    (l.reverse.take BATCH_SIZE).getLast? = l.head? := by
  rw [List.take_of_length_le (by rw [List.length_reverse]; exact hl), List.getLast?_reverse]

/-- With an empty local queue after the flush, the worker looks outside. -/
theorem Running.next_outside (h : Running s w task) (hk : s.batchCount w + 1 = BATCH_SIZE) (hq : Holds (s.queue w) xs)
    (hnil : (s.at (.batch w) ++ [task]).foldl pushed xs = []) : GivesWay s w task ↔ ∃ x, Outside s w x := by
  obtain ⟨u, hnext, hpc, hcur, ⟨hshards, hqueue⟩, hu⟩ := h.next_full hk hq
  rw [hnil] at hu
  let u' := u.goto w .global
  have hself : u.setQueue w (u.queue w) = u := by rw [State.setQueue, Function.update_eq_self]
  have hst : u.access w (u.pc w) = some u' := by
    rw [hpc, State.access, hu.pop_nil]
    simp only [Nat.lt_irrefl, if_false, hself]
    rfl
  have hout : ∀ x, Outside u' w x ↔ Outside s w x := by
    intro x
    have hshard : ∀ i, u'.at (.shard i) = s.at (.shard i) := fun i => by
      simp only [State.at]
      rw [← hshards]
      rfl
    have hwindow : ∀ v, v ≠ w → u'.at (.window v) = s.at (.window v) := fun v hv => by
      simp only [State.at]
      rw [← hqueue v hv]
      rfl
    refine or_congr (exists_congr fun i => by rw [hshard]) (exists_congr fun v => and_congr_right fun hv => ?_)
    rw [hwindow v hv]
  have hring : ∀ v, ∃ xs, Holds (u'.queue v) xs := by
    intro v
    by_cases hv : v = w
    · exact hv ▸ ⟨[], hu⟩
    · rw [show u'.queue v = s.queue v from hqueue v hv]
      exact h.ring v
  obtain ⟨t, ht, hcase⟩ := outside_alone (s := u') (Function.update_self ..) hring
  rw [givesWay_iff (hnext t (.cons hst ht))]
  obtain ⟨x, hx, hcur'⟩ | ⟨hcur', hnone⟩ := hcase
  · have hxs := (hout x).mp hx
    refine iff_of_true ⟨x, hcur', ?_⟩ ⟨x, hxs⟩
    rintro rfl
    obtain ⟨i, hi⟩ | ⟨v, -, hv⟩ := hxs
    · exact h.apart _ hi
    · exact h.apart _ hv
  · refine iff_of_false ?_ ?_
    · rintro ⟨x, hx, -⟩
      rw [hcur', show u'.current w = none from hcur] at hx
      cases hx
    · rintro ⟨x, hx⟩
      exact hnone x ((hout x).mpr hx)

/-- An older task of the batch comes out of the local queue. -/
theorem Running.next_older (h : Running s w task) (hk : s.batchCount w + 1 = BATCH_SIZE) (hq : Holds (s.queue w) xs)
    (hys : (s.at (.batch w) ++ [task]).foldl pushed xs = ys) (hne : ys ≠ []) (hi : i < (s.at (.batch w)).length)
    (hlast : (ys.reverse.take BATCH_SIZE).getLast? = ((s.at (.batch w) ++ [task]).drop i).head?) :
    GivesWay s w task := by
  subst hys
  obtain ⟨u, hnext, hpc, -, -, hu⟩ := h.next_full hk hq
  obtain ⟨t, ht, hcur⟩ := local_alone hpc hu hne
  refine ⟨t, hnext t ht, (s.at (.batch w))[i], ?_, fun he => h.apart (.batch w) (he ▸ List.getElem_mem _)⟩
  rw [hcur, hlast, List.head?_drop, List.getElem?_append_left hi, List.getElem?_eq_getElem]

/-- With nothing but itself in the local queue after the flush, the task is picked again. -/
theorem Running.next_itself (h : Running s w task) (hk : s.batchCount w + 1 = BATCH_SIZE) (hq : Holds (s.queue w) xs)
    (hone : (s.at (.batch w) ++ [task]).foldl pushed xs = [task]) : ¬GivesWay s w task := by
  obtain ⟨u, hnext, hpc, -, -, hu⟩ := h.next_full hk hq
  rw [hone] at hu
  obtain ⟨t, ht, hcur⟩ := local_alone hpc hu (List.cons_ne_nil _ _)
  exact (hnext t ht).not_givesWay hcur

/-- **When a task that yields gives way**: the batch becomes full with it, and then the local queue neither holds only
this task nor is empty with nothing to take outside. -/
theorem gives_way_iff (s : State n T) (w : Fin n) (task : T) (h : Running s w task)
    (hother : ∃ x, x ≠ task ∧ (x ∈ s.at (.batch w) ∨ x ∈ s.at (.window w))) :
    GivesWay s w task ↔ GivesWayWhen s w := by
  obtain ⟨xs, hxs⟩ := h.ring w
  have hwindow : s.at (.window w) = xs := window_of_holds hxs
  have hbatch : s.at (.batch w) = slots (s.batch w) 0 (s.batchCount w) := stored_out h.out
  have hlen : (s.at (.batch w)).length = s.batchCount w := by rw [hbatch, slots_length h.batch.2]
  have hm : (s.queue w).window.length = xs.length := by rw [hxs.window, List.length_map]
  have hmlt : xs.length < CAPACITY := by
    obtain ⟨-, -, -, hlt, -⟩ := hxs
    exact hlt
  have hne : ¬(s.batchCount w = 0 ∧ (s.queue w).empty) := by
    rintro ⟨h0, hempty⟩
    rw [List.eq_nil_of_length_eq_zero (hlen.trans h0), hwindow,
      hxs.empty_iff.mp (beq_iff_eq.mp hempty)] at hother
    obtain ⟨x, -, hx | hx⟩ := hother <;> cases hx
  obtain hk | hk : s.batchCount w + 1 < BATCH_SIZE ∨ s.batchCount w + 1 = BATCH_SIZE := by
    have := h.batch.1
    omega
  · obtain ⟨t, ht, hcur⟩ := h.next_short hne hk
    exact iff_of_false (ht.not_givesWay hcur) fun hwhen => hk.ne hwhen.1
  · have hl : (s.at (.batch w) ++ [task]).length = BATCH_SIZE := by
      rw [List.length_append, hlen, List.length_singleton, hk]
    have hseven : (s.at (.batch w)).length = 7 := by
      have : BATCH_SIZE = 8 := rfl
      omega
    have hcap : CAPACITY = 1024 := rfl
    rw [GivesWayWhen, hm, and_iff_right hk]
    obtain hlt | hge := Nat.lt_or_ge (xs.length + 8) CAPACITY
    · refine iff_of_true (h.next_older (i := 0) hk hxs (foldl_pushed (by rw [hl]; exact hlt)) (by simp) (by omega) ?_)
        ⟨by omega, fun he => absurd he hlt.ne⟩
      rw [oldest xs hl, List.drop_zero]
    · have hdrop := foldl_pushed_full hmlt (by rw [hl]; decide) (by rw [hl]; exact hge)
      obtain heq | heq | hmore : xs.length = 1016 ∨ xs.length = 1017 ∨ 1018 ≤ xs.length := by omega
      · -- the last push has emptied the local queue
        have hnil : (s.at (.batch w) ++ [task]).foldl pushed xs = [] := by
          rw [hdrop, heq, hcap]
          exact List.drop_eq_nil_of_le hl.le
        rw [h.next_outside hk hxs hnil]
        exact ⟨fun hx => ⟨by omega, fun _ => hx⟩, fun hw => hw.2 (by omega)⟩
      · -- the last push but one has
        have hone : (s.at (.batch w) ++ [task]).foldl pushed xs = [task] := by
          rw [hdrop, heq, hcap, List.drop_append_of_le_length (by omega), List.drop_eq_nil_of_le (by omega),
            List.nil_append]
        exact iff_of_false (h.next_itself hk hxs hone) fun hw => hw.1 (by omega)
      · refine iff_of_true (h.next_older (i := CAPACITY - xs.length) hk hxs hdrop ?_ (by omega) ?_) ⟨by omega, by omega⟩
        · refine List.ne_nil_of_length_pos ?_
          rw [List.length_drop, hl]
          have : BATCH_SIZE = 8 := rfl
          omega
        · exact oldest_short (by rw [List.length_drop, hl]; omega)

/-! ## Runs -/

/-- Task 9 submits tasks 10 to 17 to its worker and finishes, and the worker picks task 10. -/
def fullRun : List (Label 1 ℕ) :=
  List.flatten [[.submit 9, .pick 0, .worker 0, .worker 0], (List.range' 10 8).map (.submitLocal 0),
    [.finish 0, .pick 0], List.replicate 9 (.worker 0)]

/-- Task 10 runs, tasks 11 to 17 are in the batch: the one on top of the batch is next. -/
theorem gives_way_full : ∃ s : State 1 ℕ, s.current 0 = some 10 ∧ s.batchCount 0 = 7 ∧ GivesWay s 0 10 := by
  have hrun : (exec (system 1 ℕ) .start fullRun).any fun s => s.current 0 = some 10 ∧ s.pc 0 = .out ∧
      s.waiting 10 = false ∧ s.batchCount 0 = 7 ∧ (s.queue 0).window.length = 0 ∧ 17 ∈ s.at (.batch 0) := by
    decide +kernel
  have hok : execOk (system 1 ℕ) (fun s l => roomy s l = true) .start fullRun = true := by decide +kernel
  obtain ⟨s, hs, hcur, hout, hwait, hcount, hlen, hmem⟩ := of_exec_any hrun
  have h : Inv s := inv_of_reach (reach_exec (M := system 1 ℕ) not_overfull (.init rfl) hs hok)
  refine ⟨s, hcur, hcount, ?_⟩
  rw [gives_way_iff s 0 10 (h.running hcur hout hwait) ⟨17, by decide, .inl hmem⟩]
  exact ⟨by rw [hcount]; rfl, by rw [hlen]; decide, fun he => absurd he (by rw [hlen]; decide)⟩

/-- **The task that yields runs again**: task 9 is running, task 7 is in the worker's local queue, and after task 9 has
yielded `PickTask` returns task 9. -/
theorem yields_to_itself : ∃ s : State 1 ℕ, Reachable (system 1 ℕ) s ∧ Running s 0 9 ∧ 7 ∈ s.at (.window 0) ∧
    ¬GivesWay s 0 9 := by
  have hrun : ∃ s, exec (system 1 ℕ) .start [.submit 9, .pick 0, .worker 0, .worker 0, .submitLocal 0 7] = some s ∧
      execOk (system 1 ℕ) (fun s l => roomy s l = true) .start
        [.submit 9, .pick 0, .worker 0, .worker 0, .submitLocal 0 7] = true ∧
      s.current 0 = some 9 ∧ s.pc 0 = .out ∧ s.waiting 9 = false ∧ s.batchCount 0 = 0 ∧
      (s.queue 0).empty = false ∧ 7 ∈ s.at (.window 0) := by
    refine ⟨_, rfl, ?_⟩
    decide +kernel
  obtain ⟨s, hs, hok, hcur, hout, hwait, hcount, hne, hmem⟩ := hrun
  have hreach := reach_exec (M := system 1 ℕ) not_overfull (.init rfl) hs hok
  have hr := (inv_of_reach hreach).running hcur hout hwait
  obtain ⟨t, ht, hback⟩ := hr.next_short (fun h => by rw [hne] at h; cases h.2) (by rw [hcount]; decide)
  refine ⟨s, hreach.reachable, hr, hmem, ?_⟩
  rw [givesWay_iff ht]
  rintro ⟨x, hx, hx9⟩
  exact hx9 (Option.some.inj (hx.symm.trans hback))

end Cothread.RunQueues
