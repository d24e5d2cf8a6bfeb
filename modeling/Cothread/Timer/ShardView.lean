import Cothread.Timer.OneShard
import Cothread.Timer.TimerMoves

/-!
# The shards of the interleaved model

Whatever the threads do, a step is at most one critical section, or one turn of `ProcessShard`, of a shard
(`step_section`). So each shard runs as in the model of one shard (`sim_shard`), and all heaps and cached deadlines are
sound in every run, whoever calls `ProcessShard` (`shards_sound`).
-/

namespace Cothread.Timer

open Run

variable {P E C : Type*} [DecidableEq P] [DecidableEq E] {n : ℕ} {s t : State P E C} {v : OneShard.State E C} {i : Int}
  {p : P} {now : Int}

/-- The thread is in the loop of `ProcessShard`, with the mutex of the shard. -/
def State.Loops (s : State P E C) (i : Int) (p : P) (now : Int) : Prop :=
  ∃ outer, s.pc p = some (.process i outer (.loop now))

/-- **What a step does to a shard**. -/
inductive Section (i : Int) (s : State P E C) : State P E C → Prop
  | quiet {t : State P E C} : t.shard i = s.shard i → t.entry = s.entry → (∀ p now, t.Loops i p now → s.Loops i p now) →
      Section i s t
  | write {t : State P E C} {e : E} {x : Entry C} : e ∉ (s.shard i).heap → t.shard i = s.shard i →
      t.entry = Function.update s.entry e x → (∀ p now, t.Loops i p now → s.Loops i p now) → Section i s t
  | schedule {p : P} {e : E} {id : Int} : s.pc p = some (.insert e id i) → (s.shard i).locked = false →
      Section i s ((s.insert i e).goto p (some (.ret e id)))
  | cancel {p : P} {id : Int} {known : Bool} {e : E} : s.pc p = some (.scan id known i) → (s.shard i).locked = false →
      ((s.shard i).heap.find? fun e => (s.entry e).id = id) = some e →
      Section i s ((s.mark e).goto p (some (.cancelled id known true)))
  | lock {p : P} {outer : Option (Int × Int)} {now : Int} : s.pc p = some (.process i outer (.lock now)) →
      (s.shard i).locked = false → Section i s ((s.setShard i { s.shard i with locked := true }).goto p
        (some (.process i outer (.loop now))))
  | turn {p : P} {outer : Option (Int × Int)} {now : Int} : s.pc p = some (.process i outer (.loop now)) →
      Section i s (s.processLoop p i outer now)

omit [DecidableEq E] in
/-- A thread that has gone on, and is not in the loop. -/
theorem loops_of_goto {c : Option (Pc E C)} (hpc : t.pc = Function.update s.pc p c)
    (hc : ∀ outer now, c ≠ some (.process i outer (.loop now))) (q : P) (now : Int) (h : t.Loops i q now) :
    s.Loops i q now := by
  obtain ⟨outer, hq⟩ := h
  obtain ⟨-, rfl⟩ | ⟨-, hq⟩ := pc_cases hpc hq
  · exact absurd rfl (hc outer now)
  · exact ⟨outer, hq⟩

omit [DecidableEq P] in
/-- An entry that a `Schedule` holds is in no heap. -/
theorem State.Owned.notMem (h : s.Owned) {e : E} (hp : (s.pc p).bind Pc.holds = some e) (i : Int) :
    e ∉ (s.shard i).heap := by
  intro he
  have hthread : 0 < s.count e (.thread p) := by
    rw [State.count, if_pos hp]
    exact one_pos
  have hheap : 0 < s.count e (.heap i) := List.count_pos_iff.mpr he
  exact absurd ((h e).unique hthread hheap) (by simp)

omit [DecidableEq P] in
/-- An entry is in one heap. -/
theorem State.Owned.notMem_heap (h : s.Owned) {e : E} {j : Int} (he : e ∈ (s.shard j).heap) (hj : i ≠ j) :
    e ∉ (s.shard i).heap := by
  intro hi
  have hheap : 0 < s.count e (.heap j) := List.count_pos_iff.mpr he
  have hheap' : 0 < s.count e (.heap i) := List.count_pos_iff.mpr hi
  cases (h e).unique hheap hheap'
  exact hj rfl

/-- A turn writes to its shard only. The thread keeps the mutex and goes on, or it ends, or it runs a callback. -/
theorem processLoop_cases (s : State P E C) (p : P) (j : Int) (outer : Option (Int × Int)) (now : Int) :
    (s.processLoop p j outer now).entry = s.entry ∧
      ∃ sh, (s.processLoop p j outer now).shard = Function.update s.shard j sh ∧
        ((s.processLoop p j outer now).pc = s.pc ∧ sh.locked = (s.shard j).locked ∨
          ∃ c, (s.processLoop p j outer now).pc = Function.update s.pc p c ∧
            (c = (outer.map fun o => .mainReload j o.1 o.2) ∨
              ∃ id callback, c = some (.process j outer (.call now id callback)))) := by
  unfold State.processLoop
  split
  · exact ⟨rfl, _, rfl, Or.inr ⟨_, rfl, Or.inl rfl⟩⟩
  · dsimp only
    split_ifs
    · exact ⟨rfl, _, rfl, Or.inl ⟨rfl, rfl⟩⟩
    · exact ⟨rfl, _, rfl, Or.inr ⟨_, rfl, Or.inr ⟨_, _, rfl⟩⟩⟩
    · exact ⟨rfl, _, rfl, Or.inr ⟨_, rfl, Or.inl rfl⟩⟩

omit [DecidableEq E] in
/-- So a thread that gives the mutex back is not in a loop. -/
theorem loops_of_processLoop {j : Int} {outer : Option (Int × Int)} {c : Option (Pc E C)}
    (hpc : t.pc = Function.update s.pc p c) (hc : c = (outer.map fun o => .mainReload j o.1 o.2) ∨
      ∃ id callback, c = some (.process j outer (.call now id callback))) {q : P} {now' : Int}
    (h : t.Loops i q now') : q ≠ p ∧ s.Loops i q now' := by
  obtain ⟨outer', hq⟩ := h
  obtain ⟨-, rfl⟩ | ⟨hne, hq⟩ := pc_cases hpc hq
  · obtain hc | ⟨_, _, ⟨⟩⟩ := hc
    cases outer <;> cases hc
  · exact ⟨hne, outer', hq⟩

/-- A turn of a thread is a turn of the shard. -/
theorem processLoop_shard {j : Int} (outer : Option (Int × Int)) (hentry : v.entry = s.entry)
    (hshard : v.shard = s.shard j) (hlocked : (s.shard j).locked = true) :
    (s.processLoop p j outer v.now).shard j = v.process.shard := by
  obtain ⟨entry, shard, now, scheduled, gone⟩ := v
  obtain rfl : entry = s.entry := hentry
  obtain rfl : shard = s.shard j := hshard
  unfold State.processLoop
  split
  case h_1 hheap =>
    rw [OneShard.process_nil hheap]
    refine (s.setShard_self j _).trans ?_
    rw [hheap]
  case h_2 e heap hheap =>
    cases hdue : due s.entry now e with
    | false =>
      have hlate : ¬s.deadline e ≤ now := of_decide_eq_false hdue
      rw [OneShard.process_early hheap hdue]
      dsimp only
      rw [if_neg hlate]
      refine (s.setShard_self j _).trans ?_
      rw [hheap]
      rfl
    | true =>
      have hle : s.deadline e ≤ now := of_decide_eq_true hdue
      cases hc : (s.entry e).cancelled with
      | true =>
        rw [OneShard.process_reap hheap hdue hc]
        dsimp only
        rw [if_pos hle, if_pos rfl]
        refine (s.setShard_self j _).trans ?_
        rw [hheap, hlocked]
        rfl
      | false =>
        rw [OneShard.process_take hheap hdue hc]
        dsimp only
        rw [if_pos hle, if_neg Bool.false_ne_true, front_eq]
        refine (s.setShard_self j _).trans ?_
        rw [hheap]
        rfl

theorem Section.process {outer : Option (Int × Int)} {j : Int} (i : Int) {pc : ProcessPc C}
    (hp : s.pc p = some (.process j outer pc)) (hst : s.processStep p j outer pc = some t) : Section i s t := by
  cases pc with
  | clock =>
    cases hst
    exact .quiet rfl rfl (loops_of_goto rfl nofun)
  | lock now =>
    obtain ⟨hfree, hst⟩ := Option.ite_none_left_eq_some.mp hst
    cases hst
    by_cases hj : j = i
    · subst hj
      exact .lock hp (Bool.eq_false_of_not_eq_true hfree)
    · refine .quiet (s.setShard_of_ne _ (Ne.symm hj)) rfl (loops_of_goto rfl ?_)
      rintro _ _ ⟨⟩
      exact hj rfl
  | loop now =>
    cases hst
    by_cases hj : j = i
    · subst hj
      exact .turn hp
    · obtain ⟨hentry, sh, hshard, hpc⟩ := processLoop_cases s p j outer now
      refine .quiet ?_ hentry ?_
      · rw [hshard, Function.update_of_ne (Ne.symm hj)]
      · obtain ⟨hpc, -⟩ | ⟨c, hpc, hc⟩ := hpc
        · intro q now' hq
          unfold State.Loops at hq ⊢
          rwa [hpc] at hq
        · exact fun q now' hq => (loops_of_processLoop hpc hc hq).2
  | call now id callback =>
    cases hst
    exact .quiet rfl rfl (loops_of_goto rfl nofun)

theorem Section.access (hown : s.Owned) (i : Int) {pc : Pc E C} (hp : s.pc p = some pc)
    (hst : s.access n p pc = some t) : Section i s t := by
  cases pc with
  | acquire callback deadline | asleep since til => cases hst
  | fill e callback deadline =>
    cases hst
    have hholds : (s.pc p).bind Pc.holds = some e := by rw [hp]; rfl
    exact .write (hown.notMem hholds i) rfl rfl (loops_of_goto rfl (by simp))
  | assign e id =>
    obtain ⟨-, hst⟩ := Option.ite_none_right_eq_some.mp hst
    cases hst
    exact .quiet rfl rfl (loops_of_goto rfl (by simp))
  | insert e id j =>
    obtain ⟨hfree, hst⟩ := Option.ite_none_left_eq_some.mp hst
    cases hst
    by_cases hj : j = i
    · subst hj
      exact .schedule hp (Bool.eq_false_of_not_eq_true hfree)
    · exact .quiet (s.setShard_of_ne _ (Ne.symm hj)) rfl (loops_of_goto rfl (by simp))
  | scan id known j =>
    rw [State.access] at hst
    split_ifs at hst with hlast hlocked
    · cases hst
      cases hfind : (s.shard j).heap.find? fun e => (s.entry e).id = id with
      | none => exact .quiet rfl rfl (loops_of_goto rfl (by simp))
      | some e =>
        by_cases hj : j = i
        · subst hj
          exact .cancel hp (Bool.eq_false_of_not_eq_true hlocked) hfind
        · exact .write (hown.notMem_heap (List.mem_of_find?_eq_some hfind) (Ne.symm hj)) rfl rfl
            (loops_of_goto rfl (by simp))
    · cases hst
      exact .quiet rfl rfl (loops_of_goto rfl (by simp))
  | process j outer pc => exact .process i hp hst
  | ret e id | cancelled id known r | mainClock | mainReload j now m | mainSleep now m =>
    cases hst
    exact .quiet rfl rfl (loops_of_goto rfl (by simp))
  | mainLoad j now m =>
    cases hst
    dsimp only
    split_ifs <;> refine .quiet rfl rfl (loops_of_goto rfl fun outer now hc => ?_) <;> cases hc

theorem step_section (hown : s.Owned) (i : Int) {l : Label P E C} (hst : step n s l = some t) : Section i s t := by
  cases l with
  | tick d =>
    cases hst
    exact .quiet rfl rfl fun _ _ h => h
  | schedule p callback sec nsec | process p j =>
    obtain ⟨-, hst⟩ := Option.ite_none_right_eq_some.mp hst
    cases hst
    exact .quiet rfl rfl (loops_of_goto rfl (by simp))
  | cancel p id | main p =>
    obtain ⟨-, hst⟩ := Option.ite_none_right_eq_some.mp hst
    cases hst
    exact .quiet rfl rfl (loops_of_goto rfl (by simp))
  | acquire p e =>
    rw [step] at hst
    split at hst
    · obtain ⟨-, hst⟩ := Option.ite_none_right_eq_some.mp hst
      cases hst
      exact .quiet rfl rfl (loops_of_goto rfl (by simp))
    · cases hst
  | thread p =>
    obtain ⟨pc, hp, hst⟩ := Option.bind_eq_some_iff.mp hst
    exact .access hown i hp hst
  | wake p =>
    rw [step] at hst
    split at hst
    · cases hst
      exact .quiet rfl rfl (loops_of_goto rfl (by simp))
    · cases hst

/-! ## The simulation -/

/-- The shard in a state of all threads: at most one thread has its mutex for `ProcessShard`. -/
structure View (i : Int) (s : State P E C) (v : OneShard.State E C) : Prop where
  own : s.Owned
  entry : v.entry = s.entry
  shard : v.shard = s.shard i
  loops : ∀ p now, s.Loops i p now → (s.shard i).locked = true ∧ v.now = now
  alone : ∀ p q now now', s.Loops i p now → s.Loops i q now' → p = q

omit [DecidableEq P] in
/-- No thread has come into the loop. -/
theorem View.still {v' : OneShard.State E C} (h : View i s v) (hown : t.Owned) (hentry : v'.entry = t.entry)
    (hshard : v'.shard = t.shard i) (hlocked : (t.shard i).locked = (s.shard i).locked) (hnow : v'.now = v.now)
    (hloops : ∀ p now, t.Loops i p now → s.Loops i p now) : View i t v' := by
  constructor
  case own => exact hown
  case entry => exact hentry
  case shard => exact hshard
  case loops =>
    intro p now hp
    obtain ⟨hlock, heq⟩ := h.loops p now (hloops p now hp)
    exact ⟨hlocked.trans hlock, hnow.trans heq⟩
  case alone =>
    intro p q now now' hp hq
    exact h.alone p q now now' (hloops p now hp) (hloops q now' hq)

/-- A thread takes the mutex for `ProcessShard`. -/
theorem View.lock {outer : Option (Int × Int)} (h : View i s v)
    (hown : ((s.setShard i { s.shard i with locked := true }).goto p (some (.process i outer (.loop now)))).Owned)
    (hfree : (s.shard i).locked = false) :
    View i ((s.setShard i { s.shard i with locked := true }).goto p (some (.process i outer (.loop now))))
      { v with shard := { v.shard with locked := true }, now := now } := by
  set t := (s.setShard i { s.shard i with locked := true }).goto p (some (.process i outer (.loop now))) with ht
  have hpc : t.pc = Function.update s.pc p (some (.process i outer (.loop now))) := rfl
  have hshard : t.shard i = { s.shard i with locked := true } := s.setShard_self i _
  -- nobody else is in the loop, since the mutex was free
  have honly : ∀ q now', t.Loops i q now' → q = p ∧ now' = now := by
    rintro q now' ⟨outer', hq⟩
    obtain ⟨rfl, ⟨⟩⟩ | ⟨-, hq⟩ := pc_cases hpc hq
    · exact ⟨rfl, rfl⟩
    · exact absurd ((h.loops q now' ⟨outer', hq⟩).1.symm.trans hfree) nofun
  constructor
  case own => exact hown
  case entry => exact h.entry
  case shard => rw [hshard, h.shard]
  case loops =>
    intro q now' hq
    obtain ⟨-, rfl⟩ := honly q now' hq
    exact ⟨congrArg Shard.locked hshard, rfl⟩
  case alone =>
    intro q q' now₁ now₂ hq hq'
    rw [(honly q now₁ hq).1, (honly q' now₂ hq').1]

/-- A thread goes once round the loop. -/
theorem View.turn {outer : Option (Int × Int)} (h : View i s v) (hown : (s.processLoop p i outer v.now).Owned)
    (hp : s.pc p = some (.process i outer (.loop v.now))) :
    View i (s.processLoop p i outer v.now) v.process := by
  obtain ⟨hlocked, -⟩ := h.loops p v.now ⟨outer, hp⟩
  obtain ⟨hentry, sh, hshard, hpc⟩ := processLoop_cases s p i outer v.now
  obtain ⟨hentry', hnow'⟩ := OneShard.process_frame v
  have hsame := processLoop_shard (p := p) outer h.entry h.shard hlocked
  have hloops : ∀ q now, (s.processLoop p i outer v.now).Loops i q now →
      s.Loops i q now ∧ sh.locked = (s.shard i).locked := by
    intro q now hq
    obtain ⟨hpc, hkeeps⟩ | ⟨c, hpc, hc⟩ := hpc
    · unfold State.Loops at hq
      rw [hpc] at hq
      exact ⟨hq, hkeeps⟩
    · obtain ⟨hne, hq⟩ := loops_of_processLoop hpc hc hq
      exact absurd (h.alone q p now v.now hq ⟨outer, hp⟩) hne
  constructor
  case own => exact hown
  case entry => rw [hentry', hentry, h.entry]
  case shard => exact hsame.symm
  case loops =>
    intro q now hq
    obtain ⟨hq, hkeeps⟩ := hloops q now hq
    obtain ⟨hlock, heq⟩ := h.loops q now hq
    refine ⟨?_, hnow'.trans heq⟩
    rw [hshard, Function.update_self, hkeeps, hlock]
  case alone =>
    intro q q' now now' hq hq'
    exact h.alone q q' now now' (hloops q now hq).1 (hloops q' now' hq').1

/-- **One step** of a thread is at most one of the shard. -/
theorem View.follow (h : View i s v) (hown : t.Owned) (hs : Section i s t) :
    View i t v ∨ ∃ l v', OneShard.step v l = some v' ∧ View i t v' := by
  cases hs with
  | quiet hshard hentry hloops =>
    refine Or.inl (h.still hown ?_ ?_ (congrArg Shard.locked hshard) rfl hloops)
    · rw [h.entry, hentry]
    · rw [h.shard, hshard]
  | @write _ e x he hshard hentry hloops =>
    refine Or.inr ⟨.write e x, v.write e x, ?_, h.still hown ?_ ?_ (congrArg Shard.locked hshard) rfl hloops⟩
    · exact if_neg (h.shard ▸ he)
    · rw [hentry, ← h.entry]
      rfl
    · rw [hshard, ← h.shard]
      rfl
  | @schedule p e id hp hfree =>
    have hholds : (s.pc p).bind Pc.holds = some e := by rw [hp]; rfl
    have hin := h.own.notMem hholds i
    have hshard : ((s.insert i e).goto p (some (.ret e id))).shard i = (v.insert e).shard := by
      refine (s.setShard_self i _).trans ?_
      have hdeadline : s.deadline = v.deadline := by
        funext d
        exact congrArg Entry.deadline (congrFun h.entry.symm d)
      rw [hdeadline, ← h.shard]
      rfl
    refine Or.inr ⟨.schedule e, v.insert e, ?_, h.still hown h.entry hshard.symm ?_ rfl (loops_of_goto rfl nofun)⟩
    · exact if_pos ⟨h.shard ▸ hfree, h.shard ▸ hin⟩
    · rw [hshard, ← h.shard]
      rfl
  | @cancel p id known e hp hfree hfind =>
    have hcancel : v.cancel id = v.write e { v.entry e with cancelled := true } := by
      unfold OneShard.State.cancel
      rw [h.shard, h.entry, hfind]
    refine Or.inr ⟨.cancel id, v.cancel id, ?_, h.still hown ?_ ?_ rfl ?_ (loops_of_goto rfl nofun)⟩
    · exact if_neg (by rw [h.shard, hfree]; exact Bool.false_ne_true)
    · rw [hcancel]
      show Function.update v.entry e { v.entry e with cancelled := true } = _
      rw [h.entry]
      rfl
    · rw [hcancel]
      exact h.shard
    · rw [hcancel]
      rfl
  | @lock p outer now hp hfree =>
    refine Or.inr ⟨.lock now, _, ?_, h.lock hown hfree⟩
    exact if_neg (by rw [h.shard, hfree]; exact Bool.false_ne_true)
  | @turn p outer now hp =>
    obtain ⟨hlocked, rfl⟩ := h.loops p now ⟨outer, hp⟩
    exact Or.inr ⟨.turn, v.process, if_pos (h.shard ▸ hlocked), h.turn hown hp⟩

omit [DecidableEq P] in
theorem view_start (i clock : Int) (entry : E → Entry C) :
    View i (.start clock entry : State P E C) (.start entry) := by
  have hloops : ∀ p now, ¬(State.start clock entry : State P E C).Loops i p now := by
    rintro p now ⟨_, h⟩
    cases h
  exact ⟨owned_start clock entry, rfl, rfl, fun p now hp => absurd hp (hloops p now),
    fun p _ now _ hp => absurd hp (hloops p now)⟩

/-- **Every shard goes through critical sections of the model of one shard.** -/
theorem sim_shard (n : ℕ) (i : Int) : Sim (timers n P E C) (OneShard.system E C) (View i) where
  init := by
    rintro _ ⟨clock, entry, rfl⟩
    exact ⟨.start entry, ⟨entry, rfl⟩, view_start i clock entry⟩
  step := by
    intro s t l v h hst
    have hown : t.Owned := h.own.moves (step_moves hst)
    obtain hview | ⟨l', v', hst', hview⟩ := h.follow hown (step_section h.own i hst)
    · exact ⟨[], v, rfl, hview⟩
    · refine ⟨[l'], v', ?_, hview⟩
      rw [exec_cons]
      exact Option.bind_eq_some_iff.mpr ⟨v', hst', rfl⟩

/-- The heap of a shard is a min-heap, and no deadline in it is before the cached one. -/
structure State.ShardSound (s : State P E C) (i : Int) : Prop where
  ordered : BinaryHeap.Ordered s.deadline (s.shard i).heap
  nodup : (s.shard i).heap.Nodup
  cached : ∀ e ∈ (s.shard i).heap, (s.shard i).nextDeadline ≤ s.deadline e

/-- **All shards are sound**, whoever calls `ProcessShard`. -/
theorem shards_sound (hr : Reachable (timers n P E C) s) (i : Int) : s.ShardSound i := by
  obtain ⟨v, hv, hview⟩ := (sim_shard n i).reachable hr
  have hsound := OneShard.sound_reachable hv
  have hdeadline : v.deadline = s.deadline := by
    funext e
    exact congrArg Entry.deadline (congrFun hview.entry e)
  constructor
  case ordered =>
    rw [← hdeadline, ← hview.shard]
    exact hsound.ordered
  case nodup =>
    rw [← hview.shard]
    exact hsound.nodup
  case cached =>
    rw [← hdeadline, ← hview.shard]
    exact hsound.cached

end Cothread.Timer
