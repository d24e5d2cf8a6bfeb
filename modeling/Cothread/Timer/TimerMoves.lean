import Cothread.Timer.TimerSteps

/-!
# What a step of the timers can do

Every step is one of the moves of the steps before, or leaves the entries and the timers as they are
(`step_moves`). So in every reachable state an entry is in one place (`owned_reach`), and the timers are in their phases
while there are fewer than `2 ^ 31` of them (`inv_reach`).
-/

namespace Cothread.Timer

open Run Places

variable {P E C : Type*} [DecidableEq P] [DecidableEq E] {n : ℕ} {s t : State P E C} {phase : Int → Phase P E} {p : P}
  {e : E} {i : Int}

inductive Moves (n : ℕ) (s : State P E C) : State P E C → Prop
  -- what the local values say stays right
  | still {t : State P E C} : Still s t → (s.shardAssign < 2 ^ 31 → t.shardAssign < 2 ^ 31) →
      (∀ q, (t.pc q).bind Pc.holds = (s.pc q).bind Pc.holds) →
      (∀ q, (t.pc q).bind Pc.filled = (s.pc q).bind Pc.filled) →
      (∀ q, (t.pc q).bind Pc.calls = (s.pc q).bind Pc.calls) →
      ((∀ q pc, s.pc q = some pc → s.Ok n pc) → ∀ q pc, t.pc q = some pc → s.pc q = some pc ∨ t.Ok n pc) → Moves n s t
  | acquire {p : P} {e : E} {callback : C} {deadline : Int} : s.pc p = some (.acquire callback deadline) →
      s.free e = true →
      Moves n s ({ s with free := Function.update s.free e false }.goto p (some (.fill e callback deadline)))
  | fill {p : P} {e : E} {callback : C} {deadline : Int} : s.pc p = some (.fill e callback deadline) →
      Moves n s ({ s with
        entry := Function.update s.entry e ⟨callback, deadline, s.nextId, false⟩
        nextId := wrap32 (s.nextId + 1)
        timer := Function.update s.timer s.nextId (some (callback, deadline)) }.goto p (some (.assign e s.nextId)))
  | insert {p : P} {e : E} {id i : Int} : s.pc p = some (.insert e id i) →
      Moves n s ((s.insert i e).goto p (some (.ret e id)))
  | mark {p : P} {e : E} {i id : Int} {known : Bool} {j : Int} : s.pc p = some (.scan id known j) →
      e ∈ (s.shard i).heap → (s.entry e).id = id →
      Moves n s ((s.mark e).goto p (some (.cancelled id known true)))
  | reap {p : P} {i : Int} {outer : Option (Int × Int)} {now : Int} {e : E} {rest : List E} :
      s.pc p = some (.process i outer (.loop now)) → (s.shard i).heap = e :: rest → (s.entry e).cancelled = true →
      Moves n s ((s.setShard i { s.shard i with heap := BinaryHeap.pop s.deadline (s.shard i).heap }).release e)
  | take {p : P} {i : Int} {outer : Option (Int × Int)} {now : Int} {e : E} {rest : List E} (front : Int) :
      s.pc p = some (.process i outer (.loop now)) → (s.shard i).heap = e :: rest → (s.entry e).cancelled = false →
      s.deadline e ≤ now →
      Moves n s (((s.setShard i ⟨false, BinaryHeap.pop s.deadline (s.shard i).heap, front⟩).release e).goto p
        (some (.process i outer (.call now (s.entry e).id (s.entry e).callback))))
  | start {p : P} {i : Int} {outer : Option (Int × Int)} {now id : Int} {callback : C} :
      s.pc p = some (.process i outer (.call now id callback)) →
      Moves n s ({ s with started := Function.update s.started id ((callback, s.clock) :: s.started id) }.goto p
        (some (.process i outer (.lock now))))

/-- **Every move keeps the entries in their places.** -/
theorem State.Owned.moves (h : s.Owned) (hm : Moves n s t) : t.Owned := by
  have hheap : ∀ (sh : Shard E) (i j : Int), j ≠ i → ((s.setShard i sh).shard j).heap = (s.shard j).heap :=
    fun sh i j hj => congrArg _ (s.setShard_of_ne sh hj)
  cases hm with
  | still hs hassign hholds hfilled hcalls hok => exact h.stay hs.free hs.heap hholds
  | acquire hp hfree => exact h.acquire hp hfree
  | fill hp => exact h.stay rfl (fun _ => rfl) (bind_update rfl (by rw [hp]; rfl))
  | insert hp => exact h.insert hp
  | mark hp he hid => exact h.stay rfl (fun _ => rfl) (bind_update rfl (by rw [hp]; rfl))
  | @reap p i outer now e rest hp hh hc =>
    refine h.remove ?_ (hheap _ i) rfl fun _ => rfl
    show (s.shard i).heap.Perm (e :: ((s.setShard i _).shard i).heap)
    rw [s.setShard_self]
    exact pop_perm hh
  | @take p i outer now e rest front hp hh hc hdue =>
    refine h.remove ?_ (hheap _ i) rfl (bind_update rfl (by rw [hp]; rfl))
    show (s.shard i).heap.Perm (e :: ((s.setShard i _).shard i).heap)
    rw [s.setShard_self]
    exact pop_perm hh
  | start hp => exact h.stay rfl (fun _ => rfl) (bind_update rfl (by rw [hp]; rfl))

/-- **Every move keeps the invariant** while no counter overflows. -/
theorem Inv.moves (h : Inv n s phase) (hm : Moves n s t) (hfew : t.Few) : ∃ phase', Inv n t phase' := by
  obtain ⟨hid0, hid, -, hassign⟩ := h.ids
  cases hm with
  | still hs hlt hholds hfilled hcalls hok =>
    exact ⟨_, h.still hs ⟨hfew.2, hlt hassign⟩ hholds hfilled hcalls (hok h.ok)⟩
  | acquire hp hfree => exact ⟨_, h.acquire hp hfree⟩
  | fill hp => exact ⟨_, h.fill hp (of_wrap32_nonneg (by omega) hfew.1)⟩
  | insert hp => exact ⟨_, h.insert hp⟩
  | mark hp he hid => exact ⟨_, h.mark he hp hid⟩
  | reap hp hh hc => exact ⟨_, h.reap hp hh hc⟩
  | take front hp hh hc hdue => exact ⟨_, h.take hp hh hc hdue front⟩
  | start hp => exact ⟨_, h.start hp⟩

/-- A thread goes on, and nothing moves. -/
theorem Moves.goto {c : Option (Pc E C)} (hs : Still s t) (hassign : s.shardAssign < 2 ^ 31 → t.shardAssign < 2 ^ 31)
    (hpc : t.pc = Function.update s.pc p c) (hholds : c.bind Pc.holds = (s.pc p).bind Pc.holds)
    (hfilled : c.bind Pc.filled = (s.pc p).bind Pc.filled) (hcalls : c.bind Pc.calls = (s.pc p).bind Pc.calls)
    (hok : (∀ q pc, s.pc q = some pc → s.Ok n pc) → ∀ pc, c = some pc → t.Ok n pc) : Moves n s t := by
  refine .still hs hassign (bind_update hpc hholds) (bind_update hpc hfilled) (bind_update hpc hcalls)
    fun hall q pc hq => ?_
  obtain ⟨-, hq⟩ | ⟨-, hq⟩ := pc_cases hpc hq
  · exact Or.inr (hok hall pc hq)
  · exact Or.inl hq

omit [DecidableEq P] [DecidableEq E] in
theorem filled_none {c : Option (Pc E C)} (h : c.bind Pc.holds = none) : c.bind Pc.filled = none := by
  cases c with
  | none => rfl
  | some pc =>
    cases hf : pc.filled with
    | none => exact hf
    | some e => exact absurd (Pc.holds_of_filled hf) (by rw [show pc.holds = none from h]; nofun)

/-- A thread that holds no entry and calls no callback goes on. -/
theorem Moves.idle {c : Option (Pc E C)} (hs : Still s t) (hassign : t.shardAssign = s.shardAssign)
    (hpc : t.pc = Function.update s.pc p c) (hold : (s.pc p).bind Pc.holds = none)
    (hcall : (s.pc p).bind Pc.calls = none) (hholds : c.bind Pc.holds = none) (hcalls : c.bind Pc.calls = none)
    (hok : (∀ q pc, s.pc q = some pc → s.Ok n pc) → ∀ pc, c = some pc → t.Ok n pc) : Moves n s t :=
  .goto hs (fun hlt => hassign ▸ hlt) hpc (hholds.trans hold.symm) ((filled_none hholds).trans (filled_none hold).symm)
    (hcalls.trans hcall.symm) hok

omit [DecidableEq E] in
theorem Still.goto (h : Still s t) (c : Option (Pc E C)) : Still s (t.goto p c) :=
  ⟨h.1, h.2, h.3, h.4, h.5, h.6, h.7, h.8⟩

omit [DecidableEq P] [DecidableEq E] in
theorem Still.refl (s : State P E C) : Still s s := ⟨le_rfl, rfl, rfl, fun _ => rfl, rfl, rfl, rfl, rfl⟩

omit [DecidableEq P] [DecidableEq E] in
/-- A mutex or a cached deadline changes. -/
theorem Still.setShard {sh : Shard E} (hsh : sh.heap = (s.shard i).heap) : Still s (s.setShard i sh) := by
  refine ⟨le_rfl, rfl, rfl, fun j => ?_, rfl, rfl, rfl, rfl⟩
  by_cases hj : j = i
  · subst hj
    rw [State.setShard_self, hsh]
  · rw [s.setShard_of_ne _ hj]

theorem Moves.processLoop {outer : Option (Int × Int)} {now : Int}
    (hp : s.pc p = some (.process i outer (.loop now))) : Moves n s (s.processLoop p i outer now) := by
  have hdone : ∀ sh : Shard E, sh.heap = (s.shard i).heap → Moves n s ((s.setShard i sh).processed p i outer) := by
    intro sh hsh
    refine .idle ((Still.setShard hsh).goto _) rfl rfl (by rw [hp]; rfl) (by rw [hp]; rfl) ?_ ?_ fun _ pc hpc => ?_
    · cases outer <;> rfl
    · cases outer <;> rfl
    · obtain ⟨o, -, rfl⟩ := Option.map_eq_some_iff.mp hpc
      trivial
  unfold State.processLoop
  split
  · exact hdone _ rfl
  · next e rest hh =>
    dsimp only
    split_ifs with hdue hc
    · exact .reap hp hh hc
    · exact .take _ hp hh (Bool.not_eq_true _ ▸ hc) hdue
    · exact hdone _ rfl

theorem Moves.processStep {outer : Option (Int × Int)} {pc : ProcessPc C}
    (hp : s.pc p = some (.process i outer pc)) (hst : s.processStep p i outer pc = some t) : Moves n s t := by
  cases pc with
  | clock =>
    simp only [State.processStep, Option.some.injEq] at hst
    subst hst
    refine .idle ((Still.refl s).goto _) rfl rfl (by rw [hp]; rfl) (by rw [hp]; rfl) rfl rfl fun _ pc hpc => ?_
    cases hpc
    exact le_refl s.clock
  | lock now =>
    simp only [State.processStep, Option.ite_none_left_eq_some, Option.some.injEq] at hst
    obtain ⟨-, rfl⟩ := hst
    have hstill : Still s (s.setShard i { s.shard i with locked := true }) := .setShard rfl
    refine .idle (hstill.goto _) rfl rfl (by rw [hp]; rfl) (by rw [hp]; rfl) rfl rfl fun hall pc hpc => ?_
    cases hpc
    exact hall p _ hp
  | loop now =>
    cases hst
    exact .processLoop hp
  | call now id callback =>
    cases hst
    exact .start hp

theorem Moves.access {pc : Pc E C} (hp : s.pc p = some pc) (hst : s.access n p pc = some t) : Moves n s t := by
  -- a step that changes nothing but the thread's next step, to one of no consequence
  have hgoto : ∀ c : Option (Pc E C), pc.holds = none → pc.calls = none → c.bind Pc.holds = none →
      c.bind Pc.calls = none → (∀ pc, c = some pc → s.Ok n pc) → Moves n s (s.goto p c) :=
    fun c hold hcall hholds hcalls hok => .idle ((Still.refl s).goto _) rfl rfl (by rw [hp]; exact hold)
      (by rw [hp]; exact hcall) hholds hcalls fun _ => hok
  cases pc with
  | acquire callback deadline | asleep since til => cases hst
  | fill e callback deadline =>
    cases hst
    exact .fill hp
  | assign e id =>
    simp only [State.access, Option.ite_none_right_eq_some, Option.some.injEq] at hst
    obtain ⟨h0, rfl⟩ := hst
    refine .goto ⟨le_rfl, rfl, rfl, fun _ => rfl, rfl, rfl, rfl, rfl⟩ (fun _ => wrap32_lt _) rfl (by rw [hp]; rfl)
      (by rw [hp]; rfl) (by rw [hp]; rfl) fun hall pc hpc => ?_
    cases hpc
    obtain ⟨hid, hn⟩ := hall p _ hp
    exact ⟨hid, h0, Int.tmod_lt_of_pos _ (by omega)⟩
  | insert e id i =>
    simp only [State.access, Option.ite_none_left_eq_some, Option.some.injEq] at hst
    obtain ⟨-, rfl⟩ := hst
    exact .insert hp
  | ret e id =>
    simp only [State.access, Option.some.injEq] at hst
    subst hst
    exact .idle ⟨le_rfl, rfl, rfl, fun _ => rfl, rfl, rfl, rfl, rfl⟩ rfl rfl (by rw [hp]; rfl) (by rw [hp]; rfl) rfl rfl
      nofun
  | scan id known i =>
    rw [State.access] at hst
    split_ifs at hst
    · cases hst
      cases hfind : (s.shard i).heap.find? fun e => (s.entry e).id = id with
      | none => exact hgoto _ rfl rfl rfl rfl fun pc hpc => by cases hpc; trivial
      | some e =>
        have hid := List.find?_some hfind
        exact .mark hp (List.mem_of_find?_eq_some hfind) (of_decide_eq_true hid)
    · cases hst
      exact hgoto _ rfl rfl rfl rfl fun pc hpc => by cases hpc; trivial
  | cancelled id known r =>
    cases hst
    exact hgoto _ rfl rfl rfl rfl nofun
  | process i outer pc => exact .processStep hp hst
  | mainClock | mainReload i now m | mainSleep now m =>
    cases hst
    exact hgoto _ rfl rfl rfl rfl fun pc hpc => by cases hpc; trivial
  | mainLoad i now m =>
    cases hst
    dsimp only
    split_ifs <;> exact hgoto _ rfl rfl rfl rfl fun pc hpc => by cases hpc; trivial

/-- **What a step does** is one of the moves. -/
theorem step_moves {l : Label P E C} (hst : step n s l = some t) : Moves n s t := by
  have hgoto : ∀ {p : P} {c : Pc E C}, s.pc p = none → c.holds = none → c.calls = none → s.Ok n c →
      Moves n s (s.goto p (some c)) := fun hp hholds hcalls hok =>
    .idle ((Still.refl s).goto _) rfl rfl (by rw [hp]; rfl) (by rw [hp]; rfl) hholds hcalls
      fun _ pc hpc => Option.some.inj hpc ▸ hok
  cases l with
  | tick d =>
    cases hst
    exact .still ⟨le_add_of_nonneg_right (Int.natCast_nonneg d), rfl, rfl, fun _ => rfl, rfl, rfl, rfl, rfl⟩ id
      (fun _ => rfl) (fun _ => rfl) (fun _ => rfl) fun _ q pc hq => Or.inl hq
  | schedule p callback sec nsec =>
    simp only [step, Option.ite_none_right_eq_some, Option.isNone_iff_eq_none, Option.some.injEq] at hst
    obtain ⟨⟨hp, hn⟩, rfl⟩ := hst
    exact hgoto hp rfl rfl hn
  | cancel p id =>
    simp only [step, Option.ite_none_right_eq_some, Option.isNone_iff_eq_none, Option.some.injEq] at hst
    obtain ⟨hp, rfl⟩ := hst
    exact hgoto hp rfl rfl trivial
  | process p i =>
    simp only [step, Option.ite_none_right_eq_some, Option.isNone_iff_eq_none, Option.some.injEq] at hst
    obtain ⟨⟨hp, -⟩, rfl⟩ := hst
    exact hgoto hp rfl rfl trivial
  | main p =>
    simp only [step, Option.ite_none_right_eq_some, Option.isNone_iff_eq_none, Option.some.injEq] at hst
    obtain ⟨hp, rfl⟩ := hst
    exact hgoto hp rfl rfl trivial
  | acquire p e =>
    rw [step] at hst
    split at hst
    next callback deadline hp =>
      simp only [Option.ite_none_right_eq_some, Option.some.injEq] at hst
      obtain ⟨hfree, rfl⟩ := hst
      exact .acquire hp hfree
    · cases hst
  | thread p =>
    obtain ⟨pc, hp, hst⟩ := Option.bind_eq_some_iff.mp hst
    exact .access hp hst
  | wake p =>
    rw [step] at hst
    split at hst
    next since til hp =>
      cases hst
      exact .idle ((Still.refl s).goto _) rfl rfl (by rw [hp]; rfl) (by rw [hp]; rfl) rfl rfl
        fun _ pc hpc => by cases hpc; trivial
    · cases hst

omit [DecidableEq P] in
theorem owned_start (clock : Int) (entry : E → Entry C) : (State.start clock entry : State P E C).Owned := by
  refine fun e => Once.insert (c := fun _ => 0) (b := .pool) (fun _ => rfl) le_rfl fun x hx => ?_
  cases x with
  | pool => exact absurd rfl hx
  | thread p => exact le_rfl
  | heap i => exact le_rfl

/-- **In every reachable state** an entry is in one place. -/
theorem owned_reach {s : State P E C} (hs : Reachable (timers n P E C) s) : s.Owned := by
  refine hs.invariant (I := State.Owned) (fun s h0 => ?_) fun s t l h _ hst => h.moves (step_moves hst)
  obtain ⟨clock, entry, rfl⟩ := h0
  exact owned_start clock entry

omit [DecidableEq P] in
theorem inv_start (clock : Int) (entry : E → Entry C) : Inv n (.start clock entry : State P E C) fun _ => .unborn := by
  have hunfilled : ∀ e, ¬(State.start clock entry : State P E C).Filled e := by
    rintro e (⟨i, hi⟩ | ⟨p, hp⟩)
    · cases hi
    · cases hp
  refine ⟨owned_start clock entry, fun _ => ⟨rfl, rfl⟩, fun e he => absurd he (hunfilled e), nofun, fun _ _ => rfl, ?_,
    nofun, nofun⟩
  show (0 : Int) ≤ 0 ∧ (0 : Int) < 2 ^ 31 ∧ (0 : Int) ≤ 0 ∧ (0 : Int) < 2 ^ 31
  decide

/-- **Every reachable state** has its timers in their phases. -/
theorem inv_reach {s : State P E C} (hs : Reachable (system n P E C) s) : ∃ phase, Inv n s phase := by
  refine hs.invariant (I := fun s => ∃ phase, Inv n s phase) (fun s h0 => ?_) fun s t l h _ hst => ?_
  · obtain ⟨clock, entry, rfl⟩ := h0
    exact ⟨_, inv_start clock entry⟩
  · obtain ⟨phase, h⟩ := h
    obtain ⟨hst, hfew⟩ := System.step_within.mp hst
    exact h.moves (step_moves hst) hfew

end Cothread.Timer
