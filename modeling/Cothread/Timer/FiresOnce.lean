import Cothread.Timer.TimerMoves

/-!
# Timers fire at most once, never early, and never when cancelled

In every run the callback of a timer starts at most once, when a clock reading is at least its deadline, and not when
a `Cancel` has marked the timer (`FiredOnce`). `Cancel` answers no only for a reason (`Answered`), in every run in
which `return entry->id` of `Schedule` reads the id that this `Schedule` has given (`Recycled`). The entry can have
been handed out again by then (`not_found_unfired`).
-/

namespace Cothread.Timer

open Run Places

variable {P E C : Type*}

/-- **Once, not early, not when cancelled**; a `Cancel` that answers yes has marked the timer. -/
structure FiredOnce (s : State P E C) : Prop where
  once : ∀ id, (s.started id).length ≤ 1
  due : ∀ id callback c, (callback, c) ∈ s.started id →
    ∃ deadline, s.timer id = some (callback, deadline) ∧ deadline ≤ c
  uncancelled : ∀ id, s.marked id = true → s.started id = []
  yes : ∀ p id known, s.pc p = some (.cancelled id known true) → s.marked id = true

/-- **A `Cancel` that answers no** began before any `Schedule` had returned the id, or the callback was taken for
execution, or another `Cancel` has marked the timer. -/
def Answered (s : State P E C) : Prop :=
  ∀ p id known, s.pc p = some (.cancelled id known false) → known = false ∨ s.Taken id ∨ s.marked id = true

/-- `return entry->id` reads another id than the one that this `Schedule` has given to its timer. -/
def Recycled (s : State P E C) : Label P E C → Prop
  | .thread p => ∃ e id, s.pc p = some (.ret e id) ∧ (s.entry e).id ≠ id
  | _ => False

variable [DecidableEq P] [DecidableEq E] {n : ℕ} {s t : State P E C} {phase : Int → Phase P E} {p : P} {e : E} {i : Int}

omit [DecidableEq P] in
theorem Inv.firedOnce (h : Inv n s phase) : FiredOnce s := by
  have hid : ∀ id, s.started id = [] ∨ s.marked id = false ∧ ∃ callback deadline c,
      s.timer id = some (callback, deadline) ∧ s.started id = [(callback, c)] ∧ deadline ≤ c := by
    intro id
    have hfits := h.fits id
    cases hph : phase id with
    | unborn => rw [hph] at hfits; exact Or.inl hfits.2
    | live e => rw [hph] at hfits; exact Or.inl hfits.2.2.2.2
    | taken p => rw [hph] at hfits; exact Or.inl hfits.2.2
    | started => rw [hph] at hfits; exact Or.inr hfits
    | reaped => rw [hph] at hfits; exact Or.inl hfits.2
  refine ⟨fun id => ?_, fun id callback c hm => ?_, fun id hm => ?_, fun p id known hp => h.ok p _ hp⟩
  · obtain hs | ⟨-, callback, deadline, c, -, hs, -⟩ := hid id
    · rw [hs]
      exact Nat.zero_le 1
    · rw [hs]
      exact le_rfl
  · obtain hs | ⟨-, callback', deadline, c', htimer, hs, hle⟩ := hid id
    · rw [hs] at hm
      cases hm
    · rw [hs, List.mem_singleton] at hm
      cases hm
      exact ⟨deadline, htimer, hle⟩
  · obtain hs | ⟨hmarked, -⟩ := hid id
    · exact hs
    · rw [hmarked] at hm
      cases hm

/-! ## Timers that a `Schedule` has inserted -/

/-- The timer is in a shard from `lo` on, or its callback has been taken, or it has been marked. -/
def State.Settled (s : State P E C) (id lo : Int) : Prop :=
  (∃ i e, lo ≤ i ∧ e ∈ (s.shard i).heap ∧ (s.entry e).id = id) ∨ s.Taken id ∨ s.marked id = true

omit [DecidableEq P] [DecidableEq E] in
theorem State.Settled.mono {id lo hi : Int} (h : s.Settled id lo)
    (hheap : ∀ i e, lo ≤ i → e ∈ (s.shard i).heap → (s.entry e).id = id → t.Settled id hi)
    (htaken : s.Taken id → t.Taken id) (hmarked : s.marked id = true → t.marked id = true) : t.Settled id hi := by
  obtain ⟨i, e, hi, he, hid⟩ | h | h := h
  · exact hheap i e hi he hid
  · exact Or.inr (Or.inl (htaken h))
  · exact Or.inr (Or.inr (hmarked h))

omit [DecidableEq P] [DecidableEq E] in
theorem State.Taken.congr {id : Int} (h : s.Taken id) (hcalls : ∀ q, (t.pc q).bind Pc.calls = (s.pc q).bind Pc.calls)
    (hstarted : t.started = s.started) : t.Taken id := by
  rw [State.Taken, hstarted]
  simp only [hcalls]
  exact h

omit [DecidableEq E] in
/-- A thread that calls no callback takes none away. -/
theorem State.Taken.goto {id : Int} (h : s.Taken id) {c : Option (Pc E C)} (hpc : t.pc = Function.update s.pc p c)
    (hcall : (s.pc p).bind Pc.calls = none) (hstarted : t.started = s.started) : t.Taken id := by
  obtain ⟨q, hq⟩ | hs := h
  · have hqp : q ≠ p := by
      rintro rfl
      cases hcall.symm.trans hq
    exact Or.inl ⟨q, by rw [hpc, Function.update_of_ne hqp, hq]⟩
  · exact Or.inr (by rwa [hstarted])

/-- **A settled timer stays settled.** -/
theorem State.Settled.moves {id lo : Int} (hset : s.Settled id lo) (h : Inv n s phase) (hm : Moves n s t) :
    t.Settled id lo := by
  cases hm with
  | still hs hassign hholds hfilled hcalls hok =>
    refine hset.mono (fun i e hi he hid => Or.inl ⟨i, e, hi, ?_, ?_⟩) (fun ht => ht.congr hcalls hs.started)
      fun hm => ?_
    · rwa [hs.heap]
    · rwa [hs.entry]
    · rwa [hs.marked]
  | acquire hp hfree =>
    exact hset.mono (fun i e hi he hid => Or.inl ⟨i, e, hi, he, hid⟩) (fun ht => ht.goto rfl (by rw [hp]; rfl) rfl)
      fun hm => hm
  | @fill p e callback deadline hp =>
    refine hset.mono (fun i d hi hd hid => Or.inl ⟨i, d, hi, hd, ?_⟩) (fun ht => ht.goto rfl (by rw [hp]; rfl) rfl)
      fun hm => hm
    have hde : d ≠ e := by
      rintro rfl
      exact h.own.unfilled_fill hp (Or.inl ⟨i, hd⟩)
    show (Function.update s.entry e _ d).id = id
    rw [Function.update_of_ne hde]
    exact hid
  | @insert p e id' i hp =>
    refine hset.mono (fun j d hj hd hid => Or.inl ⟨j, d, hj, ?_, hid⟩) (fun ht => ht.goto rfl (by rw [hp]; rfl) rfl)
      fun hm => hm
    by_cases hji : j = i
    · subst hji
      exact heap_insert_perm.mem_iff.mpr (List.mem_cons_of_mem e hd)
    · rwa [State.goto, heap_insert_of_ne hji]
  | @mark p e i id' known j hp he hid' =>
    refine hset.mono (fun i d hi hd hid => Or.inl ⟨i, d, hi, hd, ?_⟩) (fun ht => ht.goto rfl (by rw [hp]; rfl) rfl)
      fun hm => ?_
    · show (Function.update s.entry e _ d).id = id
      by_cases hde : d = e
      · subst hde
        rw [Function.update_self]
        exact hid
      · rw [Function.update_of_ne hde]
        exact hid
    · show Function.update s.marked (s.entry e).id true id = true
      by_cases hie : id = (s.entry e).id
      · rw [hie, Function.update_self]
      · rw [Function.update_of_ne hie]
        exact hm
  | @reap p i outer now e rest hp hh hc =>
    refine hset.mono (fun j d hj hd hid => ?_) (fun ht => ht) fun hm => hm
    by_cases hde : d = e
    · subst hde
      have hmarked := (h.carried (Or.inl ⟨j, hd⟩)).2.1
      rw [hid, hc] at hmarked
      exact Or.inr (Or.inr hmarked)
    · refine Or.inl ⟨j, d, hj, ?_, hid⟩
      refine (mem_heap_remove ?_ (fun k hk => congrArg _ (s.setShard_of_ne _ hk)) hde j).mpr hd
      rw [s.setShard_self]
      exact pop_perm hh
  | @take p i outer now e rest front hp hh hc hdue =>
    refine hset.mono (fun j d hj hd hid => ?_) (fun ht => ht.goto rfl (by rw [hp]; rfl) rfl) fun hm => hm
    by_cases hde : d = e
    · subst hde
      refine Or.inr (Or.inl (Or.inl ⟨p, ?_⟩))
      rw [State.pc_goto, Function.update_self]
      exact congrArg some hid
    · refine Or.inl ⟨j, d, hj, ?_, hid⟩
      refine (mem_heap_remove ?_ (fun k hk => congrArg _ (s.setShard_of_ne _ hk)) hde j).mpr hd
      rw [s.setShard_self]
      exact pop_perm hh
  | @start p i outer now id' callback hp =>
    refine hset.mono (fun j d hj hd hid => Or.inl ⟨j, d, hj, hd, hid⟩) (fun ht => ?_) fun hm => hm
    have hstarted : ∀ k, s.started k ≠ [] ∨ k = id' →
        Function.update s.started id' ((callback, s.clock) :: s.started id') k ≠ [] := by
      intro k hk
      by_cases hkid : k = id'
      · rw [hkid, Function.update_self]
        exact List.cons_ne_nil _ _
      · rw [Function.update_of_ne hkid]
        exact hk.resolve_right hkid
    obtain ⟨q, hq⟩ | hs := ht
    · by_cases hqp : q = p
      · subst hqp
        rw [hp] at hq
        exact Or.inr (hstarted id (Or.inr (Option.some.inj hq).symm))
      · refine Or.inl ⟨q, ?_⟩
        rw [State.pc_goto, Function.update_of_ne hqp]
        exact hq
    · exact Or.inr (hstarted id (Or.inl hs))

/-! ## The ids that a thread or a caller knows -/

/-- The id of a timer that has been inserted when the thread comes here, and the shard from which it is looked for. -/
def Pc.asks (n : ℕ) : Pc E C → Option (Int × Int)
  | .ret _ id => some (id, 0)
  | .scan id true i => some (id, i)
  | .cancelled id true false => some (id, n)
  | _ => none

structure Known (n : ℕ) (s : State P E C) : Prop where
  asks : ∀ p id lo, (s.pc p).bind (Pc.asks n) = some (id, lo) → s.Settled id lo
  returned : ∀ id, s.returned id = true → s.Settled id 0

attribute [local simp] Pc.asks

omit [DecidableEq E] in
/-- A thread goes on, and what it asks for is settled. -/
theorem Known.goto (hk : Known n s) (hmono : ∀ id lo, s.Settled id lo → t.Settled id lo) {c : Option (Pc E C)}
    (hpc : t.pc = Function.update s.pc p c) (hret : ∀ id, t.returned id = true → s.returned id = true ∨ t.Settled id 0)
    (hasks : ∀ id lo, c.bind (Pc.asks n) = some (id, lo) → t.Settled id lo) : Known n t := by
  refine ⟨fun q id lo hq => ?_, fun id hid => ?_⟩
  · rw [hpc] at hq
    by_cases hqp : q = p
    · subst hqp
      rw [Function.update_self] at hq
      exact hasks id lo hq
    · rw [Function.update_of_ne hqp] at hq
      exact hmono id lo (hk.asks q id lo hq)
  · exact (hret id hid).elim (fun hs => hmono id 0 (hk.returned id hs)) fun ht => ht

theorem Known.process (hk : Known n s) {outer : Option (Int × Int)} {pc : ProcessPc C}
    (hp : s.pc p = some (.process i outer pc)) (hst : s.processStep p i outer pc = some t)
    (hmono : ∀ id lo, s.Settled id lo → t.Settled id lo) : Known n t := by
  have hout : ∀ id lo, (outer.map fun o => (.mainReload i o.1 o.2 : Pc E C)).bind (Pc.asks n) ≠ some (id, lo) := by
    cases outer <;> simp
  cases pc with
  | clock | call now id callback =>
    cases hst
    exact hk.goto hmono rfl (fun _ hr => Or.inl hr) (by simp)
  | lock now =>
    simp only [State.processStep, Option.ite_none_left_eq_some, Option.some.injEq] at hst
    obtain ⟨-, rfl⟩ := hst
    exact hk.goto hmono rfl (fun _ hr => Or.inl hr) (by simp)
  | loop now =>
    simp only [State.processStep, State.processLoop, Option.some.injEq] at hst
    split at hst
    · subst hst
      exact hk.goto hmono rfl (fun _ hr => Or.inl hr) fun id lo hasks => absurd hasks (hout id lo)
    · split_ifs at hst
      · subst hst
        exact hk.goto hmono (Function.update_eq_self p s.pc).symm (fun _ hr => Or.inl hr) fun id lo hasks =>
          hmono id lo (hk.asks p id lo hasks)
      · subst hst
        exact hk.goto hmono rfl (fun _ hr => Or.inl hr) (by simp)
      · subst hst
        exact hk.goto hmono rfl (fun _ hr => Or.inl hr) fun id lo hasks => absurd hasks (hout id lo)

theorem Known.access (hk : Known n s) (h : Inv n s phase) (hok : ¬Recycled s (.thread p)) {pc : Pc E C}
    (hp : s.pc p = some pc) (hst : s.access n p pc = some t) (hmono : ∀ id lo, s.Settled id lo → t.Settled id lo) :
    Known n t := by
  cases pc with
  | acquire callback deadline | asleep since til => cases hst
  | fill e callback deadline =>
    cases hst
    exact hk.goto hmono rfl (fun _ hr => Or.inl hr) (by simp)
  | assign e id =>
    simp only [State.access, Option.ite_none_right_eq_some, Option.some.injEq] at hst
    obtain ⟨-, rfl⟩ := hst
    exact hk.goto hmono rfl (fun _ hr => Or.inl hr) (by simp)
  | insert e id i =>
    simp only [State.access, Option.ite_none_left_eq_some, Option.some.injEq] at hst
    obtain ⟨-, rfl⟩ := hst
    obtain ⟨hid, h0, -⟩ := h.ok p _ hp
    refine hk.goto hmono rfl (fun _ hr => Or.inl hr) fun id' lo hasks => ?_
    cases hasks
    exact Or.inl ⟨i, e, h0, heap_insert_perm.mem_iff.mpr List.mem_cons_self, hid⟩
  | ret e id =>
    simp only [State.access, Option.some.injEq] at hst
    subst hst
    -- it returns the id of its own timer
    have hid : (s.entry e).id = id := not_not.mp fun hne => hok ⟨e, id, hp, hne⟩
    have hset := hmono id 0 (hk.asks p id 0 (by rw [hp]; rfl))
    refine hk.goto hmono rfl (fun id' hr => ?_) (by simp)
    by_cases hid' : id' = id
    · exact Or.inr (hid' ▸ hset)
    · refine Or.inl ((Function.update_of_ne ?_ _ _).symm.trans hr)
      rwa [hid]
  | scan id known i =>
    rw [State.access] at hst
    split_ifs at hst with hi
    · cases hst
      cases hfind : (s.shard i).heap.find? fun e => (s.entry e).id = id with
      | some e =>
        simp only [hfind] at hmono ⊢
        refine hk.goto hmono rfl (fun _ hr => Or.inl hr) fun id' lo hasks => ?_
        cases known <;> cases hasks
      | none =>
        simp only [hfind] at hmono ⊢
        refine hk.goto hmono rfl (fun _ hr => Or.inl hr) fun id' lo hasks => ?_
        cases known with
        | false => cases hasks
        | true =>
          cases hasks
          refine (hk.asks p id i (by rw [hp]; rfl)).mono (fun j e hj he hid => Or.inl ⟨j, e, ?_, he, hid⟩)
            (fun ht => ?_) fun hm => hm
          · have hne : j ≠ i := by
              rintro rfl
              have := List.find?_eq_none.mp hfind e he
              exact this (decide_eq_true hid)
            omega
          · exact ht.goto rfl (by rw [hp]; rfl) rfl
    · cases hst
      refine hk.goto hmono rfl (fun _ hr => Or.inl hr) fun id' lo hasks => ?_
      cases known with
      | false => cases hasks
      | true =>
        cases hasks
        refine (hk.asks p id i (by rw [hp]; rfl)).mono (fun j e hj he hid => Or.inl ⟨j, e, by omega, he, hid⟩)
          (fun ht => ?_) fun hm => hm
        exact ht.goto rfl (by rw [hp]; rfl) rfl
  | cancelled id known r =>
    cases hst
    exact hk.goto hmono rfl (fun _ hr => Or.inl hr) (by simp)
  | process i outer pc => exact hk.process hp hst hmono
  | mainClock | mainReload i now m | mainSleep now m =>
    cases hst
    exact hk.goto hmono rfl (fun _ hr => Or.inl hr) (by simp)
  | mainLoad i now m =>
    cases hst
    dsimp only at hmono ⊢
    split_ifs at hmono ⊢ <;> exact hk.goto hmono rfl (fun _ hr => Or.inl hr) (by simp)

theorem Known.step (hk : Known n s) (h : Inv n s phase) {l : Label P E C} (hok : ¬Recycled s l)
    (hst : step n s l = some t) : Known n t := by
  have hmono : ∀ id lo, s.Settled id lo → t.Settled id lo := fun id lo hset => hset.moves h (step_moves hst)
  cases l with
  | tick d =>
    cases hst
    exact ⟨fun p id lo hp => hmono id lo (hk.asks p id lo hp), fun id hid => hmono id 0 (hk.returned id hid)⟩
  | cancel p id =>
    simp only [Timer.step, Option.ite_none_right_eq_some, Option.some.injEq] at hst
    obtain ⟨-, rfl⟩ := hst
    refine hk.goto hmono rfl (fun _ hr => Or.inl hr) fun id' lo hasks => ?_
    cases hret : s.returned id with
    | false =>
      rw [hret] at hasks
      cases hasks
    | true =>
      rw [hret] at hasks hmono
      cases hasks
      exact hmono id 0 (hk.returned id hret)
  | schedule p callback sec nsec | process p i | main p =>
    simp only [Timer.step, Option.ite_none_right_eq_some, Option.some.injEq] at hst
    obtain ⟨-, rfl⟩ := hst
    exact hk.goto hmono rfl (fun _ hr => Or.inl hr) (by simp)
  | acquire p e =>
    rw [Timer.step] at hst
    split at hst
    · simp only [Option.ite_none_right_eq_some, Option.some.injEq] at hst
      obtain ⟨-, rfl⟩ := hst
      exact hk.goto hmono rfl (fun _ hr => Or.inl hr) (by simp)
    · cases hst
  | thread p =>
    obtain ⟨pc, hp, hst⟩ := Option.bind_eq_some_iff.mp hst
    exact hk.access h hok hp hst hmono
  | wake p =>
    rw [Timer.step] at hst
    split at hst
    · cases hst
      exact hk.goto hmono rfl (fun _ hr => Or.inl hr) (by simp)
    · cases hst

omit [DecidableEq P] in
theorem Known.answered (hk : Known n s) (h : Inv n s phase) : Answered s := by
  intro p id known hp
  cases known with
  | false => exact Or.inl rfl
  | true =>
    obtain ⟨i, e, hi, he, -⟩ | hset := hk.asks p id n (by rw [hp]; rfl)
    · exact absurd (h.heaps i e he).2 (not_lt.mpr hi)
    · exact Or.inr hset

/-- **Timers fire at most once, not early and not when cancelled** in every run, and a `Cancel` answers no only for a
reason in every run in which no `Schedule` returns the id of a timer that is not its own. -/
theorem fires_once : (∀ s, Reachable (system n P E C) s → FiredOnce s) ∧
    ∀ s, Reach (system n P E C) (fun s l => ¬Recycled s l) s → FiredOnce s ∧ Answered s := by
  refine ⟨fun s hs => ?_, fun s hs => ?_⟩
  · obtain ⟨phase, h⟩ := inv_reach hs
    exact h.firedOnce
  · have hknown : Known n s := by
      refine hs.invariant_of (fun s hs => inv_reach hs.reachable) (fun s h0 => ?_) fun s t l ⟨phase, h⟩ hk hok hst => ?_
      · obtain ⟨clock, entry, rfl⟩ := h0
        exact ⟨nofun, nofun⟩
      · exact hk.step h hok (System.step_within.mp hst).1
    obtain ⟨phase, h⟩ := inv_reach hs.reachable
    exact ⟨h.firedOnce, hknown.answered h⟩

/-- The entry that is returned has still the id of the call. -/
def returnsOwn (s : State Bool Bool Unit) : Label Bool Bool Unit → Bool
  | .thread p => match s.pc p with
    | some (.ret e id) => (s.entry e).id == id
    | _ => true
  | _ => true

/-- A timer is cancelled and reaped, another one fires, and a `Cancel` of the second comes too late. -/
theorem fires_once_two : ∃ s : State Bool Bool Unit, s.started 1 = [((), 0)] ∧ s.marked 0 = true ∧
    s.pc true = some (.cancelled 1 true false) ∧ FiredOnce s ∧ Answered s := by
  have himp : ∀ s l, returnsOwn s l = true → ¬Recycled s l := by
    intro s l h hr
    cases l with
    | thread p =>
      obtain ⟨e, id, hp, hne⟩ := hr
      simp only [returnsOwn, hp, beq_iff_eq] at h
      exact hne h
    | _ => exact hr
  have hfires := fires_once.2 _ (reach_exec (M := system 1 Bool Bool Unit) himp
    (.init ⟨0, fun _ => ⟨(), 0, 0, false⟩, rfl⟩)
    (show exec (system 1 Bool Bool Unit) (.start 0 _) (.schedule false () 0 0 :: .acquire false false ::
      List.replicate 4 (.thread false) ++ .cancel false 0 :: List.replicate 2 (.thread false) ++
      .schedule false () 0 0 :: .acquire false true :: List.replicate 4 (.thread false) ++ .process false 0 ::
      List.replicate 7 (.thread false) ++ .cancel true 1 :: List.replicate 2 (.thread true)) = some _ from rfl)
    (by decide +kernel))
  exact ⟨_, rfl, rfl, rfl, hfires⟩

/-- **Not found, and not fired**: the entry of the first `Schedule` has fired and been given to a second one when the
first returns `entry->id`, the id of the second timer, which is in no shard yet. `Cancel` of that id answers no. -/
theorem not_found_unfired : ∃ s : State Bool Unit Unit, Reachable (system 1 Bool Unit Unit) s ∧ ¬Answered s := by
  have hrun : (exec (system 1 Bool Unit Unit) (.start 0 fun _ => ⟨(), 0, 0, false⟩)
      (.schedule false () 0 0 :: .acquire false () :: List.replicate 3 (.thread false) ++ .process true 0 ::
      List.replicate 6 (.thread true) ++ .schedule true () 1 0 :: .acquire true () :: .thread true :: .thread false ::
      .cancel false 1 :: List.replicate 2 (.thread false))).any (fun s => decide
        (s.pc false = some (.cancelled 1 true false) ∧ s.pc true = some (.assign () 1) ∧ s.started 1 = [] ∧
          s.marked 1 = false)) = true := by
    decide +kernel
  obtain ⟨s, hs, hcancel, hassign, hstarted, hmarked⟩ := of_exec_any hrun
  have hinit : (system 1 Bool Unit Unit).init (.start 0 fun _ => ⟨(), 0, 0, false⟩) := ⟨0, _, rfl⟩
  refine ⟨s, reachable_exec (.init hinit) hs, fun h => ?_⟩
  obtain hk | (⟨p, hp⟩ | hst) | hm := h false 1 true hcancel
  · cases hk
  · cases p with
    | false =>
      rw [hcancel] at hp
      cases hp
    | true =>
      rw [hassign] at hp
      cases hp
  · exact hst hstarted
  · rw [hmarked] at hm
    cases hm

end Cothread.Timer
