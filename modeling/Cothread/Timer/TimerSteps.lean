import Cothread.Timer.TimerInv

/-!
# Steps that move an entry or a timer

`Acquire` and the insertion move an entry; a timer gets its id (`Inv.fill`), is marked (`Inv.mark`), reaped (`Inv.reap`)
or taken (`Inv.take`), and its callback starts (`Inv.start`). Every other step leaves the entries and the timers as they
are.
-/

namespace Cothread.Timer

open Run Places

variable {P E C : Type*} [DecidableEq P] [DecidableEq E] {n : ℕ} {s t : State P E C} {phase : Int → Phase P E} {p : P}
  {e : E} {i : Int}

section Filled

variable {c : Option (Pc E C)} {d : E}

omit [DecidableEq E] in
theorem filled_congr (hpc : t.pc = Function.update s.pc p c) (hheap : ∀ i, d ∈ (t.shard i).heap ↔ d ∈ (s.shard i).heap)
    (hold : (s.pc p).bind Pc.filled ≠ some d) (hnew : c.bind Pc.filled ≠ some d) : t.Filled d ↔ s.Filled d := by
  refine or_congr (exists_congr hheap) (exists_congr fun q => ?_)
  rw [hpc]
  by_cases hq : q = p
  · subst hq
    rw [Function.update_self]
    exact iff_of_false hnew hold
  · rw [Function.update_of_ne hq]

omit [DecidableEq P] in
/-- The entry that a `Schedule` holds is nobody else's. -/
theorem Inv.ne_of_holds (h : Inv n s phase) (hp : (s.pc p).bind Pc.holds = some e) {q : P} (hq : q ≠ p)
    (hd : (s.pc q).bind Pc.holds = some d) : d ≠ e := by
  rintro rfl
  have hone : ∀ {q}, (s.pc q).bind Pc.holds = some d → 0 < s.count d (.thread q) := fun hq => by
    rw [State.count, if_pos hq]
    exact one_pos
  exact hq (Place.thread.inj ((h.own d).unique (hone hd) (hone hp)))

end Filled

/-! ## Steps of `Schedule` -/

section Schedule

/-- `Acquire` hands out a free entry. -/
theorem State.Owned.acquire (h : s.Owned) {callback : C} {deadline : Int}
    (hp : s.pc p = some (.acquire callback deadline)) (hfree : s.free e = true) :
    ({ s with free := Function.update s.free e false }.goto p (some (.fill e callback deadline))).Owned := by
  set t := { s with free := Function.update s.free e false }.goto p (some (.fill e callback deadline)) with ht
  have hpc : t.pc = Function.update s.pc p (some (.fill e callback deadline)) := rfl
  have hcount : ∀ d x, x ≠ .pool → x ≠ .thread p → t.count d x = s.count d x := by
    intro d x hx hxp
    cases x with
    | pool => exact absurd rfl hx
    | thread q =>
      have hq : q ≠ p := fun hq => hxp (congrArg _ hq)
      rw [State.count, State.count, hpc, Function.update_of_ne hq]
    | heap i => rfl
  refine h.move (e := e) (a := .pool) (b := .thread p) (by simp) ?_ (fun x hx hxp => (hcount e x hx hxp).le)
    fun d hd x => ?_
  · simp [State.count, ht, State.goto, hfree, hp, Pc.holds]
  · by_cases hx : x = .pool
    · subst hx
      simp [State.count, ht, State.goto, hd]
    · by_cases hxp : x = .thread p
      · subst hxp
        simp [State.count, ht, State.goto, Pc.holds, Ne.symm hd]
      · exact (hcount d x hx hxp).le

theorem Inv.acquire (h : Inv n s phase) {callback : C} {deadline : Int}
    (hp : s.pc p = some (.acquire callback deadline)) (hfree : s.free e = true) :
    Inv n ({ s with free := Function.update s.free e false }.goto p (some (.fill e callback deadline))) phase := by
  set t := { s with free := Function.update s.free e false }.goto p (some (.fill e callback deadline))
  have hpc : t.pc = Function.update s.pc p (some (.fill e callback deadline)) := rfl
  have hsame : Same s t := ⟨le_rfl, rfl, rfl, rfl, rfl, rfl, fun d => by
    simp only [State.Filled, bind_update (f := Pc.filled) hpc (by rw [hp]; rfl)]
    rfl⟩
  refine h.same hsame (h.own.acquire hp hfree) h.ids.2.2 (bind_update hpc (by rw [hp]; rfl)) h.heaps fun q pc hq => ?_
  obtain ⟨rfl, ⟨⟩⟩ | ⟨-, hq⟩ := pc_cases hpc hq
  · exact h.ok q _ hp
  · exact hsame.ok (h.ok q pc hq)

omit [DecidableEq P] in
/-- An entry that is about to be filled carries no timer. -/
theorem State.Owned.unfilled_fill (h : s.Owned) {callback : C} {deadline : Int}
    (hp : s.pc p = some (.fill e callback deadline)) : ¬s.Filled e := by
  refine not_filled (h e) (a := .thread p) ?_ nofun fun q hq => ?_
  · rw [State.count, if_pos (by rw [hp]; rfl)]
    exact one_pos
  · cases hq
    rw [hp]
    rfl

/-- **A timer gets its id** and its entry. -/
theorem Inv.fill (h : Inv n s phase) {callback : C} {deadline : Int} (hp : s.pc p = some (.fill e callback deadline))
    (hfew : s.nextId + 1 < 2 ^ 31) :
    Inv n ({ s with
      entry := Function.update s.entry e ⟨callback, deadline, s.nextId, false⟩
      nextId := wrap32 (s.nextId + 1)
      timer := Function.update s.timer s.nextId (some (callback, deadline)) }.goto p (some (.assign e s.nextId)))
      (Function.update phase s.nextId (.live e)) := by
  set t := { s with
    entry := Function.update s.entry e ⟨callback, deadline, s.nextId, false⟩
    nextId := wrap32 (s.nextId + 1)
    timer := Function.update s.timer s.nextId (some (callback, deadline)) }.goto p (some (.assign e s.nextId)) with ht
  obtain ⟨hid0, -, hassign⟩ := h.ids
  have hpc : t.pc = Function.update s.pc p (some (.assign e s.nextId)) := rfl
  have hnext : t.nextId = s.nextId + 1 := wrap32_eq (by omega) hfew
  have hholds : (s.pc p).bind Pc.holds = some e := by rw [hp]; rfl
  have hunborn := h.unborn s.nextId le_rfl
  have hfresh := h.fits s.nextId
  rw [hunborn] at hfresh
  have hunfilled := h.own.unfilled_fill hp
  have hself : t.entry e = ⟨callback, deadline, s.nextId, false⟩ := Function.update_self ..
  have hother : ∀ d, d ≠ e → t.entry d = s.entry d := fun d hd => Function.update_of_ne hd _ _
  have htimer : ∀ id, id ≠ s.nextId → t.timer id = s.timer id := fun id hid => Function.update_of_ne hid _ _
  refine h.change hpc (h.own.stay rfl (fun _ => rfl) (bind_update hpc hholds.symm)) hother
    (fun d hd => filled_congr hpc (fun _ => Iff.rfl) (by rw [hp]; nofun) fun hde => hd (Option.some.inj hde).symm)
    (fun id hid => ⟨rfl, rfl, htimer id hid⟩) (fun id hid => ?_) (fun id hid => ?_)
    (fun d hd => nomatch hunborn.symm.trans hd) (fun q hq => nomatch hunborn.symm.trans hq)
    ⟨Or.inr ⟨p, ?_⟩, congrArg _ hself, ?_, ?_, hfresh.2⟩ (fun _ => ⟨rfl, congrArg _ hself⟩) nofun
    (fun id hid => by omega) ⟨by omega, by omega, hassign⟩ h.heaps (fun q pc hqp hq => ?_) fun pc hpc => ?_
  · have := h.fits id
    rw [hid] at this
    exact absurd this.1 hunfilled
  · rw [hp] at hid
    cases hid
  · rw [hpc, Function.update_self]
    rfl
  · rw [hself]
    exact Function.update_self ..
  · rw [hself]
    exact hfresh.1
  · have hok := h.ok q pc hq
    have hne : ∀ {d}, pc.holds = some d → t.entry d = s.entry d := fun hd =>
      hother _ (h.ne_of_holds hholds hqp (by rw [hq]; exact hd))
    cases pc with
    | assign d id | insert d id i =>
      rw [State.Ok, hne rfl]
      exact hok
    | process i outer pc =>
      cases pc with
      | call now id callback =>
        have htaken := h.calls q id (by rw [hq]; rfl)
        have hid : id ≠ s.nextId := by
          rintro rfl
          cases hunborn.symm.trans htaken
        rw [State.Ok, htimer id hid]
        exact hok
      | _ => exact hok
    | cancelled id known r => cases r <;> exact hok
    | _ => exact hok
  · cases hpc
    exact ⟨congrArg Entry.id hself, h.ok p _ hp⟩

omit [DecidableEq P] [DecidableEq E] in
theorem heap_insert_perm : ((s.insert i e).shard i).heap.Perm (e :: (s.shard i).heap) := by
  rw [State.insert, State.setShard_self]
  exact BinaryHeap.push_perm _ _

omit [DecidableEq P] [DecidableEq E] in
theorem heap_insert_of_ne {j : Int} (hj : j ≠ i) : ((s.insert i e).shard j).heap = (s.shard j).heap := by
  rw [State.insert, State.setShard_of_ne _ _ hj]

/-- **The entry is inserted.** -/
theorem State.Owned.insert (h : s.Owned) {id : Int} (hp : s.pc p = some (.insert e id i)) :
    ((s.insert i e).goto p (some (.ret e id))).Owned := by
  set t := (s.insert i e).goto p (some (.ret e id))
  have hpc : t.pc = Function.update s.pc p (some (.ret e id)) := rfl
  have hperm : (t.shard i).heap.Perm (e :: (s.shard i).heap) := heap_insert_perm
  have hheap : ∀ j, j ≠ i → (t.shard j).heap = (s.shard j).heap := fun j => heap_insert_of_ne
  have hholds : (s.pc p).bind Pc.holds = some e := by rw [hp]; rfl
  have hself : t.pc p = some (.ret e id) := Function.update_self ..
  refine h.move (e := e) (a := .thread p) (b := .heap i) (by simp) ?_ (fun x hxp hxi => ?_) fun d hd x => ?_
  · rw [State.count, State.count, State.count, State.count, hholds, hself, hperm.count_eq, List.count_cons_self]
    simp only [Pc.holds, Option.bind_some, reduceCtorEq, ↓reduceIte, zero_add]
    omega
  · cases x with
    | pool => exact le_rfl
    | thread q =>
      have hq : q ≠ p := fun hq => hxp (congrArg _ hq)
      rw [State.count, State.count, hpc, Function.update_of_ne hq]
    | heap j => rw [State.count, State.count, hheap j fun hj => hxi (congrArg _ hj)]
  · cases x with
    | pool => exact le_rfl
    | thread q =>
      by_cases hq : q = p
      · subst hq
        rw [State.count, hself, if_neg (by rintro ⟨⟩)]
        exact Nat.zero_le _
      · rw [State.count, State.count, hpc, Function.update_of_ne hq]
    | heap j =>
      by_cases hj : j = i
      · subst hj
        rw [State.count, State.count, hperm.count_eq, List.count_cons_of_ne (Ne.symm hd)]
      · rw [State.count, State.count, hheap j hj]

theorem Inv.insert (h : Inv n s phase) {id : Int} (hp : s.pc p = some (.insert e id i)) :
    Inv n ((s.insert i e).goto p (some (.ret e id))) phase := by
  set t := (s.insert i e).goto p (some (.ret e id))
  have hpc : t.pc = Function.update s.pc p (some (.ret e id)) := rfl
  have hperm : (t.shard i).heap.Perm (e :: (s.shard i).heap) := heap_insert_perm
  have hheap : ∀ j, j ≠ i → (t.shard j).heap = (s.shard j).heap := fun j => heap_insert_of_ne
  have hmem : ∀ d, d ≠ e → ∀ j, d ∈ (t.shard j).heap ↔ d ∈ (s.shard j).heap := fun d hd j => by
    by_cases hj : j = i
    · subst hj
      rw [hperm.mem_iff, List.mem_cons, or_iff_right hd]
    · rw [hheap j hj]
  have hfilled : ∀ d, t.Filled d ↔ s.Filled d := fun d => by
    by_cases hd : d = e
    · subst hd
      exact iff_of_true (Or.inl ⟨i, hperm.mem_iff.mpr List.mem_cons_self⟩) (Or.inr ⟨p, by rw [hp]; rfl⟩)
    · exact filled_congr hpc (hmem d hd) (by rw [hp]; exact fun hde => hd (Option.some.inj hde).symm) nofun
  have hsame : Same s t := ⟨le_rfl, rfl, rfl, rfl, rfl, rfl, hfilled⟩
  refine h.same hsame (h.own.insert hp) h.ids.2.2 (bind_update hpc (by rw [hp]; rfl)) (fun j d hd => ?_)
    fun q pc hq => ?_
  · by_cases hj : j = i
    · subst hj
      exact (h.ok p _ hp).2
    · rw [hheap j hj] at hd
      exact h.heaps j d hd
  · obtain ⟨rfl, ⟨⟩⟩ | ⟨-, hq⟩ := pc_cases hpc hq
    · trivial
    · exact hsame.ok (h.ok q pc hq)

end Schedule

/-! ## Steps of `Cancel` and `ProcessShard` -/

section Cancel

omit [DecidableEq P] in
/-- The timer that a filled entry carries. -/
theorem Inv.carried (h : Inv n s phase) (he : s.Filled e) :
    s.timer (s.entry e).id = some ((s.entry e).callback, (s.entry e).deadline) ∧
      s.marked (s.entry e).id = (s.entry e).cancelled ∧ s.started (s.entry e).id = [] := by
  have hfits := h.fits (s.entry e).id
  rw [h.live e he] at hfits
  exact ⟨hfits.2.2.1, hfits.2.2.2.1, hfits.2.2.2.2⟩

omit [DecidableEq P] in
/-- A filled entry carries no other timer. -/
theorem Inv.carries (h : Inv n s phase) {id : Int} (hid : phase id = .live e) : id = (s.entry e).id := by
  have hfits := h.fits id
  rw [hid] at hfits
  exact hfits.2.1.symm

/-- **`Cancel` marks the entry.** -/
theorem Inv.mark (h : Inv n s phase) (he : e ∈ (s.shard i).heap) {id : Int} {known : Bool} {j : Int}
    (hp : s.pc p = some (.scan id known j)) (hid : (s.entry e).id = id) :
    Inv n ((s.mark e).goto p (some (.cancelled id known true))) phase := by
  set t := (s.mark e).goto p (some (.cancelled id known true)) with ht
  have hpc : t.pc = Function.update s.pc p (some (.cancelled id known true)) := rfl
  have hfilled : s.Filled e := Or.inl ⟨i, he⟩
  have hlive := h.live e hfilled
  obtain ⟨htimer, hmarked, hstarted⟩ := h.carried hfilled
  subst hid
  have hself : t.entry e = { s.entry e with cancelled := true } := Function.update_self ..
  have hother : ∀ d, d ≠ e → t.entry d = s.entry d := fun d hd => Function.update_of_ne hd _ _
  have hmark : t.marked (s.entry e).id = true := Function.update_self ..
  have hfill : ∀ d, t.Filled d ↔ s.Filled d := fun d =>
    filled_congr hpc (fun _ => Iff.rfl) (by rw [hp]; nofun) nofun
  have hph : Function.update phase (s.entry e).id (.live e) = phase := by
    rw [← hlive, Function.update_eq_self]
  rw [← hph]
  have hholds : ∀ q, (t.pc q).bind Pc.holds = (s.pc q).bind Pc.holds := bind_update hpc (by rw [hp]; rfl)
  refine h.change hpc (h.own.stay rfl (fun _ => rfl) hholds) hother (fun d _ => hfill d)
    (fun id hid => ⟨Function.update_of_ne hid _ _, rfl, rfl⟩) (fun id hid => h.carries hid) (fun id hid => ?_)
    (fun d hd => (Phase.live.inj (hlive.symm.trans hd)).symm) (fun q hq => nomatch hlive.symm.trans hq)
    ⟨(hfill e).mpr hfilled, by rw [hself], by rw [hself]; exact htimer, by rw [hself]; exact hmark, hstarted⟩
    (fun _ => ⟨rfl, by rw [hself]⟩) nofun (fun id hid => ⟨?_, hid⟩) h.ids h.heaps (fun q pc hqp hq => ?_)
    fun pc hpc => ?_
  · rw [hp] at hid
    cases hid
  · rintro rfl
    cases hlive.symm.trans (h.unborn _ hid)
  · have hok := h.ok q pc hq
    have hids : ∀ d, (t.entry d).id = (s.entry d).id := fun d => by
      by_cases hd : d = e
      · rw [hd, hself]
      · rw [hother d hd]
    cases pc with
    | assign d id | insert d id i =>
      rw [State.Ok, hids]
      exact hok
    | cancelled id known r =>
      cases r with
      | false => trivial
      | true =>
        by_cases hid : id = (s.entry e).id
        · subst hid
          exact hmark
        · exact (Function.update_of_ne hid _ _).trans hok
    | process i outer pc => cases pc <;> exact hok
    | _ => exact hok
  · cases hpc
    exact hmark

end Cancel

section ProcessShard

section Remove

variable (hperm : (s.shard i).heap.Perm (e :: (t.shard i).heap))
  (hheap : ∀ j, j ≠ i → (t.shard j).heap = (s.shard j).heap)
  (hfree : t.free = Function.update s.free e true)

include hperm hheap

omit [DecidableEq P] [DecidableEq E] in
theorem mem_heap_remove {d : E} (hd : d ≠ e) (j : Int) : d ∈ (t.shard j).heap ↔ d ∈ (s.shard j).heap := by
  by_cases hj : j = i
  · subst hj
    rw [hperm.mem_iff, List.mem_cons, or_iff_right hd]
  · rw [hheap j hj]

omit [DecidableEq P] [DecidableEq E] in
theorem heaps_remove (h : ∀ i e, e ∈ (s.shard i).heap → 0 ≤ i ∧ i < n) (j : Int) (d : E) (hd : d ∈ (t.shard j).heap) :
    0 ≤ j ∧ j < n := by
  by_cases hj : j = i
  · subst hj
    exact h j d (hperm.mem_iff.mpr (List.mem_cons_of_mem e hd))
  · rw [hheap j hj] at hd
    exact h j d hd

include hfree

omit [DecidableEq P] in
/-- An entry goes from its heap back to the pool. -/
theorem State.Owned.remove (h : s.Owned) (hholds : ∀ q, (t.pc q).bind Pc.holds = (s.pc q).bind Pc.holds) :
    t.Owned := by
  refine h.move (e := e) (a := .heap i) (b := .pool) nofun ?_ (fun x hxi hxp => ?_) fun d hd x => ?_
  · rw [State.count, State.count, State.count, State.count, hperm.count_eq, List.count_cons_self, hfree]
    simp
  · cases x with
    | pool => exact absurd rfl hxp
    | thread q => rw [State.count, State.count, hholds]
    | heap j => rw [State.count, State.count, hheap j fun hj => hxi (congrArg _ hj)]
  · cases x with
    | pool => rw [State.count, State.count, hfree, Function.update_of_ne hd]
    | thread q => rw [State.count, State.count, hholds]
    | heap j =>
      by_cases hj : j = i
      · subst hj
        rw [State.count, State.count, hperm.count_eq, List.count_cons_of_ne (Ne.symm hd)]
      · rw [State.count, State.count, hheap j hj]

omit [DecidableEq P] in
theorem State.Owned.unfilled (h : s.Owned) (hholds : ∀ q, (t.pc q).bind Pc.holds = (s.pc q).bind Pc.holds) :
    ¬t.Filled e := by
  refine not_filled (h.remove hperm hheap hfree hholds e) (a := .pool) ?_ nofun nofun
  rw [State.count, hfree, Function.update_self]
  exact one_pos

end Remove

variable {outer : Option (Int × Int)} {now : Int} {rest : List E}

omit [DecidableEq P] [DecidableEq E] in
theorem pop_perm (hh : (s.shard i).heap = e :: rest) :
    (s.shard i).heap.Perm (e :: BinaryHeap.pop s.deadline (s.shard i).heap) := by
  rw [hh]
  exact ((BinaryHeap.pop_perm e rest).symm.cons e)

/-- **A cancelled entry is reaped.** -/
theorem Inv.reap (h : Inv n s phase) (hp : s.pc p = some (.process i outer (.loop now)))
    (hh : (s.shard i).heap = e :: rest) (hcancelled : (s.entry e).cancelled = true) :
    Inv n ((s.setShard i { s.shard i with heap := BinaryHeap.pop s.deadline (s.shard i).heap }).release e)
      (Function.update phase (s.entry e).id .reaped) := by
  set t := (s.setShard i { s.shard i with heap := BinaryHeap.pop s.deadline (s.shard i).heap }).release e with ht
  have hself : t.shard i = { s.shard i with heap := BinaryHeap.pop s.deadline (s.shard i).heap } := s.setShard_self i _
  have hperm : (s.shard i).heap.Perm (e :: (t.shard i).heap) := by
    rw [hself]
    exact pop_perm hh
  have hheap : ∀ j, j ≠ i → (t.shard j).heap = (s.shard j).heap := fun j hj => congrArg _ (s.setShard_of_ne _ hj)
  have hpc : t.pc = Function.update s.pc p (s.pc p) := (Function.update_eq_self p s.pc).symm
  have hfilled : s.Filled e := Or.inl ⟨i, by rw [hh]; exact List.mem_cons_self⟩
  have hlive := h.live e hfilled
  obtain ⟨-, hmarked, hstarted⟩ := h.carried hfilled
  refine h.change hpc (h.own.remove hperm hheap rfl fun _ => rfl) (fun _ _ => rfl) (fun d hd =>
    or_congr (exists_congr (mem_heap_remove hperm hheap hd)) Iff.rfl) (fun _ _ => ⟨rfl, rfl, rfl⟩)
    (fun id hid => h.carries hid) (fun id hid => ?_) (fun d hd => (Phase.live.inj (hlive.symm.trans hd)).symm)
    (fun q hq => nomatch hlive.symm.trans hq) ⟨hmarked.trans hcancelled, hstarted⟩
    (fun hf => absurd hf (h.own.unfilled hperm hheap rfl fun _ => rfl)) (fun id hid => ?_) (fun id hid => ⟨?_, hid⟩)
    h.ids (heaps_remove hperm hheap h.heaps) (fun q pc _ hq => h.ok q pc hq) fun pc hq => h.ok p pc hq
  · rw [hp] at hid
    cases hid
  · rw [hp] at hid
    cases hid
  · rintro rfl
    cases hlive.symm.trans (h.unborn _ hid)

/-- **A timer is taken for execution.** -/
theorem Inv.take (h : Inv n s phase) (hp : s.pc p = some (.process i outer (.loop now)))
    (hh : (s.shard i).heap = e :: rest) (hcancelled : (s.entry e).cancelled = false) (hdue : s.deadline e ≤ now)
    (front : Int) :
    Inv n (((s.setShard i ⟨false, BinaryHeap.pop s.deadline (s.shard i).heap, front⟩).release e).goto p
      (some (.process i outer (.call now (s.entry e).id (s.entry e).callback))))
      (Function.update phase (s.entry e).id (.taken p)) := by
  set t := ((s.setShard i ⟨false, BinaryHeap.pop s.deadline (s.shard i).heap, front⟩).release e).goto p
    (some (.process i outer (.call now (s.entry e).id (s.entry e).callback))) with ht
  have hself : t.shard i = ⟨false, BinaryHeap.pop s.deadline (s.shard i).heap, front⟩ := s.setShard_self i _
  have hperm : (s.shard i).heap.Perm (e :: (t.shard i).heap) := by
    rw [hself]
    exact pop_perm hh
  have hheap : ∀ j, j ≠ i → (t.shard j).heap = (s.shard j).heap := fun j hj => congrArg _ (s.setShard_of_ne _ hj)
  have hpc : t.pc = Function.update s.pc p
      (some (.process i outer (.call now (s.entry e).id (s.entry e).callback))) := rfl
  have hholds : ∀ q, (t.pc q).bind Pc.holds = (s.pc q).bind Pc.holds := bind_update hpc (by rw [hp]; rfl)
  have hfilled : s.Filled e := Or.inl ⟨i, by rw [hh]; exact List.mem_cons_self⟩
  have hlive := h.live e hfilled
  obtain ⟨htimer, hmarked, hstarted⟩ := h.carried hfilled
  refine h.change hpc (h.own.remove hperm hheap rfl hholds) (fun _ _ => rfl) (fun d hd =>
    filled_congr hpc (mem_heap_remove hperm hheap hd) (by rw [hp]; nofun) nofun) (fun _ _ => ⟨rfl, rfl, rfl⟩)
    (fun id hid => h.carries hid) (fun id hid => ?_) (fun d hd => (Phase.live.inj (hlive.symm.trans hd)).symm)
    (fun q hq => nomatch hlive.symm.trans hq) ⟨?_, hmarked.trans hcancelled, hstarted⟩
    (fun hf => absurd hf (h.own.unfilled hperm hheap rfl hholds)) (fun id hid => ⟨(Option.some.inj hid).symm, rfl⟩)
    (fun id hid => ⟨?_, hid⟩) h.ids (heaps_remove hperm hheap h.heaps) (fun q pc _ hq => h.ok q pc hq) fun pc hq => ?_
  · rw [hp] at hid
    cases hid
  · rw [hpc, Function.update_self]
    rfl
  · rintro rfl
    cases hlive.symm.trans (h.unborn _ hid)
  · cases hq
    exact ⟨h.ok p _ hp, _, htimer, hdue⟩

/-- **The callback starts.** -/
theorem Inv.start (h : Inv n s phase) {id : Int} {callback : C}
    (hp : s.pc p = some (.process i outer (.call now id callback))) :
    Inv n ({ s with started := Function.update s.started id ((callback, s.clock) :: s.started id) }.goto p
      (some (.process i outer (.lock now)))) (Function.update phase id .started) := by
  set t := { s with started := Function.update s.started id ((callback, s.clock) :: s.started id) }.goto p
    (some (.process i outer (.lock now))) with ht
  have hpc : t.pc = Function.update s.pc p (some (.process i outer (.lock now))) := rfl
  have htaken := h.calls p id (by rw [hp]; rfl)
  have hfits := h.fits id
  rw [htaken] at hfits
  obtain ⟨-, hmarked, hstarted⟩ := hfits
  obtain ⟨hnow, deadline, htimer, hdue⟩ := h.ok p _ hp
  have hfill : ∀ d, t.Filled d ↔ s.Filled d := fun d =>
    filled_congr hpc (fun _ => Iff.rfl) (by rw [hp]; nofun) nofun
  have hne : ∀ {id' q}, phase id' = .taken q → q ≠ p → id' ≠ id := by
    rintro id' q hq hqp rfl
    exact hqp (Phase.taken.inj (hq.symm.trans htaken))
  refine ⟨h.own.stay rfl (fun _ => rfl) (bind_update hpc (by rw [hp]; rfl)), fun id' => ?_, fun d hd => ?_,
    fun q id' hq => ?_, fun id' hid => ?_, h.ids, h.heaps, fun q pc hq => ?_⟩
  · by_cases hid : id' = id
    · subst hid
      rw [Function.update_self]
      have hself : t.started id' = (callback, s.clock) :: s.started id' := Function.update_self ..
      exact ⟨hmarked, callback, deadline, s.clock, htimer, by rw [hself, hstarted], hdue.trans hnow⟩
    · rw [Function.update_of_ne hid]
      have hold := h.fits id'
      refine hold.congr rfl (Function.update_of_ne hid _ _) rfl (fun d hd => ⟨(hfill d).mpr ?_, rfl⟩) fun q hq => ?_
      · rw [hd] at hold
        exact hold.1
      · rw [hpc, Function.update_of_ne]
        rintro rfl
        rw [hq] at hold
        have hcalls := hold.1
        rw [hp] at hcalls
        exact hid (Option.some.inj hcalls).symm
  · have hold := h.live d ((hfill d).mp hd)
    rw [Function.update_of_ne]
    · exact hold
    · intro hid
      cases (hid ▸ hold : phase id = .live d).symm.trans htaken
  · by_cases hqp : q = p
    · subst hqp
      rw [hpc, Function.update_self] at hq
      cases hq
    · rw [hpc, Function.update_of_ne hqp] at hq
      have hold := h.calls q id' hq
      rw [Function.update_of_ne (hne hold hqp), hold]
  · have hold := h.unborn id' hid
    rw [Function.update_of_ne, hold]
    rintro rfl
    cases hold.symm.trans htaken
  · obtain ⟨rfl, ⟨⟩⟩ | ⟨-, hq⟩ := pc_cases hpc hq
    · exact hnow
    · exact h.ok q pc hq

end ProcessShard

end Cothread.Timer
