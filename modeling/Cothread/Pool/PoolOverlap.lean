import Cothread.Pool.PoolLimit

/-!
# `ObjectPool`: calls that overlap

While no two calls overlap, the limit holds (`within_limit`). Two calls that check before either pushes overfill the
pool, and an `Acquire` that decrements before the `Release` has incremented wraps the counter (`over_limit`). Every
overlap can end so (`Bounded.overlaps`): the calls that have made their check go on to their increments
(`breaks_of_crowded`), or the pool is emptied while one of its objects is still to be counted (`Lag.breaks`).
-/

namespace Cothread.ObjectPool

open Run Chain Count

variable {O P : Type*}

section Step

variable [DecidableEq O] [DecidableEq P] {maxSize : UInt64} {s t : State O P} {q : List O} {p : P} {l : Label O P}
  {a r n : Int}

/-- Some run from here leads past the limit. -/
def Breaks (maxSize : UInt64) (s : State O P) : Prop :=
  ∃ ls t, exec (system O P maxSize) s ls = some t ∧ ¬Limit maxSize t

theorem Breaks.step (h : ObjectPool.step maxSize s l = some t) (ht : Breaks maxSize t) : Breaks maxSize s := by
  obtain ⟨ls, u, hu, hlimit⟩ := ht
  refine ⟨l :: ls, u, ?_, hlimit⟩
  rw [exec_cons, show (system O P maxSize).step s l = some t from h]
  exact hu

/-- The state after the increment of a call of `Release`, when nobody else acts before. -/
structure Incremented (s : State O P) (p : P) (t : State O P) : Prop where
  count : t.mem.count = s.mem.count + 1
  mark : t.mark = Function.update s.mark p .outside

omit [DecidableEq O] in
theorem Incremented.access {m : Mem O} {held : List O} {c : Option (Pc O)} (h : Incremented (s.access p m held c) p t)
    (hcount : m.count = s.mem.count) : Incremented s p t where
  count := h.count.trans (congrArg (· + 1) hcount)
  mark := by rw [h.mark, mark_access, Function.update_idem]

theorem step_release {c : ReleasePc O} (hc : s.call p = some (.release c)) :
    let r := releaseStep maxSize false s.mem (s.held p) c
    ObjectPool.step maxSize s (.thread p false) = some (s.access p r.1 r.2.1 (r.2.2.map .release)) := by
  simp only [ObjectPool.step, hc]

omit [DecidableEq O] in
theorem call_access {m : Mem O} {held : List O} {c : Option (Pc O)} : (s.access p m held c).call p = c :=
  Function.update_self ..

variable {obj : O} {expected : Option O}

theorem Breaks.pushed (hc : s.call p = some (.release (.count obj)))
    (h : ∀ t, Incremented s p t → Breaks maxSize t) : Breaks maxSize s :=
  .step (step_release hc) (h _ ⟨rfl, mark_access⟩)

/-- The link is up to date, so the exchange succeeds. -/
theorem Breaks.linked (hc : s.call p = some (.release (.exchange obj s.mem.head)))
    (h : ∀ t, Incremented s p t → Breaks maxSize t) : Breaks maxSize s := by
  refine .step (step_release hc) ?_
  simp only [releaseStep, true_and, if_true]
  exact .pushed call_access fun t ht => h t (ht.access rfl)

theorem Breaks.linking (hc : s.call p = some (.release (.link obj s.mem.head)))
    (h : ∀ t, Incremented s p t → Breaks maxSize t) : Breaks maxSize s :=
  .step (step_release hc) (.linked call_access fun t ht => h t (ht.access rfl))

theorem Breaks.exchange (hc : s.call p = some (.release (.exchange obj expected)))
    (h : ∀ t, Incremented s p t → Breaks maxSize t) : Breaks maxSize s := by
  by_cases hhead : s.mem.head = expected
  · subst hhead
    exact .linked hc h
  · refine .step (step_release hc) ?_
    simp only [releaseStep, hhead, false_and, if_false]
    exact .linking call_access fun t ht => h t (ht.access rfl)

/-- **Undisturbed, a call of `Release` goes on to its increment.** -/
theorem Breaks.release (hp : s.At Mark.releasing p) (h : ∀ t, Incremented s p t → Breaks maxSize t) :
    Breaks maxSize s := by
  have hload : ∀ {u : State O P} {obj}, u.call p = some (.release (.loadHead obj)) →
      (∀ t, Incremented u p t → Breaks maxSize t) → Breaks maxSize u := fun hc hu =>
    .step (step_release hc) (.linking call_access fun t ht => hu t (ht.access rfl))
  cases hc : s.call p with
  | none => simp [State.At, State.mark, hc, Mark.releasing] at hp
  | some c =>
    rw [State.At, mark_call hc] at hp
    cases c with
    | acquire c => cases c <;> cases hp
    | release c =>
      cases c with
      | loadCount obj => cases hp
      | clear obj => exact .step (step_release hc) (hload call_access fun t ht => h t (ht.access rfl))
      | loadHead obj => exact hload hc h
      | link obj expected => exact .step (step_release hc) (.exchange call_access fun t ht => h t (ht.access rfl))
      | exchange obj expected => exact .exchange hc h
      | count obj => exact .pushed hc h

/-- **Calls that have made their check and leave no room** take `count_` past `max_size`: one after the other they go on
to their increments. -/
theorem breaks_of_crowded (hmax : maxSize.toNat + 1 < 2 ^ 64) (k : ℕ) (hn : Counts (s.At Mark.releasing) n)
    (hk : s.mem.count.toNat + k = maxSize.toNat + 1) (hkn : k ≤ n) : Breaks maxSize s := by
  induction k generalizing s n with
  | zero =>
    refine ⟨[], s, rfl, fun ⟨_, hle⟩ => ?_⟩
    have := UInt64.le_iff_toNat_le.mp hle
    omega
  | succ k ih =>
    obtain ⟨p, hp⟩ : ∃ p, s.At Mark.releasing p := by
      by_contra hno
      have := hn.unique (.zero fun i hi => hno ⟨i, hi⟩)
      omega
    refine .release hp fun t ht => ih (hn.erase hp (at_leave ht.mark rfl)) ?_ (by omega)
    rw [ht.count, UInt64.toNat_add, UInt64.toNat_one, Nat.mod_eq_of_lt (by omega)]
    omega

/-- `count_` is ahead of the pool by the calls that have popped, and behind by those that have pushed. -/
structure Lag (s : State O P) (q : List O) (a r : Int) : Prop where
  inv : Inv s q
  popped : Counts (s.At Mark.isPopped) a
  pushed : Counts (s.At Mark.isPushed) r
  count : (s.mem.count.toNat : Int) = q.length + a - r

theorem step_acquire {c : AcquirePc O} (hc : s.call p = some (.acquire c)) :
    let r := acquireStep false s.mem (s.held p) c
    ObjectPool.step maxSize s (.thread p false) = some (s.access p r.1 r.2.1 (r.2.2.map .acquire)) := by
  simp only [ObjectPool.step, hc]

/-- The state after the decrement of an `Acquire`. -/
def State.uncount (s : State O P) (p : P) (obj : O) : State O P :=
  s.access p { s.mem with count := s.mem.count - 1 } (s.held p) (some (.acquire (.clear obj)))

omit [DecidableEq O] in
/-- A decrement at 0 wraps. -/
theorem not_limit_uncount (hmax : maxSize.toNat + 1 < 2 ^ 64) (hzero : s.mem.count.toNat = 0) :
    ¬Limit maxSize (s.uncount p obj) := by
  rintro ⟨-, hle⟩
  have hcount : s.mem.count = 0 := UInt64.toNat_inj.mp (by rw [UInt64.toNat_zero]; exact hzero)
  have hle : s.mem.count - 1 ≤ maxSize := hle
  rw [hcount, UInt64.le_iff_toNat_le] at hle
  have hwrap : ((0 : UInt64) - 1).toNat = 2 ^ 64 - 1 := by decide
  omega

omit [DecidableEq O] in
theorem uncount_toNat (p : P) (obj : O) (hpos : 0 < s.mem.count.toNat) :
    (s.uncount p obj).mem.count.toNat = s.mem.count.toNat - 1 :=
  UInt64.toNat_sub_of_le _ _ (UInt64.le_iff_toNat_le.mpr hpos)

theorem Lag.uncount (h : Lag s q a r) (hc : s.call p = some (.acquire (.uncount obj))) (hpos : 0 < s.mem.count.toNat) :
    Lag (s.uncount p obj) q (a - 1) r := by
  have hin : s.mark p = .popped obj := mark_call hc
  have hmark : (s.uncount p obj).mark = Function.update s.mark p .outside := mark_access
  have hok : ¬Stale s (.thread p false) := fun ⟨_, _, hc', _⟩ => by cases hc.symm.trans hc'
  obtain ⟨q', h'⟩ := h.inv.acquireStep hc hok rfl
  obtain rfl : q' = q := same_pool h' h.inv.path rfl fun _ _ => rfl
  refine ⟨h', h.popped.erase (by rw [State.At, hin]; rfl) (at_leave hmark rfl),
    h.pushed.congr (at_same hmark (by rw [hin]; rfl)), ?_⟩
  have hcount := h.count
  have hnat := uncount_toNat p obj hpos
  omega

/-- The state after an `Acquire` has cleared the link of its object, and returned. -/
def State.cleared (s : State O P) (p : P) (obj : O) : State O P :=
  s.access p { s.mem with next := Function.update s.mem.next obj none } (s.held p) none

theorem Lag.cleared (h : Lag s q a r) (hc : s.call p = some (.acquire (.clear obj))) : Lag (s.cleared p obj) q a r := by
  have hout : s.mark p = .outside := mark_call hc
  have hmark : (s.cleared p obj).mark = Function.update s.mark p .outside := mark_access
  have hmine : obj ∈ s.held p := h.inv.relies p _ hc
  have hok : ¬Stale s (.thread p false) := fun ⟨_, _, hc', _⟩ => by cases hc.symm.trans hc'
  obtain ⟨q', h'⟩ := h.inv.acquireStep hc hok rfl
  obtain rfl : q' = q := same_pool h' h.inv.path rfl fun o ho =>
    Function.update_of_ne (fun he : o = obj => h.inv.outside p obj hmine (he ▸ ho)) _ _
  exact ⟨h', h.popped.congr (at_same hmark (by rw [hout])), h.pushed.congr (at_same hmark (by rw [hout])), h.count⟩

/-- The state in which an `Acquire` is about to take the object. -/
def State.taking (s : State O P) (p : P) (obj : O) : State O P :=
  { s with call := Function.update s.call p (some (.acquire (.exchange obj (s.mem.next obj)))) }

theorem exec_taking (hp : s.call p = none) (hhead : s.mem.head = some obj) :
    exec (system O P maxSize) s [.acquire p, .thread p false, .thread p false] = some (s.taking p obj) := by
  simp [system, ObjectPool.step, hp, hhead, acquireStep, acquireFrom, State.access, State.taking]

/-- The state after it has taken the object. -/
def State.taken (s : State O P) (p : P) (obj : O) : State O P :=
  (s.taking p obj).access p { s.mem with head := s.mem.next obj } (obj :: s.held p) (some (.acquire (.uncount obj)))

theorem step_taken (hhead : s.mem.head = some obj) :
    ObjectPool.step maxSize (s.taking p obj) (.thread p false) = some (s.taken p obj) := by
  simp [ObjectPool.step, State.taking, State.taken, acquireStep, hhead]

theorem Lag.taken {rest : List O} (h : Lag s (obj :: rest) a r) (hp : s.call p = none) :
    Lag (s.taken p obj) rest (a + 1) r := by
  have hout : s.mark p = .outside := by rw [State.mark, hp]; rfl
  have htaking : Inv (s.taking p obj) (obj :: rest) := h.inv.call trivial
  have hc : (s.taking p obj).call p = some (.acquire (.exchange obj (s.mem.next obj))) := Function.update_self ..
  have hmark : (s.taken p obj).mark = Function.update s.mark p (.popped obj) := by
    rw [State.taken, mark_access]
    funext i
    by_cases hi : i = p
    · subst hi
      simp [Pc.mark]
    · simp [hi, State.taking, State.mark]
  have hhead : (s.taking p obj).mem.head = some obj := h.inv.path.1
  have hfresh : ¬Stale (s.taking p obj) (.thread p false) := by
    rintro ⟨o, next, hc', -, -, hne⟩
    cases hc.symm.trans hc'
    exact hne rfl
  obtain ⟨q', h'⟩ := htaking.acquireStep hc hfresh rfl
  simp only [acquireStep, hhead, true_and, if_true] at h'
  obtain rfl : q' = rest := h'.path.unique h.inv.path.2
  have hne : ¬s.At Mark.isPopped p := by simp [State.At, hout, Mark.isPopped]
  refine ⟨h', h.popped.insert hne (at_join hmark rfl), h.pushed.congr (at_same hmark (by rw [hout]; rfl)), ?_⟩
  have hcount := h.count
  rw [List.length_cons] at hcount
  show (s.mem.count.toNat : Int) = _
  omega

theorem Breaks.exec {ls : List (Label O P)} (h : exec (system O P maxSize) s ls = some t) (ht : Breaks maxSize t) :
    Breaks maxSize s := by
  obtain ⟨ks, u, hu, hlimit⟩ := ht
  exact ⟨ls ++ ks, u, exec_trans h hu, hlimit⟩

/-- **Objects that are taken before they have been counted** take `count_` below 0: a thread takes what is in the pool,
and whoever has popped decrements. The induction is on `count_`. -/
theorem Lag.breaks (hmax : maxSize.toNat + 1 < 2 ^ 64) (h : Lag s q a r) (hr : 0 < r) (hp : s.call p = none) :
    Breaks maxSize s := by
  obtain ⟨k, hk⟩ : ∃ k, s.mem.count.toNat = k := ⟨_, rfl⟩
  induction k using Nat.strong_induction_on generalizing s q a with
  | _ k ih =>
  subst hk
  have hcount := h.count
  by_cases ha : 0 < a
  · -- somebody has popped, and decrements
    obtain ⟨i, hi⟩ : ∃ i, s.At Mark.isPopped i := by
      by_contra hno
      have := h.popped.unique (.zero fun i hi => hno ⟨i, hi⟩)
      omega
    obtain ⟨obj, hobj⟩ : ∃ obj, s.mark i = .popped obj := by
      rw [State.At] at hi
      cases hm : s.mark i <;> rw [hm] at hi <;> first | exact ⟨_, rfl⟩ | cases hi
    have hc := call_of_mark.1 hobj
    have hpi : p ≠ i := by
      rintro rfl
      cases hp.symm.trans hc
    refine .step (step_acquire hc) ?_
    by_cases hzero : s.mem.count.toNat = 0
    · exact ⟨[], _, rfl, not_limit_uncount hmax hzero⟩
    have hpos := Nat.pos_of_ne_zero hzero
    have hlt : (s.uncount i obj).mem.count.toNat < s.mem.count.toNat := by
      rw [uncount_toNat _ _ hpos]
      omega
    exact ih _ hlt (h.uncount hc hpos) ((Function.update_of_ne hpi _ _).trans hp) rfl
  · -- the thread takes an object, and decrements
    have hnonneg := h.popped.nonneg
    cases q with
    | nil =>
      rw [List.length_nil] at hcount
      omega
    | cons obj rest =>
    have hhead : s.mem.head = some obj := h.inv.path.1
    have htaken := h.taken hp
    have hc : (s.taken p obj).call p = some (.acquire (.uncount obj)) := call_access
    refine .exec (exec_taking hp hhead) (.step (step_taken hhead) (.step (step_acquire hc) ?_))
    by_cases hzero : s.mem.count.toNat = 0
    · exact ⟨[], _, rfl, not_limit_uncount hmax hzero⟩
    have hpos := Nat.pos_of_ne_zero hzero
    have hc' : ((s.taken p obj).uncount p obj).call p = some (.acquire (.clear obj)) := call_access
    have hlt : ((s.taken p obj).uncount p obj).mem.count.toNat < s.mem.count.toNat := by
      rw [uncount_toNat _ _ (show 0 < (s.taken p obj).mem.count.toNat from hpos)]
      exact Nat.sub_lt hpos Nat.one_pos
    exact .step (step_acquire hc') (ih _ hlt ((htaken.uncount hc hpos).cleared hc') call_access rfl)

/-- **A step with which calls overlap** leads to a state from which the limit is broken. -/
theorem Bounded.overlaps (h : Bounded maxSize s q a r n) (hmax : maxSize.toNat + 1 < 2 ^ 64)
    (hover : Overlaps maxSize s l) (hst : ObjectPool.step maxSize s l = some t) : Breaks maxSize t := by
  have hcount := h.count
  have hroom := h.room
  cases l with
  | thread p spurious =>
    obtain ⟨obj, m, hc, hbelow, hm, hpos, hfull⟩ | ⟨obj, p', hc, hc'⟩ := hover
    · obtain rfl := hm.unique h.releasing
      have hne : ¬s.At Mark.releasing p := by simp [State.At, mark_call hc, Pc.mark, Mark.releasing]
      simp only [ObjectPool.step, hc, releaseStep, if_neg (UInt64.not_le.mpr hbelow), Option.some.injEq] at hst
      subst hst
      refine breaks_of_crowded hmax (maxSize.toNat + 1 - s.mem.count.toNat) (h.releasing.insert hne
        (at_join mark_access rfl)) ?_ (by omega)
      show s.mem.count.toNat + _ = _
      omega
    · have hpushed : 0 < r := h.pushed.pos (j := p') (by rw [State.At, mark_call hc']; rfl)
      obtain rfl : s.uncount p obj = t := by
        simp only [ObjectPool.step, hc, acquireStep, Option.some.injEq] at hst
        exact hst
      by_cases hzero : s.mem.count.toNat = 0
      · exact ⟨[], _, rfl, not_limit_uncount hmax hzero⟩
      have hlag : Lag s q a r := ⟨h.inv, h.popped, h.pushed, h.count⟩
      have hc'' : (s.uncount p obj).call p = some (.acquire (.clear obj)) := call_access
      refine .step (step_acquire hc'') ?_
      exact ((hlag.uncount hc (Nat.pos_of_ne_zero hzero)).cleared hc'').breaks hmax hpushed call_access
  | _ => exact hover.elim

/-- **The limit** holds in every run in which no exchange of `head_` is stale and no calls overlap; a step with which
calls overlap leads to a state from which it is broken. -/
theorem within_limit (hs : Reach (system O P maxSize) (fun s l => ¬Stale s l ∧ ¬Overlaps maxSize s l) s) :
    Limit maxSize s ∧ (maxSize.toNat + 1 < 2 ^ 64 → ∀ l t, Overlaps maxSize s l → step maxSize s l = some t →
      ∃ ls u, exec (system O P maxSize) t ls = some u ∧ ¬Limit maxSize u) := by
  obtain ⟨q, a, r, n, h⟩ := reach_bounded hs
  exact ⟨h.limit, fun hmax l t hover hst => h.overlaps hmax hover hst⟩

end Step

/-! ## Runs -/

/-- Both threads allocate an object, and one after the other releases it. -/
def fillRun : List (Label Bool Bool) :=
  List.flatten [[.acquire false], accesses false 1, [.new false true, .acquire true], accesses true 1,
    [.new true false, .release false true], accesses false 6, [.release true false], accesses true 1]

/-- Only one thread releases at a time, and no `Acquire` takes an object. -/
def releasesOnly (s : State Bool Bool) : Label Bool Bool → Bool
  | .thread p _ => match s.call p with
    | some (.acquire (.exchange _ _)) | some (.acquire (.uncount _)) => false
    | some (.release _) => (s.call (!p)).isNone
    | _ => true
  | _ => true

/-- An object is put into the pool, and the next one is deleted. -/
theorem within_limit_fill : ∃ s : State Bool Bool, s.mem.head = some true ∧ s.mem.count = 1 ∧ s.held true = [] ∧
    Limit 1 s := by
  have hcalm : ∀ s l, releasesOnly s l = true → ¬Stale s l ∧ ¬Overlaps 1 s l := by
    intro s l h
    cases l with
    | thread p spurious =>
      constructor
      · rintro ⟨obj, next, hc, -⟩
        simp [releasesOnly, hc] at h
      · rintro (⟨obj, n, hc, -, hn, hpos, -⟩ | ⟨obj, p', hc, -⟩)
        · simp only [releasesOnly, hc, Option.isNone_iff_eq_none] at h
          have hzero : Counts (s.At Mark.releasing) 0 := .zero fun i hi => by
            obtain rfl | rfl : i = p ∨ i = !p := by cases i <;> cases p <;> simp
            · simp [State.At, mark_call hc, Pc.mark, Mark.releasing] at hi
            · simp [State.At, State.mark, h, Mark.releasing] at hi
          have := hn.unique hzero
          omega
        · simp [releasesOnly, hc] at h
    | _ => exact ⟨id, id⟩
  have hrun : (exec (system Bool Bool 1) .empty fillRun).any fun s =>
      s.mem.head == some true && s.mem.count == 1 && s.held true == [] := by decide +kernel
  obtain ⟨s, hs, hend⟩ := (Option.any_eq_true _ _).mp hrun
  simp only [Bool.and_eq_true, beq_iff_eq] at hend
  have hok : execOk (system Bool Bool 1) (fun s l => releasesOnly s l = true) .empty fillRun = true := by
    decide +kernel
  exact ⟨s, hend.1.1, hend.1.2, hend.2, (within_limit (reach_exec hcalm (.init rfl) hs hok)).1⟩

/-- Both threads check before either pushes. -/
def overfillRun : List (Label Bool Bool) :=
  List.flatten [[.acquire false], accesses false 1, [.new false true, .acquire true], accesses true 1,
    [.new true false, .release false true, .release true false], accesses false 1, accesses true 5, accesses false 4]

/-- A thread allocates an object, and the other takes it before its `Release` has incremented. -/
def wrapRun : List (Label Bool Bool) :=
  List.flatten [[.acquire false], accesses false 1, [.new false true, .release false true], accesses false 5,
    [.acquire true], accesses true 4]

/-- **Over the limit**: with `max_size = 1`, two calls of `Release` find `count_ = 0` before either pushes, and the pool
holds two objects; an `Acquire` decrements before the `Release` has incremented, and the counter wraps. -/
theorem over_limit : (∃ s : State Bool Bool, Reachable (system Bool Bool 1) s ∧ InPool s 2 ∧ ¬Limit 1 s) ∧
    ∃ s : State Bool Bool, Reachable (system Bool Bool 1) s ∧ s.mem.count = 18446744073709551615 ∧ ¬Limit 1 s := by
  constructor
  · have hrun : (exec (system Bool Bool 1) .empty overfillRun).any fun s =>
        s.mem.head == some true && s.mem.next true == some false && s.mem.next false == none := by decide +kernel
    obtain ⟨s, hs, hend⟩ := (Option.any_eq_true _ _).mp hrun
    simp only [Bool.and_eq_true, beq_iff_eq] at hend
    obtain ⟨⟨hhead, htrue⟩, hfalse⟩ := hend
    have htwo : InPool s ([true, false] : List Bool).length := by
      refine inPool_of_path ⟨hhead, ?_⟩ (by decide)
      rw [htrue]
      exact ⟨rfl, hfalse⟩
    refine ⟨s, reachable_exec (.init rfl) hs, htwo, fun ⟨⟨k, hk, hle⟩, _⟩ => ?_⟩
    rw [hk.unique htwo] at hle
    exact absurd hle (by decide)
  · have hrun : (exec (system Bool Bool 1) .empty wrapRun).any fun s => s.mem.count == 18446744073709551615 := by
      decide +kernel
    obtain ⟨s, hs, hend⟩ := (Option.any_eq_true _ _).mp hrun
    have hcount := eq_of_beq hend
    refine ⟨s, reachable_exec (.init rfl) hs, hcount, fun ⟨_, hle⟩ => ?_⟩
    rw [hcount] at hle
    exact absurd hle (by decide)

end Cothread.ObjectPool
