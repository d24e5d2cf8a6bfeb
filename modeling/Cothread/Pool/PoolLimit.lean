import Cothread.Lib.Count
import Cothread.Pool.ObjectPool

/-!
# `ObjectPool`: the limit

`Release` checks `count_`, then pushes and then increments; `Acquire` pops and then decrements. So `count_` is the
number of objects in the pool and of the calls that have popped and not decremented yet, less the calls that have
pushed and not incremented yet. What a call of `Release` has found stays true as long as the others that are between
their check and their increment leave room for it, and `count_` is positive whenever an `Acquire` decrements it for an
object that has been counted. While no two calls overlap otherwise (`Overlaps`), the pool and `count_` stay within
`max_size` (`Bounded`).
-/

namespace Cothread.ObjectPool

open Run Chain Count

variable {O P : Type*}

/-- `k` objects are in the pool. -/
def InPool (s : State O P) (k : Int) : Prop := Counts (fun obj => Reaches s.mem.next s.mem.head obj) k

/-- **The limit**: at most `max_size` objects are in the pool, and `size()` is at most `max_size`. -/
def Limit (maxSize : UInt64) (s : State O P) : Prop :=
  (∃ k, InPool s k ∧ k ≤ maxSize.toNat) ∧ s.mem.count ≤ maxSize

/-- Where a call is between its look at the pool and its update of `count_`. -/
inductive Mark (O : Type*)
  | outside
  | checked  -- `Release` has found `count_` below `max_size`, and has not pushed yet
  | pushed (obj : O)  -- `Release` has not incremented `count_` yet
  | popped (obj : O)  -- `Acquire` has not decremented `count_` yet

def Pc.mark : Pc O → Mark O
  | .acquire (.uncount obj) => .popped obj
  | .acquire _ | .release (.loadCount _) => .outside
  | .release (.count obj) => .pushed obj
  | .release _ => .checked

def State.mark (s : State O P) (p : P) : Mark O := (s.call p).elim .outside Pc.mark

def Mark.isPopped : Mark O → Bool
  | .popped _ => true
  | _ => false

def Mark.isPushed : Mark O → Bool
  | .pushed _ => true
  | _ => false

/-- The call of `Release` has made its check, and has not incremented `count_` yet. -/
def Mark.releasing : Mark O → Bool
  | .checked | .pushed _ => true
  | _ => false

/-- The thread's call is where `f` says. -/
def State.At (s : State O P) (f : Mark O → Bool) (p : P) : Prop := f (s.mark p) = true

/-- A `Release` finds `count_` below `max_size` while others are between this check and their increment, which will take
`count_` to `max_size`; or an `Acquire` decrements `count_` for an object whose `Release` has not incremented it yet. -/
def Overlaps (maxSize : UInt64) (s : State O P) : Label O P → Prop
  | .thread p _ =>
    (∃ obj n, s.call p = some (.release (.loadCount obj)) ∧ s.mem.count < maxSize ∧ Counts (s.At Mark.releasing) n ∧
      0 < n ∧ maxSize.toNat ≤ s.mem.count.toNat + n) ∨
    ∃ obj p', s.call p = some (.acquire (.uncount obj)) ∧ s.call p' = some (.release (.count obj))
  | _ => False

/-! ## What one step changes -/

section At

variable [DecidableEq P] {s t : State O P} {f : Mark O → Bool} {p : P} {m : Mark O}

theorem at_same (ht : t.mark = Function.update s.mark p m) (hm : f m = f (s.mark p)) (i : P) :
    t.At f i ↔ s.At f i := by
  unfold State.At
  rw [ht]
  by_cases hi : i = p
  · rw [hi, Function.update_self, hm]
  · rw [Function.update_of_ne hi]

theorem at_join (ht : t.mark = Function.update s.mark p m) (hm : f m = true) (i : P) :
    t.At f i ↔ i = p ∨ s.At f i := by
  unfold State.At
  rw [ht]
  by_cases hi : i = p
  · rw [hi, Function.update_self]
    exact iff_of_true hm (.inl rfl)
  · rw [Function.update_of_ne hi, or_iff_right hi]

theorem at_leave (ht : t.mark = Function.update s.mark p m) (hm : f m = false) (i : P) :
    t.At f i ↔ i ≠ p ∧ s.At f i := by
  unfold State.At
  rw [ht]
  by_cases hi : i = p
  · rw [hi, Function.update_self, hm]
    exact iff_of_false Bool.false_ne_true fun h => h.1 rfl
  · rw [Function.update_of_ne hi, and_iff_right hi]

end At

/-- A step goes from the pool `q` to the pool `q'`: it changes the pool, or `count_`, or where a call is, or nothing of
this. -/
inductive Change (maxSize : UInt64) [DecidableEq P] (s t : State O P) (l : Label O P) (q q' : List O) : Prop
  | idle (hpool : q' = q) (hcount : t.mem.count = s.mem.count) (hmark : t.mark = s.mark)
  | check (p : P) (spurious : Bool) (obj : O) (hl : l = .thread p spurious)
    (hc : s.call p = some (.release (.loadCount obj))) (hroom : s.mem.count < maxSize) (hpool : q' = q)
    (hcount : t.mem.count = s.mem.count) (hmark : t.mark = Function.update s.mark p .checked)
  | pop (p : P) (obj : O) (hout : s.mark p = .outside) (hpool : q = obj :: q') (hcount : t.mem.count = s.mem.count)
    (hmark : t.mark = Function.update s.mark p (.popped obj))
  | uncount (p : P) (spurious : Bool) (obj : O) (hl : l = .thread p spurious)
    (hc : s.call p = some (.acquire (.uncount obj))) (hpool : q' = q) (hcount : t.mem.count = s.mem.count - 1)
    (hmark : t.mark = Function.update s.mark p .outside)
  | push (p : P) (obj : O) (hin : s.mark p = .checked) (hout : obj ∉ q) (hheld : ∀ p', s.mark p' ≠ .popped obj)
    (hpool : q' = obj :: q) (hcount : t.mem.count = s.mem.count)
    (hmark : t.mark = Function.update s.mark p (.pushed obj))
  | count (p : P) (obj : O) (hin : s.mark p = .pushed obj) (hpool : q' = q) (hcount : t.mem.count = s.mem.count + 1)
    (hmark : t.mark = Function.update s.mark p .outside)

section Step

variable [DecidableEq O] [DecidableEq P] {maxSize : UInt64} {s t : State O P} {q q' : List O} {p : P} {l : Label O P}

omit [DecidableEq O] [DecidableEq P] in
/-- The pool is what `head_` leads to. -/
theorem same_pool (h' : Inv t q') (hpath : Path s.mem.next s.mem.head q) (hhead : t.mem.head = s.mem.head)
    (hnext : ∀ obj ∈ q, t.mem.next obj = s.mem.next obj) : q' = q := by
  refine h'.path.unique ?_
  rw [hhead]
  exact hpath.congr hnext

omit [DecidableEq O] in
theorem mark_access {m : Mem O} {held : List O} {c : Option (Pc O)} :
    (s.access p m held c).mark = Function.update s.mark p (c.elim .outside Pc.mark) := by
  funext i
  unfold State.mark State.access
  by_cases hi : i = p
  · subst hi
    simp
  · simp [hi]

omit [DecidableEq O] in
/-- An access that changes neither the pool nor `count_`, nor where the call is. -/
theorem Change.access {m : Mem O} {held : List O} {c : Option (Pc O)} (h : Inv s q)
    (h' : Inv (s.access p m held c) q') (hhead : m.head = s.mem.head) (hcount : m.count = s.mem.count)
    (hnext : ∀ obj, obj ∉ s.held p → m.next obj = s.mem.next obj) (hc : c.elim .outside Pc.mark = s.mark p) :
    Change maxSize s (s.access p m held c) l q q' := by
  refine .idle (same_pool h' h.path hhead fun obj ho => hnext obj fun hm => h.outside p obj hm ho) hcount ?_
  rw [mark_access, hc, Function.update_eq_self]

omit [DecidableEq O] [DecidableEq P] in
theorem mark_call {c : Pc O} (hc : s.call p = some c) : s.mark p = c.mark := by
  rw [State.mark, hc]
  rfl

/-- An access of `Acquire`. -/
theorem change_acquire {c : AcquirePc O} {spurious : Bool} (h : Inv s q) (hc : s.call p = some (.acquire c))
    (hok : ¬Stale s (.thread p spurious)) {r : Mem O × List O × Option (AcquirePc O)}
    (hr : acquireStep spurious s.mem (s.held p) c = r)
    (h' : Inv (s.access p r.1 r.2.1 (r.2.2.map .acquire)) q') :
    Change maxSize s (s.access p r.1 r.2.1 (r.2.2.map .acquire)) (.thread p spurious) q q' := by
  have hmine := h.relies p _ hc
  have hmark := mark_call hc
  have hfrom : ∀ head : Option O, ((some (acquireFrom head)).map Pc.acquire).elim .outside Pc.mark = .outside := by
    rintro (_ | obj) <;> rfl
  cases c with
  | loadHead =>
    subst hr
    exact .access h h' rfl rfl (fun _ _ => rfl) ((hfrom _).trans hmark.symm)
  | loadNext obj =>
    subst hr
    exact .access h h' rfl rfl (fun _ _ => rfl) hmark.symm
  | exchange obj next =>
    simp only [acquireStep] at hr
    split_ifs at hr with hx
    · subst hr
      obtain ⟨rest, rfl, hpath⟩ := h.exchanged hc hok hx
      obtain rfl : rest = q' := hpath.unique h'.path
      exact .pop p obj hmark rfl rfl mark_access
    · subst hr
      exact .access h h' rfl rfl (fun _ _ => rfl) ((hfrom _).trans hmark.symm)
  | uncount obj =>
    subst hr
    exact .uncount p spurious obj rfl hc (same_pool h' h.path rfl fun _ _ => rfl) rfl mark_access
  | clear obj =>
    subst hr
    refine .access h h' rfl rfl (fun o ho => Function.update_of_ne ?_ _ _) hmark.symm
    exact fun he => ho (he ▸ hmine)
  | allocate =>
    subst hr
    exact .access h h' rfl rfl (fun _ _ => rfl) hmark.symm

omit [DecidableEq O] [DecidableEq P] in
/-- The call that has popped an object, and the call that has pushed one. -/
theorem call_of_mark {obj : O} : (s.mark p = .popped obj → s.call p = some (.acquire (.uncount obj))) ∧
    (s.mark p = .pushed obj → s.call p = some (.release (.count obj))) := by
  cases hc : s.call p with
  | none => simp [State.mark, hc]
  | some c =>
    rw [mark_call hc]
    cases c with
    | acquire c => cases c <;> simp [Pc.mark]
    | release c => cases c <;> simp [Pc.mark]

omit [DecidableEq O] [DecidableEq P] in
/-- Who has popped an object holds it. -/
theorem Inv.popped (h : Inv s q) {obj : O} (hp : s.mark p = .popped obj) : obj ∈ s.held p :=
  h.relies p _ (call_of_mark.1 hp)

/-- An access of `Release`. -/
theorem change_release {c : ReleasePc O} {spurious : Bool} (h : Inv s q) (hc : s.call p = some (.release c))
    {r : Mem O × List O × Option (ReleasePc O)} (hr : releaseStep maxSize spurious s.mem (s.held p) c = r)
    (h' : Inv (s.access p r.1 r.2.1 (r.2.2.map .release)) q') :
    Change maxSize s (s.access p r.1 r.2.1 (r.2.2.map .release)) (.thread p spurious) q q' := by
  have hmine := h.relies p _ hc
  have hmark := mark_call hc
  cases c with
  | loadCount obj =>
    simp only [releaseStep] at hr
    split_ifs at hr with hfull
    · subst hr
      exact .access h h' rfl rfl (fun _ _ => rfl) hmark.symm
    · subst hr
      exact .check p spurious obj rfl hc (UInt64.not_le.mp hfull) (same_pool h' h.path rfl fun _ _ => rfl) rfl
        mark_access
  | clear obj =>
    subst hr
    refine .access h h' rfl rfl (fun o ho => Function.update_of_ne ?_ _ _) hmark.symm
    exact fun he => ho (he ▸ hmine)
  | loadHead obj =>
    subst hr
    exact .access h h' rfl rfl (fun _ _ => rfl) hmark.symm
  | link obj expected =>
    subst hr
    refine .access h h' rfl rfl (fun o ho => Function.update_of_ne ?_ _ _) hmark.symm
    exact fun he => ho (he ▸ hmine)
  | exchange obj expected =>
    obtain ⟨hobj, hlink⟩ := hmine
    simp only [releaseStep] at hr
    split_ifs at hr with hx
    · subst hr
      have hpool : q' = obj :: q := by
        refine h'.path.unique ⟨rfl, ?_⟩
        show Path s.mem.next (s.mem.next obj) q
        rw [hlink, ← hx.1]
        exact h.path
      refine .push p obj hmark (h.outside p obj hobj) (fun p' hp' => ?_) hpool rfl mark_access
      obtain rfl := h.apart p' p obj (h.popped hp') hobj
      rw [hmark] at hp'
      cases hp'
    · subst hr
      exact .access h h' rfl rfl (fun _ _ => rfl) hmark.symm
  | count obj =>
    subst hr
    exact .count p obj hmark (same_pool h' h.path rfl fun _ _ => rfl) rfl mark_access

/-- **What one step changes.** -/
theorem change_step (h : Inv s q) (hok : ¬Stale s l) (hst : step maxSize s l = some t) :
    ∃ q', Inv t q' ∧ Change maxSize s t l q q' := by
  obtain ⟨q', h'⟩ := inv_step h hok hst
  refine ⟨q', h', ?_⟩
  have hcall : ∀ {p c}, s.call p = none → Pc.mark c = .outside →
      ({ s with call := Function.update s.call p (some c) } : State O P).mark = s.mark := by
    intro p c hp hc
    funext i
    by_cases hi : i = p
    · subst hi
      simp [State.mark, hp, hc]
    · simp [State.mark, hi]
  cases l with
  | acquire p =>
    obtain ⟨hp, hst⟩ := Option.ite_none_right_eq_some.mp hst
    cases hst
    exact .idle (same_pool h' h.path rfl fun _ _ => rfl) rfl (hcall hp rfl)
  | release p obj =>
    obtain ⟨⟨hp, -⟩, hst⟩ := Option.ite_none_right_eq_some.mp hst
    cases hst
    exact .idle (same_pool h' h.path rfl fun _ _ => rfl) rfl (hcall hp rfl)
  | thread p spurious =>
    simp only [step] at hst
    split at hst
    · next c hc =>
      cases hst
      exact change_acquire h hc hok rfl h'
    · next c hc =>
      cases hst
      exact change_release h hc rfl h'
    · cases hst
  | new p obj =>
    obtain ⟨⟨hp, hnew⟩, hst⟩ := Option.ite_none_right_eq_some.mp hst
    cases hst
    have hborn : ∀ o ∈ q, o ≠ obj := by
      rintro o ho rfl
      rw [h.pooled o ho] at hnew
      cases hnew
    refine .idle (same_pool h' h.path rfl fun o ho => Function.update_of_ne (hborn o ho) _ _) rfl ?_
    have hout : (none : Option (Pc O)).elim .outside Pc.mark = s.mark p := (mark_call hp).symm
    have hsame : Function.update s.mark p ((none : Option (Pc O)).elim .outside Pc.mark) = s.mark := by
      rw [hout, Function.update_eq_self]
    have hmark : (s.access p s.mem [] none).mark = _ := mark_access
    exact hmark.trans hsame

/-! ## The counter -/

/-- The objects that have been pushed and not counted: they are in the pool, or their `Acquire` has not decremented
`count_` either; and each has been pushed by one call. -/
structure Uncounted (s : State O P) (q : List O) : Prop where
  pooled : ∀ p obj, s.mark p = .pushed obj → obj ∈ q ∨ ∃ p', s.mark p' = .popped obj
  single : ∀ p p' obj, s.mark p = .pushed obj → s.mark p' = .pushed obj → p = p'

/-- The pool and `count_` are within the limit: `count_` is ahead of the pool by the `a` calls that have popped, and
behind by the `r` calls that have pushed, and there is room for the `n` calls of `Release` that have checked. -/
structure Bounded (maxSize : UInt64) (s : State O P) (q : List O) (a r n : Int) : Prop where
  inv : Inv s q
  popped : Counts (s.At Mark.isPopped) a
  pushed : Counts (s.At Mark.isPushed) r
  releasing : Counts (s.At Mark.releasing) n
  count : (s.mem.count.toNat : Int) = q.length + a - r
  room : s.mem.count.toNat + n ≤ maxSize.toNat
  uncounted : Uncounted s q

variable {a r n : Int}

omit [DecidableEq O] [DecidableEq P] in
theorem inPool_of_path (h : Path s.mem.next s.mem.head q) (hq : q.Nodup) : InPool s q.length :=
  ⟨q, hq, fun _ => h.reaches_iff.symm, rfl⟩

omit [DecidableEq O] [DecidableEq P] in
theorem Bounded.limit (h : Bounded maxSize s q a r n) : Limit maxSize s := by
  have hpushed : r ≤ n := h.pushed.embed h.releasing id Function.injective_id fun i hi => by
    show (s.mark i).releasing = true
    rw [State.At] at hi
    cases hm : s.mark i <;> rw [hm] at hi <;> first | rfl | cases hi
  have hcount := h.count
  have hroom := h.room
  have hpopped := h.popped.nonneg
  have hreleasing := h.releasing.nonneg
  exact ⟨⟨q.length, inPool_of_path h.inv.path h.inv.nodup, by omega⟩, UInt64.le_iff_toNat_le.mpr (by omega)⟩

/-- The object that a call has pushed or popped, and that `count_` does not count yet, or counts still. -/
def Mark.obj : Mark O → Option O
  | .pushed obj | .popped obj => some obj
  | _ => none

omit [DecidableEq O] in
/-- **An `Acquire` decrements a positive `count_`**, when its object has been counted. -/
theorem Bounded.positive (h : Bounded maxSize s q a r n) {obj : O} (hp : s.mark p = .popped obj)
    (hcounted : ∀ p', s.mark p' ≠ .pushed obj) : 0 < s.mem.count.toNat := by
  obtain ⟨la, hnda, hla, ha⟩ := h.popped
  obtain ⟨lr, hndr, hlr, hr⟩ := h.pushed
  have hpushed : ∀ i ∈ lr, ∃ o, s.mark i = .pushed o := by
    intro i hi
    have hi := (hlr i).mp hi
    unfold State.At at hi
    cases hm : s.mark i <;> rw [hm] at hi <;> first | exact ⟨_, rfl⟩ | cases hi
  have hmem : p ∈ la := (hla p).mpr (by rw [State.At, hp]; rfl)
  -- the objects that are not counted are in the pool, or other calls have popped them
  have hsub : lr.map (fun i => (s.mark i).obj) ⊆ q.map some ++ (la.erase p).map fun i => (s.mark i).obj := by
    intro x hx
    obtain ⟨i, hi, rfl⟩ := List.mem_map.mp hx
    obtain ⟨o, ho⟩ := hpushed i hi
    rw [ho]
    obtain hq | ⟨p', hp'⟩ := h.uncounted.pooled i o ho
    · exact List.mem_append_left _ (List.mem_map_of_mem hq)
    · have hne : p' ≠ p := by
        rintro rfl
        cases hp.symm.trans hp'
        exact hcounted i ho
      refine List.mem_append_right _ (List.mem_map.mpr ⟨p', ?_, by rw [hp']; rfl⟩)
      exact (List.mem_erase_of_ne hne).mpr ((hla p').mpr (by rw [State.At, hp']; rfl))
  have hnodup : (lr.map fun i => (s.mark i).obj).Nodup := by
    refine hndr.map_on fun i hi j hj hij => ?_
    obtain ⟨o, ho⟩ := hpushed i hi
    obtain ⟨o', ho'⟩ := hpushed j hj
    rw [ho, ho'] at hij
    cases hij
    exact h.uncounted.single i j o ho ho'
  have hlen := (List.subperm_of_subset hnodup hsub).length_le
  rw [List.length_append, List.length_map, List.length_map, List.length_map] at hlen
  have herase := List.length_erase_add_one hmem
  have hcount := h.count
  omega

omit [DecidableEq O] in
/-- Where the calls are after a step of one of them. -/
theorem mark_cases {m : Mark O} (hmark : t.mark = Function.update s.mark p m) {i : P} {k : Mark O} (hk : t.mark i = k) :
    i = p ∧ k = m ∨ i ≠ p ∧ s.mark i = k := by
  by_cases hi : i = p
  · subst hi
    rw [hmark, Function.update_self] at hk
    exact .inl ⟨rfl, hk.symm⟩
  · rw [hmark, Function.update_of_ne hi] at hk
    exact .inr ⟨hi, hk⟩

omit [DecidableEq O] in
/-- A call goes on without a push; an object that it has popped has been counted. -/
theorem Uncounted.keep {m : Mark O} (h : Uncounted s q) (hmark : t.mark = Function.update s.mark p m)
    (hm : ∀ obj, m ≠ .pushed obj) (hcounted : ∀ obj, s.mark p = .popped obj → ∀ p', s.mark p' ≠ .pushed obj)
    (hq : ∀ obj ∈ q, obj ∈ q' ∨ m = .popped obj) : Uncounted t q' := by
  have hpushed : ∀ {i o}, t.mark i = .pushed o → s.mark i = .pushed o := by
    intro i o hi
    obtain ⟨-, hk⟩ | ⟨-, hi⟩ := mark_cases hmark hi
    · exact absurd hk.symm (hm o)
    · exact hi
  refine ⟨fun i o hi => ?_, fun i j o hi hj => h.single i j o (hpushed hi) (hpushed hj)⟩
  obtain ho | ⟨j, hj⟩ := h.pooled i o (hpushed hi)
  · refine (hq o ho).imp_right fun hpop => ⟨p, ?_⟩
    rw [hmark, Function.update_self, hpop]
  · have hjp : j ≠ p := by
      rintro rfl
      exact hcounted o hj i (hpushed hi)
    exact .inr ⟨j, by rw [hmark, Function.update_of_ne hjp, hj]⟩

omit [DecidableEq O] in
/-- A call pushes an object, which nobody else has pushed. -/
theorem Uncounted.push {obj : O} (h : Uncounted s q) (hmark : t.mark = Function.update s.mark p (.pushed obj))
    (hin : s.mark p = .checked) (hout : obj ∉ q) (hheld : ∀ p', s.mark p' ≠ .popped obj) : Uncounted t (obj :: q) := by
  have hnew : ∀ i, s.mark i ≠ .pushed obj := fun i hi => by
    obtain ho | ⟨j, hj⟩ := h.pooled i obj hi
    · exact hout ho
    · exact hheld j hj
  refine ⟨fun i o hi => ?_, fun i j o hi hj => ?_⟩
  · obtain ⟨-, hk⟩ | ⟨-, hi⟩ := mark_cases hmark hi
    · cases hk
      exact .inl List.mem_cons_self
    · refine (h.pooled i o hi).imp (List.mem_cons_of_mem _) fun ⟨j, hj⟩ => ⟨j, ?_⟩
      have hjp : j ≠ p := by
        rintro rfl
        cases hin.symm.trans hj
      rw [hmark, Function.update_of_ne hjp, hj]
  · obtain ⟨rfl, hk⟩ | ⟨-, hi⟩ := mark_cases hmark hi <;> obtain ⟨rfl, hk'⟩ | ⟨-, hj⟩ := mark_cases hmark hj
    · rfl
    · cases hk
      exact absurd hj (hnew j)
    · cases hk'
      exact absurd hi (hnew i)
    · exact h.single i j o hi hj

/-- **One step** within the limit. -/
theorem Bounded.step (h : Bounded maxSize s q a r n) (hok : ¬Stale s l ∧ ¬Overlaps maxSize s l)
    (hst : ObjectPool.step maxSize s l = some t) : ∃ q' a' r' n', Bounded maxSize t q' a' r' n' := by
  obtain ⟨q', h', hchange⟩ := change_step h.inv hok.1 hst
  have hsize := maxSize.toNat_lt
  have hcount := h.count
  have hroom := h.room
  cases hchange with
  | idle hq hcnt hmark =>
    subst hq
    have hat : ∀ f i, t.At f i ↔ s.At f i := fun f i => by rw [State.At, State.At, hmark]
    refine ⟨q', a, r, n, h', h.popped.congr (hat _), h.pushed.congr (hat _), h.releasing.congr (hat _), hcnt ▸ h.count,
      hcnt ▸ h.room, ⟨?_, ?_⟩⟩
    · rw [hmark]
      exact h.uncounted.pooled
    · rw [hmark]
      exact h.uncounted.single
  | check p spurious obj hl hc hbelow hq hcnt hmark =>
    subst hl hq
    have hout : s.mark p = .outside := mark_call hc
    -- alone, the call relies on its check
    have hnext : s.mem.count.toNat + n < maxSize.toNat := by
      have hlt := UInt64.lt_iff_toNat_lt.mp hbelow
      by_contra hfull
      have hnonneg := h.releasing.nonneg
      exact hok.2 (.inl ⟨obj, n, hc, hbelow, h.releasing, by omega, by omega⟩)
    have hne : ¬s.At Mark.releasing p := by simp [State.At, hout, Mark.releasing]
    refine ⟨q', a, r, n + 1, h', h.popped.congr (at_same hmark (by rw [hout]; rfl)),
      h.pushed.congr (at_same hmark (by rw [hout]; rfl)), h.releasing.insert hne (at_join hmark rfl), hcnt ▸ h.count,
      by rw [hcnt]; omega, h.uncounted.keep hmark nofun (fun o ho => ?_) fun o ho => .inl ho⟩
    cases hout.symm.trans ho
  | pop p obj hout hq hcnt hmark =>
    subst hq
    rw [List.length_cons] at hcount
    have hne : ¬s.At Mark.isPopped p := by simp [State.At, hout, Mark.isPopped]
    refine ⟨q', a + 1, r, n, h', h.popped.insert hne (at_join hmark rfl),
      h.pushed.congr (at_same hmark (by rw [hout]; rfl)), h.releasing.congr (at_same hmark (by rw [hout]; rfl)),
      by rw [hcnt]; omega, hcnt ▸ h.room, h.uncounted.keep hmark nofun (fun o ho => ?_) fun o ho => ?_⟩
    · cases hout.symm.trans ho
    · obtain rfl | ho := List.mem_cons.mp ho
      · exact .inr rfl
      · exact .inl ho
  | uncount p spurious obj hl hc hq hcnt hmark =>
    subst hl hq
    have hin : s.mark p = .popped obj := mark_call hc
    have hcounted : ∀ p', s.mark p' ≠ .pushed obj := fun p' hp' =>
      hok.2 (.inr ⟨obj, p', hc, call_of_mark.2 hp'⟩)
    have hpos := h.positive hin hcounted
    have hnat : t.mem.count.toNat = s.mem.count.toNat - 1 := by
      rw [hcnt]
      exact UInt64.toNat_sub_of_le _ _ (UInt64.le_iff_toNat_le.mpr hpos)
    refine ⟨q', a - 1, r, n, h', h.popped.erase (by rw [State.At, hin]; rfl) (at_leave hmark rfl),
      h.pushed.congr (at_same hmark (by rw [hin]; rfl)), h.releasing.congr (at_same hmark (by rw [hin]; rfl)),
      by omega, by omega, h.uncounted.keep hmark nofun (fun o ho => ?_) fun o ho => .inl ho⟩
    cases hin.symm.trans ho
    exact hcounted
  | push p obj hin hnew hheld hq hcnt hmark =>
    subst hq
    have hne : ¬s.At Mark.isPushed p := by simp [State.At, hin, Mark.isPushed]
    refine ⟨obj :: q, a, r + 1, n, h', h.popped.congr (at_same hmark (by rw [hin]; rfl)),
      h.pushed.insert hne (at_join hmark rfl), h.releasing.congr (at_same hmark (by rw [hin]; rfl)),
      by rw [hcnt, List.length_cons]; omega, hcnt ▸ h.room, h.uncounted.push hmark hin hnew hheld⟩
  | count p obj hin hq hcnt hmark =>
    subst hq
    have hpos : 0 < n := h.releasing.pos (j := p) (by rw [State.At, hin]; rfl)
    have hnat : t.mem.count.toNat = s.mem.count.toNat + 1 := by
      rw [hcnt, UInt64.toNat_add]
      exact Nat.mod_eq_of_lt (by rw [UInt64.toNat_one]; omega)
    refine ⟨q', a, r - 1, n - 1, h', h.popped.congr (at_same hmark (by rw [hin]; rfl)),
      h.pushed.erase (by rw [State.At, hin]; rfl) (at_leave hmark rfl),
      h.releasing.erase (by rw [State.At, hin]; rfl) (at_leave hmark rfl), by omega, by omega,
      h.uncounted.keep hmark nofun (fun o ho => ?_) fun o ho => .inl ho⟩
    cases hin.symm.trans ho

theorem reach_bounded (hs : Reach (system O P maxSize) (fun s l => ¬Stale s l ∧ ¬Overlaps maxSize s l) s) :
    ∃ q a r n, Bounded maxSize s q a r n := by
  refine hs.invariant (I := fun s => ∃ q a r n, Bounded maxSize s q a r n) ?_
    fun s t l ⟨q, a, r, n, h⟩ hok hst => h.step hok hst
  rintro _ rfl
  have hzero : ∀ f : Mark O → Bool, f .outside = false → Counts ((State.empty : State O P).At f) 0 := fun f hf =>
    .zero fun i hi => by rw [State.At, State.mark, State.empty, Option.elim_none, hf] at hi; cases hi
  refine ⟨[], 0, 0, 0, ?_, hzero _ rfl, hzero _ rfl, hzero _ rfl, rfl, ?_, nofun, nofun⟩
  · exact ⟨rfl, List.nodup_nil, fun _ => List.nodup_nil, nofun, nofun, nofun, nofun, nofun⟩
  · exact Int.ofNat_le.mpr (Nat.zero_le _)

end Step

end Cothread.ObjectPool
