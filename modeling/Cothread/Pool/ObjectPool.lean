import Cothread.Lib.Chain
import Cothread.Lib.Run
import Mathlib.Algebra.Group.Int.Defs
import Mathlib.Algebra.Group.Nat.Defs

/-!
# `ObjectPool`: one holder for each object

The pool is a stack of objects that are linked by `pool_next`. Any number of threads run `Acquire` and `Release`, one
call at a time each. The exchange of `head_` in `Acquire` compares `head_` alone: while the call was between its read
of `pool_next` and the exchange, the object may have been taken and put back, and then what it links to is not what
was read (`two_holders`). While no such exchange succeeds, every object has one holder, and no object that is held is
in the pool (`one_holder`).
-/

namespace Cothread.ObjectPool

open Run Chain

/-- `head_`, `count_` and the `pool_next` of every object. -/
structure Mem (O : Type*) where
  head : Option O
  count : UInt64
  next : O → Option O

/-- The next atomic access of an `Acquire` in progress. -/
inductive AcquirePc (O : Type*)
  | loadHead  -- `obj = head_.load()`
  | loadNext (obj : O)  -- `next = obj->pool_next.load()`
  | exchange (obj : O) (next : Option O)  -- `head_.compare_exchange_weak(obj, next)`
  | uncount (obj : O)  -- `count_.fetch_sub(1)`
  | clear (obj : O)  -- `obj->pool_next.store(nullptr)`, then `return obj`
  | allocate  -- `return new T()`
  deriving DecidableEq

/-- The next atomic access of a `Release` in progress. -/
inductive ReleasePc (O : Type*)
  | loadCount (obj : O)  -- `current_count = count_.load()`, and `delete obj` when the pool is full
  | clear (obj : O)  -- `obj->pool_next.store(nullptr)`
  | loadHead (obj : O)  -- `expected = head_.load()`
  | link (obj : O) (expected : Option O)  -- `obj->pool_next.store(expected)`
  | exchange (obj : O) (expected : Option O)  -- `head_.compare_exchange_weak(expected, obj)`
  | count (obj : O)  -- `count_.fetch_add(1)`
  deriving DecidableEq

inductive Pc (O : Type*)
  | acquire (pc : AcquirePc O)
  | release (pc : ReleasePc O)
  deriving DecidableEq

section Steps

variable {O P : Type*} [DecidableEq O] [DecidableEq P]

/-- `obj` is the value of `head_` that the loop of `Acquire` goes on with. -/
def acquireFrom : Option O → AcquirePc O
  | some obj => .loadNext obj
  | none => .allocate

/-- One atomic access of `Acquire` by a thread that holds `held`; with `spurious` the weak exchange fails whatever
`head_` holds. `new T()` is no access of the pool. -/
def acquireStep (spurious : Bool) (m : Mem O) (held : List O) : AcquirePc O → Mem O × List O × Option (AcquirePc O)
  | .loadHead => (m, held, some (acquireFrom m.head))
  | .loadNext obj => (m, held, some (.exchange obj (m.next obj)))
  | .exchange obj next =>
    if m.head = some obj ∧ spurious = false then ({ m with head := next }, obj :: held, some (.uncount obj))
    else (m, held, some (acquireFrom m.head))
  | .uncount obj => ({ m with count := m.count - 1 }, held, some (.clear obj))
  | .clear obj => ({ m with next := Function.update m.next obj none }, held, none)
  | .allocate => (m, held, some .allocate)

/-- One atomic access of `Release`; the object is held until it is in the pool or deleted. -/
def releaseStep (maxSize : UInt64) (spurious : Bool) (m : Mem O) (held : List O) :
    ReleasePc O → Mem O × List O × Option (ReleasePc O)
  | .loadCount obj => if maxSize ≤ m.count then (m, held.erase obj, none) else (m, held, some (.clear obj))
  | .clear obj => ({ m with next := Function.update m.next obj none }, held, some (.loadHead obj))
  | .loadHead obj => (m, held, some (.link obj m.head))
  | .link obj expected =>
    ({ m with next := Function.update m.next obj expected }, held, some (.exchange obj expected))
  | .exchange obj expected =>
    if m.head = expected ∧ spurious = false then ({ m with head := some obj }, held.erase obj, some (.count obj))
    else (m, held, some (.link obj m.head))
  | .count _ => ({ m with count := m.count + 1 }, held, none)

/-- The pool, the calls in progress, the objects that each thread holds, and those that were ever allocated. -/
structure State (O P : Type*) where
  mem : Mem O
  call : P → Option (Pc O)
  held : P → List O
  born : O → Bool

inductive Label (O P : Type*)
  | acquire (p : P)
  | release (p : P) (obj : O)
  | thread (p : P) (spurious : Bool)
  | new (p : P) (obj : O)
  deriving DecidableEq

/-- The thread has done an access of its call. -/
def State.access (s : State O P) (p : P) (m : Mem O) (held : List O) (pc : Option (Pc O)) : State O P :=
  { s with mem := m, call := Function.update s.call p pc, held := Function.update s.held p held }

/-- One step. A thread releases an object that it holds, and allocates an object that was not there before. -/
def step (maxSize : UInt64) (s : State O P) : Label O P → Option (State O P)
  | .acquire p =>
    if s.call p = none then some { s with call := Function.update s.call p (some (.acquire .loadHead)) } else none
  | .release p obj =>
    if s.call p = none ∧ obj ∈ s.held p then
      some { s with call := Function.update s.call p (some (.release (.loadCount obj))) }
    else none
  | .thread p spurious =>
    match s.call p with
    | some (.acquire pc) =>
      let r := acquireStep spurious s.mem (s.held p) pc
      some (s.access p r.1 r.2.1 (r.2.2.map .acquire))
    | some (.release pc) =>
      let r := releaseStep maxSize spurious s.mem (s.held p) pc
      some (s.access p r.1 r.2.1 (r.2.2.map .release))
    | none => none
  | .new p obj =>
    if s.call p = some (.acquire .allocate) ∧ s.born obj = false then
      some { s.access p { s.mem with next := Function.update s.mem.next obj none } (obj :: s.held p) none with
        born := Function.update s.born obj true }
    else none

/-- An empty pool. -/
def State.empty : State O P := ⟨⟨none, 0, fun _ => none⟩, fun _ => none, fun _ => [], fun _ => false⟩

/-- Any threads on a pool of `maxSize` objects. -/
def system (O P : Type*) [DecidableEq O] [DecidableEq P] (maxSize : UInt64) : System (State O P) (Label O P) where
  init s := s = .empty
  step := step maxSize

omit [DecidableEq O] [DecidableEq P] in
/-- **One holder**: no object is held twice, and no object that is held is in the pool. -/
def OneHolder (s : State O P) : Prop :=
  (∀ p, (s.held p).Nodup) ∧ (∀ p p' obj, obj ∈ s.held p → obj ∈ s.held p' → p = p') ∧
    ∀ p obj, obj ∈ s.held p → ¬Reaches s.mem.next s.mem.head obj

/-- An exchange of `head_` in `Acquire` succeeds although the object no longer links to what the call has read. -/
def Stale (s : State O P) : Label O P → Prop
  | .thread p spurious => ∃ obj next, s.call p = some (.acquire (.exchange obj next)) ∧ s.mem.head = some obj ∧
      spurious = false ∧ s.mem.next obj ≠ next
  | _ => False

/-! ## The invariant -/

/-- What a call in progress relies on. -/
def Relies (m : Mem O) (held : List O) : Pc O → Prop
  | .acquire (.uncount obj) | .acquire (.clear obj) => obj ∈ held
  | .release (.loadCount obj) | .release (.clear obj) | .release (.loadHead obj) | .release (.link obj _) => obj ∈ held
  | .release (.exchange obj expected) => obj ∈ held ∧ m.next obj = expected
  | _ => True

/-- The pool holds the objects of `q`, and the others are held or deleted. -/
structure Inv (s : State O P) (q : List O) : Prop where
  path : Path s.mem.next s.mem.head q
  nodup : q.Nodup
  once : ∀ p, (s.held p).Nodup
  apart : ∀ p p' obj, obj ∈ s.held p → obj ∈ s.held p' → p = p'
  outside : ∀ p obj, obj ∈ s.held p → obj ∉ q
  pooled : ∀ obj ∈ q, s.born obj = true
  owned : ∀ p, ∀ obj ∈ s.held p, s.born obj = true
  relies : ∀ p pc, s.call p = some pc → Relies s.mem (s.held p) pc

omit [DecidableEq O] [DecidableEq P] in
theorem Inv.oneHolder {s : State O P} {q : List O} (h : Inv s q) : OneHolder s :=
  ⟨h.once, h.apart, fun p obj ho hr => h.outside p obj ho (h.path.reaches_iff.mp hr)⟩

variable {s t : State O P} {q : List O} {p : P} {m : Mem O} {held : List O} {pc : Option (Pc O)}

omit [DecidableEq O] in
/-- **An access of the thread**: the pool goes from `q` to `q'`, and what the thread holds to `held`. -/
theorem Inv.access (h : Inv s q) {q' : List O} (hpath : Path m.next m.head q') (hq : q'.Nodup) (hheld : held.Nodup)
    (hout : ∀ p' obj, p' ≠ p → obj ∈ s.held p' → obj ∉ held ∧ obj ∉ q') (hin : ∀ obj ∈ held, obj ∉ q')
    (hborn : ∀ obj, obj ∈ held ∨ obj ∈ q' → s.born obj = true)
    (hnext : ∀ p' obj, p' ≠ p → obj ∈ s.held p' → m.next obj = s.mem.next obj)
    (hpc : ∀ c, pc = some c → Relies m held c) : Inv (s.access p m held pc) q' := by
  have hheldAt : ∀ p' obj, obj ∈ (s.access p m held pc).held p' →
      (p' = p ∧ obj ∈ held) ∨ (p' ≠ p ∧ obj ∈ s.held p') := by
    intro p' obj ho
    by_cases hp : p' = p
    · subst hp
      exact Or.inl ⟨rfl, by simpa [State.access] using ho⟩
    · exact Or.inr ⟨hp, by simpa [State.access, hp] using ho⟩
  refine ⟨hpath, hq, fun p' => ?_, fun p₁ p₂ obj h₁ h₂ => ?_, fun p' obj ho => ?_, fun obj ho => hborn obj (Or.inr ho),
    fun p' obj ho => ?_, fun p' c hc => ?_⟩
  · by_cases hp : p' = p
    · subst hp; simpa [State.access] using hheld
    · simpa [State.access, hp] using h.once p'
  · obtain ⟨hp₁, hm₁⟩ | ⟨hp₁, hm₁⟩ := hheldAt p₁ obj h₁ <;> obtain ⟨hp₂, hm₂⟩ | ⟨hp₂, hm₂⟩ := hheldAt p₂ obj h₂
    · exact hp₁.trans hp₂.symm
    · exact absurd hm₁ (hout p₂ obj hp₂ hm₂).1
    · exact absurd hm₂ (hout p₁ obj hp₁ hm₁).1
    · exact h.apart p₁ p₂ obj hm₁ hm₂
  · obtain ⟨-, hm⟩ | ⟨hp, hm⟩ := hheldAt p' obj ho
    · exact hin obj hm
    · exact (hout p' obj hp hm).2
  · obtain ⟨-, hm⟩ | ⟨-, hm⟩ := hheldAt p' obj ho
    · exact hborn obj (Or.inl hm)
    · exact h.owned p' obj hm
  · by_cases hp : p' = p
    · subst hp
      have hc' : pc = some c := by simpa [State.access] using hc
      simpa [State.access] using hpc c hc'
    · have hc' : s.call p' = some c := by simpa [State.access, hp] using hc
      have hr := h.relies p' c hc'
      have hkeep : ∀ obj ∈ s.held p', m.next obj = s.mem.next obj := fun obj => hnext p' obj hp
      show Relies m (Function.update s.held p held p') c
      rw [Function.update_of_ne hp]
      cases c with
      | acquire c => cases c <;> exact hr
      | release c =>
        cases c with
        | exchange obj expected => exact ⟨hr.1, (hkeep obj hr.1).trans hr.2⟩
        | _ => exact hr

omit [DecidableEq O] in
/-- An access that changes neither `head_` nor what the thread holds, and no link but those of its objects. -/
theorem Inv.idle (h : Inv s q) (hhead : m.head = s.mem.head)
    (hnext : ∀ obj, obj ∉ s.held p → m.next obj = s.mem.next obj) (hpc : ∀ c, pc = some c → Relies m (s.held p) c) :
    Inv (s.access p m (s.held p) pc) q := by
  have hother : ∀ p' obj, p' ≠ p → obj ∈ s.held p' → obj ∉ s.held p := fun p' obj hp ho hm =>
    hp (h.apart p' p obj ho hm)
  refine h.access ?_ h.nodup (h.once p) (fun p' obj hp ho => ⟨hother p' obj hp ho, h.outside p' obj ho⟩) (h.outside p)
    (fun obj ho => ho.elim (h.owned p obj) (h.pooled obj)) (fun p' obj hp ho => hnext obj (hother p' obj hp ho)) hpc
  rw [hhead]
  exact h.path.congr fun obj ho => hnext obj fun hm => h.outside p obj hm ho

omit [DecidableEq P] in
/-- The exchange of an `Acquire` that is not stale takes the first object. -/
theorem Inv.exchanged (h : Inv s q) {obj : O} {next : Option O} (hc : s.call p = some (.acquire (.exchange obj next)))
    {spurious : Bool} (hok : ¬Stale s (.thread p spurious)) (hx : s.mem.head = some obj ∧ spurious = false) :
    ∃ rest, q = obj :: rest ∧ Path s.mem.next next rest := by
  have hlink : s.mem.next obj = next := by
    by_contra hne
    exact hok ⟨obj, next, hc, hx.1, hx.2, hne⟩
  have hq := h.path.head
  rw [hx.1] at hq
  obtain ⟨rest, rfl⟩ : ∃ rest, q = obj :: rest := ⟨_, (List.cons_head?_tail (Option.mem_def.mpr hq.symm)).symm⟩
  exact ⟨rest, rfl, hlink ▸ h.path.2⟩

/-- An access of `Acquire`. -/
theorem Inv.acquireStep (h : Inv s q) {c : AcquirePc O} (hc : s.call p = some (.acquire c)) {spurious : Bool}
    (hok : ¬Stale s (.thread p spurious)) {r : Mem O × List O × Option (AcquirePc O)}
    (hr : ObjectPool.acquireStep spurious s.mem (s.held p) c = r) :
    ∃ q, Inv (s.access p r.1 r.2.1 (r.2.2.map .acquire)) q := by
  have hmine := h.relies p _ hc
  have hfrom : ∀ (head : Option O) (c : Pc O), (some (acquireFrom head)).map Pc.acquire = some c →
      Relies s.mem (s.held p) c := by
    rintro (_ | obj) c hc <;> cases hc <;> trivial
  cases c with
  | loadHead => subst hr; exact ⟨q, h.idle rfl (fun _ _ => rfl) (hfrom _)⟩
  | loadNext obj => subst hr; exact ⟨q, h.idle rfl (fun _ _ => rfl) fun c hc => by cases hc; trivial⟩
  | exchange obj next =>
    simp only [ObjectPool.acquireStep] at hr
    split_ifs at hr with hx
    · subst hr
      obtain ⟨q, rfl, hpath⟩ := h.exchanged hc hok hx
      obtain ⟨hobj, hnd⟩ := List.nodup_cons.mp h.nodup
      refine ⟨q, h.access hpath hnd ?_ (fun p' o hp ho => ⟨?_, ?_⟩) (fun o ho => ?_) (fun o ho => ?_)
        (fun _ _ _ _ => rfl) fun c hc => by cases hc; exact List.mem_cons_self⟩
      · exact List.nodup_cons.mpr ⟨fun hm => h.outside p obj hm List.mem_cons_self, h.once p⟩
      · rintro (_ | ⟨_, hm⟩)
        · exact h.outside p' obj ho List.mem_cons_self
        · exact hp (h.apart p' p o ho hm)
      · exact fun hm => h.outside p' o ho (List.mem_cons_of_mem _ hm)
      · rcases List.mem_cons.mp ho with rfl | ho
        · exact hobj
        · exact fun hm => h.outside p o ho (List.mem_cons_of_mem _ hm)
      · rcases ho with ho | ho
        · rcases List.mem_cons.mp ho with rfl | ho
          · exact h.pooled o List.mem_cons_self
          · exact h.owned p o ho
        · exact h.pooled o (List.mem_cons_of_mem _ ho)
    · subst hr
      exact ⟨q, h.idle rfl (fun _ _ => rfl) (hfrom _)⟩
  | uncount obj => subst hr; exact ⟨q, h.idle rfl (fun _ _ => rfl) fun c hc => by cases hc; exact hmine⟩
  | clear obj =>
    subst hr
    refine ⟨q, h.idle rfl (fun o ho => Function.update_of_ne ?_ _ _) nofun⟩
    rintro rfl
    exact ho hmine
  | allocate => subst hr; exact ⟨q, h.idle rfl (fun _ _ => rfl) fun c hc => by cases hc; trivial⟩

/-- An access of `Release`. -/
theorem Inv.releaseStep (h : Inv s q) {c : ReleasePc O} (hc : s.call p = some (.release c)) {maxSize : UInt64}
    {spurious : Bool} {r : Mem O × List O × Option (ReleasePc O)}
    (hr : ObjectPool.releaseStep maxSize spurious s.mem (s.held p) c = r) :
    ∃ q, Inv (s.access p r.1 r.2.1 (r.2.2.map .release)) q := by
  have hmine := h.relies p _ hc
  cases c with
  | loadCount obj =>
    simp only [ObjectPool.releaseStep] at hr
    split_ifs at hr
    · subst hr
      refine ⟨q, h.access h.path h.nodup ((h.once p).erase obj) (fun p' o hp ho => ⟨fun hm => ?_, h.outside p' o ho⟩)
        (fun o ho => h.outside p o (List.mem_of_mem_erase ho)) (fun o ho => ?_) (fun _ _ _ _ => rfl) nofun⟩
      · exact hp (h.apart p' p o ho (List.mem_of_mem_erase hm))
      · exact ho.elim (fun ho => h.owned p o (List.mem_of_mem_erase ho)) (h.pooled o)
    · subst hr
      exact ⟨q, h.idle rfl (fun _ _ => rfl) fun c hc => by cases hc; exact hmine⟩
  | clear obj =>
    subst hr
    refine ⟨q, h.idle rfl (fun o ho => Function.update_of_ne ?_ _ _) fun c hc => by cases hc; exact hmine⟩
    rintro rfl
    exact ho hmine
  | loadHead obj => subst hr; exact ⟨q, h.idle rfl (fun _ _ => rfl) fun c hc => by cases hc; exact hmine⟩
  | link obj expected =>
    subst hr
    refine ⟨q, h.idle rfl (fun o ho => Function.update_of_ne ?_ _ _) fun c hc => ?_⟩
    · rintro rfl
      exact ho hmine
    · cases hc
      exact ⟨hmine, Function.update_self ..⟩
  | exchange obj expected =>
    obtain ⟨hobj, hlink⟩ := hmine
    simp only [ObjectPool.releaseStep] at hr
    split_ifs at hr with hx
    · subst hr
      have hne : ∀ o, o ∈ (s.held p).erase obj → o ≠ obj := fun o ho => ((h.once p).mem_erase_iff.mp ho).1
      refine ⟨obj :: q, h.access ⟨rfl, ?_⟩ (List.nodup_cons.mpr ⟨h.outside p obj hobj, h.nodup⟩) ((h.once p).erase obj)
        (fun p' o hp ho => ⟨fun hm => ?_, ?_⟩) (fun o ho => ?_) (fun o ho => ?_) (fun _ _ _ _ => rfl)
        fun c hc => by cases hc; trivial⟩
      · show Path s.mem.next (s.mem.next obj) q
        rw [hlink, ← hx.1]
        exact h.path
      · exact hp (h.apart p' p o ho (List.mem_of_mem_erase hm))
      · rintro (_ | ⟨_, hm⟩)
        · exact hp (h.apart p' p obj ho hobj)
        · exact h.outside p' o ho hm
      · rintro (_ | ⟨_, hm⟩)
        · exact hne obj ho rfl
        · exact h.outside p o (List.mem_of_mem_erase ho) hm
      · rcases ho with ho | ho
        · exact h.owned p o (List.mem_of_mem_erase ho)
        · rcases List.mem_cons.mp ho with rfl | ho
          · exact h.owned p o hobj
          · exact h.pooled o ho
    · subst hr
      exact ⟨q, h.idle rfl (fun _ _ => rfl) fun c hc => by cases hc; exact hobj⟩
  | count obj => subst hr; exact ⟨q, h.idle rfl (fun _ _ => rfl) nofun⟩

omit [DecidableEq O] in
/-- A call starts. -/
theorem Inv.call (h : Inv s q) {c : Pc O} (hc : Relies s.mem (s.held p) c) :
    Inv { s with call := Function.update s.call p (some c) } q := by
  refine ⟨h.path, h.nodup, h.once, h.apart, h.outside, h.pooled, h.owned, fun p' c' hc' => ?_⟩
  by_cases hp : p' = p
  · subst hp
    cases (by simpa using hc' : c = c')
    exact hc
  · exact h.relies p' c' (by simpa [hp] using hc')

/-- An allocated object, which was not there before. -/
theorem Inv.new (h : Inv s q) {obj : O} (hnew : s.born obj = false) :
    Inv { s.access p { s.mem with next := Function.update s.mem.next obj none } (obj :: s.held p) none with
      born := Function.update s.born obj true } q := by
  have hborn : ∀ o, s.born o = true → o ≠ obj := by
    rintro o ho rfl
    rw [hnew] at ho
    cases ho
  have hb : ∀ o, s.born o = true → Function.update s.born obj true o = true := fun o ho => by
    rwa [Function.update_of_ne (hborn o ho)]
  have hlink : ∀ o, s.born o = true → Function.update s.mem.next obj none o = s.mem.next o := fun o ho =>
    Function.update_of_ne (hborn o ho) _ _
  have h' : Inv { s with born := Function.update s.born obj true } q :=
    ⟨h.path, h.nodup, h.once, h.apart, h.outside, fun o ho => hb o (h.pooled o ho), fun p o ho => hb o (h.owned p o ho),
      h.relies⟩
  refine h'.access ?_ h.nodup ?_ (fun p' o hp ho => ⟨?_, h.outside p' o ho⟩) (fun o ho => ?_) (fun o ho => ?_)
    (fun p' o _ ho => hlink o (h.owned p' o ho)) nofun
  · exact h.path.congr fun o ho => hlink o (h.pooled o ho)
  · exact List.nodup_cons.mpr ⟨fun hm => hborn obj (h.owned p obj hm) rfl, h.once p⟩
  · rintro (_ | ⟨_, hm⟩)
    · exact hborn obj (h.owned p' obj ho) rfl
    · exact hp (h.apart p' p o ho hm)
  · rcases List.mem_cons.mp ho with rfl | ho
    · exact fun hm => hborn o (h.pooled o hm) rfl
    · exact h.outside p o ho
  · rcases ho with ho | ho
    · rcases List.mem_cons.mp ho with rfl | ho
      · exact Function.update_self ..
      · exact hb o (h.owned p o ho)
    · exact hb o (h.pooled o ho)

/-- **What one step preserves.** -/
theorem inv_step {maxSize : UInt64} {l : Label O P} (h : Inv s q) (hok : ¬Stale s l) (hst : step maxSize s l = some t) :
    ∃ q, Inv t q := by
  cases l with
  | acquire p =>
    obtain ⟨-, hst⟩ := Option.ite_none_right_eq_some.mp hst
    cases hst
    exact ⟨q, h.call trivial⟩
  | release p obj =>
    obtain ⟨⟨-, hobj⟩, hst⟩ := Option.ite_none_right_eq_some.mp hst
    cases hst
    exact ⟨q, h.call hobj⟩
  | thread p spurious =>
    simp only [step] at hst
    split at hst
    · next c hc =>
      cases hst
      exact h.acquireStep hc hok rfl
    · next c hc =>
      cases hst
      exact h.releaseStep hc rfl
    · cases hst
  | new p obj =>
    obtain ⟨⟨-, hnew⟩, hst⟩ := Option.ite_none_right_eq_some.mp hst
    cases hst
    exact ⟨q, h.new hnew⟩

/-- **One holder for each object** in every run in which no exchange of `head_` in `Acquire` succeeds on an object whose
`pool_next` has changed since the call read it. -/
theorem one_holder {maxSize : UInt64} (hs : Reach (system O P maxSize) (fun s l => ¬Stale s l) s) : OneHolder s := by
  obtain ⟨q, h⟩ := hs.invariant (I := fun s => ∃ q, Inv s q)
    (by
      rintro _ rfl
      exact ⟨[], rfl, List.nodup_nil, fun _ => List.nodup_nil, nofun, nofun, nofun, nofun, nofun⟩)
    fun s t l ⟨q, h⟩ hok hst => inv_step h hok hst
  exact h.oneHolder

end Steps

/-! ## Runs -/

/-- `n` accesses of a thread. -/
def accesses (p : Bool) (n : ℕ) : List (Label Bool Bool) := List.replicate n (.thread p false)

/-- The next pointer that an `Acquire` has read is still there. -/
def nextFresh (s : State Bool Bool) : Label Bool Bool → Bool
  | .thread p _ => match s.call p with
    | some (.acquire (.exchange obj next)) => s.mem.next obj == next
    | _ => true
  | _ => true

/-- A thread allocates an object and puts it into the pool, and the other thread takes it. -/
theorem one_holder_reused : ∃ s : State Bool Bool, s.held false = [] ∧ s.held true = [true] ∧ OneHolder s := by
  have himp : ∀ s l, nextFresh s l = true → ¬Stale s l := by
    intro s l h hst
    cases l with
    | thread p spurious =>
      obtain ⟨obj, next, hc, -, -, hne⟩ := hst
      simp only [nextFresh, hc, beq_iff_eq] at h
      exact hne h
    | _ => exact hst
  exact ⟨_, rfl, rfl, one_holder (reach_exec himp (.init rfl) (show exec (system Bool Bool 256) _
    ([.acquire false] ++ accesses false 1 ++ [.new false true, .release false true] ++ accesses false 6 ++
      .acquire true :: accesses true 5) = some _ from rfl) (by decide))⟩

/-- **Two holders**: a thread has read that object 0 links to object 1; the other thread takes both and puts object 0
back; the exchange of the first thread succeeds and leaves object 1 in the pool, and it takes that as well. -/
theorem two_holders : ∃ s : State Bool Bool, Reachable (system Bool Bool 256) s ∧ (∀ p, s.call p = none) ∧
    true ∈ s.held false ∧ true ∈ s.held true ∧ ¬OneHolder s := by
  have hrun : Reachable (system Bool Bool 256) _ := reachable_exec (.init rfl) (show exec (system Bool Bool 256) .empty
    ([.acquire true] ++ accesses true 1 ++ [.new true false, .acquire true] ++ accesses true 1 ++
      -- object 1 and then object 0 are put into the pool
      [.new true true, .release true true] ++ accesses true 6 ++ [.release true false] ++ accesses true 6 ++
      -- the other thread is about to exchange `head_`, 0 for 1
      [.acquire false] ++ accesses false 2 ++
      [.acquire true] ++ accesses true 5 ++ [.acquire true] ++ accesses true 5 ++ [.release true false] ++
      accesses true 6 ++ accesses false 3 ++ .acquire false :: accesses false 5) = some _ from rfl)
  refine ⟨_, hrun, fun p => by cases p <;> rfl, by decide, by decide, fun h => ?_⟩
  exact absurd (h.2.1 false true true (by decide) (by decide)) nofun

end Cothread.ObjectPool
