import Cothread.Core.Basic
import Cothread.Lib.Run

/-!
# The metas of `AllocMeta`

Any `AllocMeta` and `FreeMeta` calls, each under `meta_mutex_`. A meta is known by its place in `meta_pool_`. Between
the calls a holder, or a worker that runs its coroutine, writes the fields of its meta as it likes. `AllocMeta` takes a
meta for free whose state is FINISHED or whose handle is null. A new meta has a null handle too, and keeps it until its
holder stores one; the state is FINISHED from the end of the coroutine on. So a meta is handed out again while it is
held, unless another one that looks free stands before it (`exclusive_iff`).
-/

namespace Cothread.MetaPool

open Run

/-- `P` are the addresses of frames, sync objects, metas and workers. -/
structure CoroutineMeta (P : Type*) where
  state : TaskState
  handle : Option P
  cancelRequested : Bool
  waitingSync : Option P
  next : Option P
  ownerWorker : Option P

variable {P : Type*}

/-- `CoroutineMeta()`. -/
def CoroutineMeta.new : CoroutineMeta P := ⟨.ready, none, false, none, none, none⟩

/-- The test of `AllocMeta`. -/
def CoroutineMeta.looksFree (m : CoroutineMeta P) : Bool := m.state = .finished || m.handle.isNone

/-- "Reset meta": the handle stays. -/
def CoroutineMeta.reset (m : CoroutineMeta P) : CoroutineMeta P :=
  { m with state := .ready, cancelRequested := false, waitingSync := none, next := none, ownerWorker := none }

/-- `AllocMeta()`: the place of the meta, and the pool. -/
def allocMeta (pool : List (CoroutineMeta P)) : ℕ × List (CoroutineMeta P) :=
  match pool.findIdx? (·.looksFree) with
  | some i => (i, pool.modify i (·.reset))
  | none => (pool.length, pool ++ [.new])

/-- `FreeMeta(meta)`. -/
def freeMeta (pool : List (CoroutineMeta P)) (i : ℕ) : List (CoroutineMeta P) :=
  pool.modify i fun m => { m with state := .finished, handle := none }

structure State (P : Type*) where
  metaPool : List (CoroutineMeta P)
  held : List ℕ  -- what `AllocMeta` has returned and its caller has not given to `FreeMeta` since

inductive Label (P : Type*)
  | alloc
  | free (i : ℕ)
  | write (i : ℕ) (m : CoroutineMeta P)  -- by the holder, or for it

def step (s : State P) : Label P → Option (State P)
  | .alloc => some ⟨(allocMeta s.metaPool).2, (allocMeta s.metaPool).1 :: s.held⟩
  | .free i => if i ∈ s.held then some ⟨freeMeta s.metaPool i, s.held.erase i⟩ else none
  | .write i m => if i ∈ s.held then some { s with metaPool := s.metaPool.set i m } else none

/-- Any calls. -/
def system : System (State P) (Label P) where
  init s := s = ⟨[], []⟩
  step := step

/-- **What is expected of `AllocMeta`**: it returns a meta that nobody holds. -/
def Exclusive (s : State P) (l : Label P) : Prop := l = .alloc → (allocMeta s.metaPool).1 ∉ s.held

/-- Whether `AllocMeta` would take the meta at this place. -/
def State.looksFree (s : State P) (i : ℕ) : Bool := s.metaPool[i]?.any (·.looksFree)

/-- Before a meta that is held and looks free stands one that looks free and is not held. -/
def Covered (s : State P) (l : Label P) : Prop :=
  l = .alloc → ∀ i ∈ s.held, s.looksFree i → ∃ j < i, s.looksFree j ∧ j ∉ s.held

/-! ## `AllocMeta` -/

variable {s s' : State P} {l : Label P}

/-- The first meta that looks free. -/
theorem alloc_some {i : ℕ} (h : s.metaPool.findIdx? (·.looksFree) = some i) :
    s.looksFree i ∧ ∀ j < i, ¬s.looksFree j := by
  obtain ⟨hi, hfree, hbefore⟩ := List.findIdx?_eq_some_iff_getElem.mp h
  constructor
  · unfold State.looksFree
    rw [List.getElem?_eq_getElem hi]
    exact hfree
  · intro j hj
    unfold State.looksFree
    rw [List.getElem?_eq_getElem (Nat.lt_trans hj hi)]
    exact hbefore j hj

/-- No meta looks free. -/
theorem alloc_none (h : s.metaPool.findIdx? (·.looksFree) = none) (i : ℕ) : ¬s.looksFree i := by
  intro hfree
  obtain ⟨m, hm, hfree⟩ := Option.any_eq_true _ _ |>.mp hfree
  have hbusy := List.findIdx?_eq_none_iff.mp h m (List.mem_of_getElem? hm)
  exact absurd (hbusy.symm.trans hfree) (by decide)

/-- **One `AllocMeta`** returns a meta that nobody holds if and only if the first that looks free is not held. -/
theorem alloc_iff (h : ∀ i ∈ s.held, i < s.metaPool.length) :
    (allocMeta s.metaPool).1 ∉ s.held ↔
      ∀ i ∈ s.held, s.looksFree i → ∃ j < i, s.looksFree j ∧ j ∉ s.held := by
  unfold allocMeta
  cases hfind : s.metaPool.findIdx? (·.looksFree) with
  | some k =>
    obtain ⟨hk, hbefore⟩ := alloc_some hfind
    constructor
    · intro hnot i hi hfree
      have hki : k ≤ i := Nat.le_of_not_lt fun hlt => hbefore i hlt hfree
      have hne : k ≠ i := fun heq => hnot (heq ▸ hi)
      exact ⟨k, Nat.lt_of_le_of_ne hki hne, hk, hnot⟩
    · intro hcov hin
      obtain ⟨j, hj, hfree, -⟩ := hcov k hin hk
      exact hbefore j hj hfree
  | none =>
    constructor
    · intro _ i _ hfree
      exact absurd hfree (alloc_none hfind i)
    · intro _ hin
      exact absurd (h _ hin) (Nat.lt_irrefl _)

/-! ## Runs -/

/-- What is held is in the pool. -/
def Inv (s : State P) : Prop := ∀ i ∈ s.held, i < s.metaPool.length

/-- `AllocMeta` returns a place in the pool. -/
theorem alloc_lt (pool : List (CoroutineMeta P)) :
    (allocMeta pool).1 < (allocMeta pool).2.length ∧ pool.length ≤ (allocMeta pool).2.length := by
  unfold allocMeta
  cases hfind : pool.findIdx? (·.looksFree) with
  | some k =>
    obtain ⟨hk, -⟩ := List.findIdx?_eq_some_iff_getElem.mp hfind
    rw [List.length_modify]
    exact ⟨hk, Nat.le_refl _⟩
  | none =>
    rw [List.length_append]
    exact ⟨Nat.lt_succ_self _, Nat.le_succ _⟩

/-- **One step**. -/
theorem Inv.step (h : Inv s) (hst : step s l = some s') : Inv s' := by
  cases l with
  | alloc =>
    cases hst
    obtain ⟨hlt, hle⟩ := alloc_lt s.metaPool
    intro i hi
    obtain rfl | hi := List.mem_cons.mp hi
    · exact hlt
    · exact Nat.lt_of_lt_of_le (h i hi) hle
  | free i =>
    obtain ⟨-, hst⟩ := Option.ite_none_right_eq_some.mp hst
    cases hst
    intro j hj
    show j < (freeMeta s.metaPool i).length
    unfold freeMeta
    rw [List.length_modify]
    exact h j (List.mem_of_mem_erase hj)
  | write i m =>
    obtain ⟨-, hst⟩ := Option.ite_none_right_eq_some.mp hst
    cases hst
    intro j hj
    show j < (s.metaPool.set i m).length
    rw [List.length_set]
    exact h j hj

theorem inv_init (hs : (system (P := P)).init s) : Inv s := by
  cases hs
  exact nofun

/-- Nobody shares a meta as long as that is so. -/
theorem held_nodup (hr : Reach system Covered s) : s.held.Nodup := by
  have hboth : Inv s ∧ s.held.Nodup := by
    refine hr.invariant (I := fun s => Inv s ∧ s.held.Nodup) ?_ ?_
    · intro s hs
      exact ⟨inv_init hs, by cases hs; exact List.nodup_nil⟩
    · rintro s t l ⟨hinv, hnd⟩ hok hst
      refine ⟨hinv.step hst, ?_⟩
      cases l with
      | alloc =>
        cases hst
        exact List.nodup_cons.mpr ⟨(alloc_iff hinv).mpr (hok rfl), hnd⟩
      | free i =>
        obtain ⟨-, hst⟩ := Option.ite_none_right_eq_some.mp hst
        cases hst
        exact hnd.erase i
      | write i m =>
        obtain ⟨-, hst⟩ := Option.ite_none_right_eq_some.mp hst
        cases hst
        exact hnd
  exact hboth.2

/-- **Metas are exclusive**: in a run every `AllocMeta` returns a meta that nobody holds if and only if, whenever it is
called, every meta that is held and looks free stands behind one that looks free and is not held. -/
theorem exclusive_iff {h : List (State P × Label P)} (hs : Reachable system.traced (s, h)) :
    (∀ x ∈ h, Exclusive x.1 x.2) ↔ ∀ x ∈ h, Covered x.1 x.2 := by
  refine traced_iff (I := Inv) (fun _ => inv_init) (fun _ _ _ h _ hst => h.step hst) ?_ hs
  intro s _ l h _
  exact forall_congr' fun _ => alloc_iff h

/-- Two calls, before the first caller has stored a handle: both return the first meta. -/
theorem alloc_twice : ¬∀ (s : State ℕ) (h : List (State ℕ × Label ℕ)), Reachable system.traced (s, h) →
    ∀ x ∈ h, Exclusive x.1 x.2 := by
  intro hall
  have hinit : (system (P := ℕ)).traced.init (⟨[], []⟩, []) := ⟨rfl, rfl⟩
  have hrun : exec (system (P := ℕ)).traced (⟨[], []⟩, []) [.alloc, .alloc] =
      some (⟨[.new], [0, 0]⟩, [(⟨[], []⟩, .alloc), (⟨[.new], [0]⟩, .alloc)]) := rfl
  have hr := reachable_exec (.init hinit) hrun
  exact hall _ _ hr _ (List.mem_cons_of_mem _ List.mem_cons_self) rfl List.mem_cons_self

/-- The first caller stores a handle before the second call. -/
theorem exclusive_iff_two : ∃ h : List (State ℕ × Label ℕ), h.length = 3 ∧ ∀ x ∈ h, Exclusive x.1 x.2 := by
  let m : CoroutineMeta ℕ := ⟨.ready, some 7, false, none, none, none⟩
  have hinit : (system (P := ℕ)).traced.init (⟨[], []⟩, []) := ⟨rfl, rfl⟩
  have hrun : exec (system (P := ℕ)).traced (⟨[], []⟩, []) [.alloc, .write 0 m, .alloc] =
      some (⟨[m, .new], [1, 0]⟩, [(⟨[], []⟩, .alloc), (⟨[.new], [0]⟩, .write 0 m), (⟨[m], [0]⟩, .alloc)]) := rfl
  refine ⟨_, rfl, (exclusive_iff (reachable_exec (.init hinit) hrun)).mpr ?_⟩
  intro x hx
  obtain rfl | hx := List.mem_cons.mp hx
  · exact fun _ i hi => absurd hi List.not_mem_nil
  obtain rfl | hx := List.mem_cons.mp hx
  · exact nofun
  · cases List.mem_singleton.mp hx
    intro _ i hi hfree
    cases List.mem_singleton.mp hi
    exact absurd hfree (by decide)

end Cothread.MetaPool
