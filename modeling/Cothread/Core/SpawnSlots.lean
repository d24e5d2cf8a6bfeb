import Cothread.Core.TaskLife
import Mathlib.Algebra.BigOperators.Group.Finset.Defs
import Mathlib.Data.Fintype.Basic

/-!
# `spawn`: no slot comes back

A slot is handed back by the `Release` that finds `ref_count` 1. `bthread_create` sets it to 2, but `spawn` leaves the 0
of a free `TaskMeta`, which `Task::join` or `Task::detach` and `HandleFinishedBthread` decrement to −2 in any order. So
every task that `spawn` creates keeps its slot for good (`available_add_begun`), and after as many tasks as there were
free slots `spawn` throws. All slots are there again just when `spawn` has not been called (`slots_back_iff`).
-/

namespace Cothread.TaskLife

open Run

variable {W : Type*}

/-- The free slots and the slots in the caches of the workers. -/
def State.available [Fintype W] (s : State W) : ℕ := s.free.length + ∑ w, (s.taskCache w).length

/-- Nobody uses the task group, and the free `TaskMeta`s are as the constructor and `DeallocTaskMeta` leave them. -/
structure Alone (s : State W) : Prop where
  alive : s.alive = []
  ended : s.ended = []
  handles : s.handles = []
  calls : s.calls = []
  begun : s.begun = []
  refused : s.refused = 0
  refs : ∀ slot ∈ s.free, (s.getMeta slot).refCount = 0

/-- All tasks have been handled, and joined or detached. -/
def State.Over (s : State W) : Prop := s.alive = [] ∧ s.ended = [] ∧ s.handles = [] ∧ s.calls = []

instance (s : State W) : Decidable s.Over :=
  inferInstanceAs (Decidable (s.alive = [] ∧ s.ended = [] ∧ s.handles = [] ∧ s.calls = []))

/-- How often `spawn` has been called, when nothing else creates tasks. -/
def State.spawns (s : State W) : ℕ := s.begun.length + s.refused

/-- What `spawn`, its tasks, their `Task`s and the workers do. -/
def Spawning : Label W → Prop
  | .create .. | .join .. | .detach _ | .drain _ => False
  | _ => True

instance : ∀ l : Label W, Decidable (Spawning l)
  | .create .. | .join .. | .detach _ | .drain _ => .isFalse not_false
  | .spawn .. | .run _ | .wait .. | .wake .. | .fire .. | .finish .. | .handle .. | .taskJoin _ | .joiner ..
  | .taskDetach _ => .isTrue trivial

/-- The spawned tasks of a task group that was in the state `s₀`. -/
def spawning [DecidableEq W] (s₀ : State W) : System (State W) (Label W) where
  init s := s = s₀
  step s l := if Spawning l then step s l else none

/-! ## The invariant -/

/-- The slots that are free, or in use by a task or its handle. -/
def State.slots (s : State W) : List ℕ := s.free ++ s.alive ++ s.ended ++ s.handles ++ s.calls.map Call.slot

theorem mem_slots {s : State W} {a : ℕ} : a ∈ s.slots ↔
    a ∈ s.free ∨ a ∈ s.alive ∨ a ∈ s.ended ∨ a ∈ s.handles ∨ ∃ c ∈ s.calls, c.slot = a := by
  simp only [State.slots, List.mem_append, List.mem_map, or_assoc]

/-- No reference count gets above 0, and every slot is free, in a cache, or kept by a task. -/
structure SpawnInv [Fintype W] (f : ℕ) (s : State W) : Prop where
  refs : ∀ slot ∈ s.slots, (s.getMeta slot).refCount ≤ 0
  kept : s.available + s.begun.length = f

/-- What all steps but a `spawn` do: no slot is taken or handed back, and no reference count is raised. -/
structure Settles (s t : State W) : Prop where
  free : t.free = s.free
  cache : t.taskCache = s.taskCache
  begun : t.begun = s.begun
  slots : ∀ slot ∈ t.slots, slot ∈ s.slots
  refs : ∀ slot, (t.getMeta slot).refCount ≤ (s.getMeta slot).refCount

section Steps

variable {s t u : State W} {slot f : ℕ}

theorem Settles.trans (h : Settles s t) (h' : Settles t u) : Settles s u where
  free := h'.free.trans h.free
  cache := h'.cache.trans h.cache
  begun := h'.begun.trans h.begun
  slots a ha := h.slots a (h'.slots a ha)
  refs a := (h'.refs a).trans (h.refs a)

theorem SpawnInv.settle [Fintype W] (h : SpawnInv f s) (hst : Settles s t) : SpawnInv f t where
  refs a ha := (hst.refs a).trans (h.refs a (hst.slots a ha))
  kept := by
    have hkept := h.kept
    unfold State.available at hkept ⊢
    rw [hst.free, hst.cache, hst.begun]
    exact hkept

theorem settles_setMeta {m : TaskMeta} (hm : m.refCount ≤ (s.getMeta slot).refCount) :
    Settles s (s.setMeta slot m) where
  free := rfl
  cache := rfl
  begun := rfl
  slots _ ha := ha
  refs a := by
    by_cases ha : a = slot
    · rw [ha, getMeta_setMeta_self]
      exact hm
    · rw [getMeta_setMeta_of_ne s m ha]

/-- A `Release` that does not find 1. -/
theorem settles_release (back : State W → ℕ → State W) (h : (s.getMeta slot).refCount ≤ 0) :
    Settles s (s.release slot back) := by
  rw [release_of_ne back (by omega)]
  exact settles_setMeta (by simp only; omega)

/-- Only the lists of the tasks and their handles change. -/
theorem settles_lists {alive ended joinable handles : List ℕ} {calls : List Call} {n : ℕ} {deleted : List ℕ}
    (h : ∀ a, a ∈ alive ∨ a ∈ ended ∨ a ∈ handles ∨ (∃ c ∈ calls, c.slot = a) → a ∈ s.slots) :
    Settles s { s with
      alive := alive, ended := ended, joinable := joinable, handles := handles, calls := calls, butexCount := n
      deleted := deleted } where
  free := rfl
  cache := rfl
  begun := rfl
  slots a ha := by
    rw [mem_slots] at ha
    obtain ha | ha := ha
    · exact mem_slots.mpr (.inl ha)
    · exact h a ha
  refs _ := Int.le_refl _

/-- The next access of a join comes. -/
theorem settles_goto {c : Call} (hc : c ∈ s.calls) (pc : JoinPc) (n : ℕ) (deleted : List ℕ) :
    Settles s { s with calls := { c with pc := pc } :: s.calls.erase c, butexCount := n, deleted := deleted } := by
  refine settles_lists fun a ha => mem_slots.mpr (.inr ?_)
  obtain ha | ha | ha | ⟨c', hc', rfl⟩ := ha
  · exact .inl ha
  · exact .inr (.inl ha)
  · exact .inr (.inr (.inl ha))
  · refine .inr (.inr (.inr ?_))
    obtain rfl | hc' := List.mem_cons.mp hc'
    · exact ⟨c, hc, rfl⟩
    · exact ⟨c', List.mem_of_mem_erase hc', rfl⟩

theorem settles_access [DecidableEq W] (w : Option W) {c : Call} (hc : c ∈ s.calls)
    (href : (s.getMeta c.slot).refCount ≤ 0) : Settles s (s.access w c) := by
  obtain ⟨kind, slot, pc⟩ := c
  have hmeta : ∀ m : TaskMeta, m.refCount = (s.getMeta slot).refCount → Settles s (s.setMeta slot m) :=
    fun m hm => settles_setMeta (Int.le_of_eq hm)
  cases pc with
  | checkButex => exact settles_goto hc _ s.butexCount s.deleted
  | createButex =>
    simp only [State.access]
    split_ifs
    · refine (hmeta { s.getMeta slot with joinButex := some s.butexCount } rfl).trans ?_
      exact settles_goto (s := s.setMeta slot _) hc _ _ s.deleted
    · exact settles_goto hc _ _ _
  | testState => exact settles_goto hc _ s.butexCount s.deleted
  | register =>
    refine (hmeta { s.getMeta slot with joinWaiters := (s.getMeta slot).joinWaiters + 1 } rfl).trans ?_
    exact settles_goto (s := s.setMeta slot _) hc _ s.butexCount s.deleted
  | leave =>
    refine (hmeta { s.getMeta slot with joinWaiters := (s.getMeta slot).joinWaiters - 1 } rfl).trans ?_
    exact settles_goto (s := s.setMeta slot _) hc _ s.butexCount s.deleted
  | release =>
    have herase : Settles s { s with calls := s.calls.erase ⟨kind, slot, .release⟩ } := by
      refine settles_lists fun a ha => mem_slots.mpr (.inr ?_)
      obtain ha | ha | ha | ⟨c, hc, rfl⟩ := ha
      · exact .inl ha
      · exact .inr (.inl ha)
      · exact .inr (.inr (.inl ha))
      · exact .inr (.inr (.inr ⟨c, List.mem_of_mem_erase hc, rfl⟩))
    exact herase.trans (settles_release _ href)

/-- `spawn` takes a slot and leaves its reference count. -/
theorem SpawnInv.spawn [Fintype W] (h : SpawnInv f s) (fn arg : ℕ) (ok : Bool) : SpawnInv f (s.spawn fn arg ok) := by
  cases hfree : s.free with
  | nil =>
    rw [State.spawn, allocTaskMeta_nil hfree]
    exact ⟨h.refs, h.kept⟩
  | cons slot free =>
    have hin : slot ∈ s.slots := mem_slots.mpr (.inl (hfree ▸ List.mem_cons_self))
    have hkept := h.kept
    obtain ⟨n, stack, size, -, ht⟩ := spawn_cons hfree fn arg ok
    rw [ht]
    constructor
    case kept =>
      simp only [State.available, State.setMeta, hfree, List.length_cons] at hkept ⊢
      omega
    case refs =>
      intro a ha
      by_cases hslot : a = slot
      · subst hslot
        have href := h.refs a hin
        simp only [State.getMeta, State.setMeta, Function.update_self, Option.getD_some]
        exact href
      · have href := h.refs a
        simp only [State.getMeta, State.setMeta, Function.update_of_ne hslot] at href ⊢
        apply href
        rw [mem_slots] at ha ⊢
        simp only [State.setMeta, List.mem_cons, hslot, false_or] at ha
        rw [hfree]
        exact ha.imp_left (List.mem_cons_of_mem slot)

/-- **What one step preserves.** -/
theorem spawnInv_step [Fintype W] [DecidableEq W] {l : Label W} (h : SpawnInv f s) (hl : Spawning l)
    (hst : step s l = some t) : SpawnInv f t := by
  have hin : ∀ {a}, a ∈ s.alive ∨ a ∈ s.ended ∨ a ∈ s.handles ∨ (∃ c ∈ s.calls, c.slot = a) → a ∈ s.slots :=
    fun ha => mem_slots.mpr (.inr ha)
  cases l with
  | create | join | detach | drain => exact hl.elim
  | spawn fn arg ok =>
    cases hst
    exact h.spawn fn arg ok
  | run slot =>
    obtain ⟨-, hst⟩ := Option.ite_none_right_eq_some.mp hst
    cases hst
    exact h.settle (settles_setMeta (Int.le_refl _))
  | wait slot b timeout change =>
    obtain ⟨-, hst⟩ := Option.ite_none_right_eq_some.mp hst
    cases hst
    exact h.settle (settles_setMeta (Int.le_refl _))
  | wake slot b =>
    obtain ⟨-, hst⟩ := Option.ite_none_right_eq_some.mp hst
    cases hst
    exact h.settle (settles_setMeta (Int.le_refl _))
  | fire slot e =>
    obtain ⟨-, hst⟩ := Option.ite_none_right_eq_some.mp hst
    cases hst
    exact h.settle (settles_setMeta (Int.le_refl _))
  | finish slot result =>
    obtain ⟨⟨halive, -⟩, hst⟩ := Option.ite_none_right_eq_some.mp hst
    cases hst
    have hmeta : Settles s (s.setMeta slot { s.getMeta slot with
        result := result, waiter := { (s.getMeta slot).waiter with taskState := .finished } }) :=
      settles_setMeta (Int.le_refl _)
    refine h.settle (hmeta.trans (settles_lists (s := s.setMeta slot _) fun a ha => hin ?_))
    obtain ha | ha | ha := ha
    · exact .inl (List.mem_of_mem_erase ha)
    · obtain rfl | ha := List.mem_cons.mp ha
      · exact .inl halive
      · exact .inr (.inl ha)
    · exact .inr (.inr ha)
  | handle w slot =>
    obtain ⟨hended, hst⟩ := Option.ite_none_right_eq_some.mp hst
    cases hst
    have href := h.refs slot (hin (.inr (.inl hended)))
    refine h.settle ((settles_lists fun a ha => hin ?_).trans (settles_release _ href))
    exact ha.imp_right (Or.imp_left List.mem_of_mem_erase)
  | taskJoin slot =>
    obtain ⟨hhandle, hst⟩ := Option.ite_none_right_eq_some.mp hst
    cases hst
    refine h.settle (settles_lists fun a ha => hin ?_)
    obtain ha | ha | ha | ⟨c, hc, rfl⟩ := ha
    · exact .inl ha
    · exact .inr (.inl ha)
    · exact .inr (.inr (.inl (List.mem_of_mem_erase ha)))
    · obtain rfl | hc := List.mem_cons.mp hc
      · exact .inr (.inr (.inl hhandle))
      · exact .inr (.inr (.inr ⟨c, hc, rfl⟩))
  | joiner w c =>
    obtain ⟨hc, hst⟩ := Option.ite_none_right_eq_some.mp hst
    cases hst
    exact h.settle (settles_access w hc (h.refs c.slot (hin (.inr (.inr (.inr ⟨c, hc, rfl⟩))))))
  | taskDetach slot =>
    obtain ⟨hhandle, hst⟩ := Option.ite_none_right_eq_some.mp hst
    cases hst
    have href := h.refs slot (hin (.inr (.inr (.inl hhandle))))
    refine h.settle ((settles_lists fun a ha => hin ?_).trans (settles_release _ href))
    exact ha.imp_right (Or.imp_right (Or.imp_left List.mem_of_mem_erase))

end Steps

/-! ## Every run -/

/-- **Every spawned task keeps its slot**, in every run. -/
theorem available_add_begun [Fintype W] [DecidableEq W] {s₀ s : State W} (h0 : Alone s₀)
    (hs : Reachable (spawning s₀) s) : s.available + s.begun.length = s₀.available := by
  refine (hs.invariant (I := SpawnInv s₀.available) ?_ fun s t l h _ hst => ?_).kept
  · rintro s rfl
    refine ⟨fun a ha => ?_, by rw [h0.begun]; rfl⟩
    simp only [mem_slots, h0.alive, h0.ended, h0.handles, h0.calls, List.not_mem_nil, false_and, exists_false,
      or_false] at ha
    exact Int.le_of_eq (h0.refs a ha)
  · obtain ⟨hl, hst⟩ := Option.ite_none_right_eq_some.mp hst
    exact spawnInv_step h hl hst

/-- **The slots are all there again just when `spawn` has not been called**: from a task group with `f` slots that
nobody else uses, whatever the order in which the tasks finish and are joined or detached. -/
theorem slots_back_iff [Fintype W] [DecidableEq W] {s₀ s : State W} {f : ℕ} (h0 : Alone s₀) (hf : s₀.available = f)
    (hs : Reachable (spawning s₀) s) : s.available = f ∧ s.refused = 0 ↔ s.spawns = 0 := by
  have hsum := available_add_begun h0 hs
  unfold State.spawns
  constructor
  · rintro ⟨hback, hrefused⟩
    omega
  · intro hnone
    constructor <;> omega

theorem alone_start : Alone (State.start W) := ⟨rfl, rfl, rfl, rfl, rfl, rfl, fun _ _ => rfl⟩

theorem available_start [Fintype W] : (State.start W).available = 16384 := by
  simp [State.available, State.start, TaskGroup.poolSize]

/-- A task is spawned, finishes and is handled, and is detached. -/
def detachRun : List (Label Unit) :=
  [.spawn 7 8 true, .run 0, .finish 0 none, .handle () 0, .taskDetach 0]

/-- After one task that was detached, the condition is not met, and a slot is missing. -/
theorem slots_back_iff_detached : ∃ s : State Unit, s.Over ∧ s.spawns = 1 ∧
    (s.available = 16384 ∧ s.refused = 0 ↔ s.spawns = 0) := by
  have hrun : (exec (spawning (.start Unit)) (.start Unit) detachRun).any
      (fun s => decide (s.Over ∧ s.spawns = 1)) = true := by
    decide +kernel
  obtain ⟨s, hs, hover, hspawns⟩ := of_exec_any hrun
  exact ⟨s, hover, hspawns, slots_back_iff alone_start available_start (reachable_exec (.init rfl) hs)⟩

/-- A task is spawned and joined before it finishes; there is no join butex to wait on. -/
def joinRun : List (Label Unit) := List.flatten
  [ [.spawn 7 8 true, .run 0, .taskJoin 0],
    [.testState, .register, .leave, .release].map fun pc => .joiner none ⟨.taskJoin, 0, pc⟩,
    [.finish 0 none, .handle () 0] ]

/-- **A slot is lost**: one task has been spawned, joined and handled, and a slot is missing. -/
theorem slot_lost : ∃ s : State Unit, Alone (State.start Unit) ∧ (State.start Unit).available = 16384 ∧
    Reachable (spawning (.start Unit)) s ∧ s.Over ∧ s.spawns = 1 ∧ s.refused = 0 ∧ s.available = 16383 := by
  have hrun : (exec (spawning (.start Unit)) (.start Unit) joinRun).any
      (fun s => decide (s.Over ∧ s.begun.length = 1 ∧ s.refused = 0)) = true := by
    decide +kernel
  obtain ⟨s, hs, hover, hbegun, hrefused⟩ := of_exec_any hrun
  have hreach := reachable_exec (M := spawning (.start Unit)) (.init rfl) hs
  have hsum := available_add_begun alone_start hreach
  rw [available_start] at hsum
  exact ⟨s, alone_start, available_start, hreach, hover, by rw [State.spawns]; omega, hrefused, by omega⟩

end Cothread.TaskLife
