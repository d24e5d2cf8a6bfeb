import Cothread.Core.TaskLife

/-!
# `TaskMeta`: what most steps leave alone

A property of the stacks or of the join butexes is kept by a step when the relation that keeps it does not see what the
step writes. Waits, releases and the accesses of a join write the same few fields, so such a relation is checked once
for each of these (`Respects`), and then holds across every step but creations, the end of a worker and the exchange of
a join butex (`Respects.step`).
-/

namespace Cothread.TaskLife

variable {W : Type*}

/-- Creations, the end of a worker and the exchange of a join butex are left out. -/
def Label.Plain : Label W → Prop
  | .create .. | .spawn .. | .drain _ => False
  | .joiner _ c => c.pc ≠ .createButex
  | _ => True

variable [DecidableEq W]

/-- A relation between the states before and after that does not see the bthreads, the joins in progress, what waits and
releases write into a `TaskMeta`, and the caches, and that a deallocation respects. -/
structure Respects (R : State W → State W → Prop) : Prop where
  refl : ∀ s, R s s
  trans : ∀ {s t u}, R s t → R t u → R s u
  writes : ∀ s slot waiter refCount joinWaiters result, R s (s.setMeta slot { s.getMeta slot with
    waiter := waiter, refCount := refCount, joinWaiters := joinWaiters, result := result })
  lists : ∀ s alive ended joinable handles calls, R s { s with
    alive := alive, ended := ended, joinable := joinable, handles := handles, calls := calls }
  cache : ∀ s w c, R s (s.setCache w c)
  dealloc : ∀ s slot, R s (s.deallocTaskMeta slot)

variable {R : State W → State W → Prop} {s t : State W} {slot : ℕ}

/-- What waits and releases write, when it is given field by field. -/
theorem Respects.set (h : Respects R) {m : TaskMeta} (hm : m = { s.getMeta slot with
    waiter := m.waiter, refCount := m.refCount, joinWaiters := m.joinWaiters, result := m.result }) :
    R s (s.setMeta slot m) := by
  rw [hm]
  exact h.writes s slot _ _ _ _

theorem Respects.release (h : Respects R) {back : State W → ℕ → State W} (hback : ∀ t, R t (back t slot)) :
    R s (s.release slot back) := by
  have hdrop : R s (s.setMeta slot { s.getMeta slot with refCount := (s.getMeta slot).refCount - 1 }) := h.set rfl
  simp only [State.release]
  split_ifs
  · exact h.trans hdrop (hback _)
  · exact hdrop

theorem Respects.releaseTaskMeta (h : Respects R) (w : Option W) (s : State W) (slot : ℕ) :
    R s (State.releaseTaskMeta w s slot) := by
  cases w with
  | none => exact h.dealloc s slot
  | some w =>
    simp only [State.releaseTaskMeta]
    split_ifs
    · exact h.cache s w _
    · exact h.dealloc s slot

theorem Respects.drainTaskCache (h : Respects R) (s : State W) (w : W) : R s (s.drainTaskCache w) := by
  have hcache : ∀ (l : List ℕ) (t : State W), R t (l.foldl State.deallocTaskMeta t) := by
    intro l
    induction l with
    | nil => exact h.refl
    | cons x l ih => exact fun t => h.trans (h.dealloc t x) (ih _)
  exact h.trans (hcache _ s) (h.cache _ w [])

/-- An access of a join, except the exchange of the join butex. -/
theorem Respects.access (h : Respects R) (s : State W) (w : Option W) {c : Call} (hc : c.pc ≠ .createButex) :
    R s (s.access w c) := by
  obtain ⟨kind, slot, pc⟩ := c
  have hcalls : ∀ t calls, R t { t with calls := calls } := fun t => h.lists t t.alive t.ended t.joinable t.handles
  cases pc with
  | checkButex => exact hcalls s _
  | createButex => exact absurd rfl hc
  | testState => exact hcalls s _
  | register =>
    have hreg : R s (s.setMeta slot { s.getMeta slot with joinWaiters := (s.getMeta slot).joinWaiters + 1 }) :=
      h.set rfl
    exact h.trans hreg (hcalls _ _)
  | leave =>
    have hleave : R s (s.setMeta slot { s.getMeta slot with joinWaiters := (s.getMeta slot).joinWaiters - 1 }) :=
      h.set rfl
    exact h.trans hleave (hcalls _ _)
  | release =>
    refine h.trans (hcalls s (s.calls.erase ⟨kind, slot, .release⟩)) ?_
    cases kind with
    | bthreadJoin => exact h.release fun t => h.releaseTaskMeta w t slot
    | taskJoin => exact h.release fun t => h.dealloc t slot

/-- **A relation that is respected holds across the other steps.** -/
theorem Respects.step (h : Respects R) {l : Label W} (hst : step s l = some t) (hl : l.Plain) : R s t := by
  cases l with
  | create | spawn | drain => exact hl.elim
  | run slot =>
    obtain ⟨-, hst⟩ := Option.ite_none_right_eq_some.mp hst
    cases hst
    exact h.set rfl
  | wait slot b timeout change =>
    obtain ⟨-, hst⟩ := Option.ite_none_right_eq_some.mp hst
    cases hst
    exact h.set rfl
  | wake slot b =>
    obtain ⟨-, hst⟩ := Option.ite_none_right_eq_some.mp hst
    cases hst
    exact h.set rfl
  | fire slot e =>
    obtain ⟨-, hst⟩ := Option.ite_none_right_eq_some.mp hst
    cases hst
    exact h.set rfl
  | finish slot result =>
    obtain ⟨-, hst⟩ := Option.ite_none_right_eq_some.mp hst
    cases hst
    have hmeta : R s (s.setMeta slot { s.getMeta slot with
        result := result, waiter := { (s.getMeta slot).waiter with taskState := .finished } }) := h.set rfl
    exact h.trans hmeta (h.lists _ _ _ s.joinable s.handles s.calls)
  | handle w slot =>
    obtain ⟨-, hst⟩ := Option.ite_none_right_eq_some.mp hst
    cases hst
    have hended : R s { s with ended := s.ended.erase slot } := h.lists s s.alive _ s.joinable s.handles s.calls
    exact h.trans hended (h.release fun t => h.releaseTaskMeta (some w) t slot)
  | join self tid =>
    simp only [TaskLife.step] at hst
    split at hst
    · cases hst
      exact h.refl s
    · split_ifs at hst <;> cases hst
      · exact h.refl s
      · exact h.lists s s.alive s.ended _ s.handles _
  | taskJoin slot =>
    obtain ⟨-, hst⟩ := Option.ite_none_right_eq_some.mp hst
    cases hst
    exact h.lists s s.alive s.ended s.joinable _ _
  | joiner w c =>
    obtain ⟨-, hst⟩ := Option.ite_none_right_eq_some.mp hst
    cases hst
    exact h.access s w hl
  | detach tid =>
    simp only [TaskLife.step] at hst
    split at hst
    · cases hst
      exact h.refl s
    · next slot _ =>
      cases hst
      have hjoinable : R s { s with joinable := s.joinable.erase slot } :=
        h.lists s s.alive s.ended _ s.handles s.calls
      exact h.trans hjoinable (h.release fun t => h.dealloc t slot)
  | taskDetach slot =>
    obtain ⟨-, hst⟩ := Option.ite_none_right_eq_some.mp hst
    cases hst
    have hhandles : R s { s with handles := s.handles.erase slot } :=
      h.lists s s.alive s.ended s.joinable _ s.calls
    exact h.trans hhandles (h.release fun t => h.dealloc t slot)

end Cothread.TaskLife
