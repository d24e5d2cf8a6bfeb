import Cothread.Core.TaskLife

/-!
# `bthread_create`: which `TaskMeta` it takes

From a worker the top of the cache, when that is empty the last of the slots that `RefillTaskCache` takes from the free
list, and from a pthread the head of the free list (`State.nextSlot`). Nothing changes in any `TaskMeta` but its
generation (`acquire_cases`). A `TaskMeta` that has no stack gets one, or goes back to the task group (`create_cases`).
-/

namespace Cothread.TaskLife

open TaskId (taskCacheSize)

variable {W : Type*}

/-- The slot of the next `TaskMeta`. -/
def State.nextSlot (s : State W) : Option W → Option ℕ
  | some w => (s.taskCache w).head?.or (s.free.take taskCacheSize).getLast?
  | none => s.free.head?

/-- The pool with some generations brought up to date. -/
def UpToDate (s : State W) (pool : ℕ → Option TaskMeta) : Prop :=
  ∀ a, State.getMeta { s with pool := pool } a = s.getMeta a ∨
    State.getMeta { s with pool := pool } a = { s.getMeta a with generation := s.generations a }

/-- A slot is taken from the free list or from a cache, which may have been refilled from the free list. -/
inductive Taken [DecidableEq W] (s : State W) (slot : ℕ) : State W → Prop
  | free {free : List ℕ} {pool : ℕ → Option TaskMeta} (hfree : s.free = slot :: free) (hpool : UpToDate s pool) :
    Taken s slot { s with free := free, pool := pool }
  | cache {w : W} {c : List ℕ} (hcache : s.taskCache w = slot :: c) :
    Taken s slot { s with taskCache := Function.update s.taskCache w c }
  | refill {w : W} {front rest : List ℕ} {pool : ℕ → Option TaskMeta} (hcache : s.taskCache w = [])
    (hfree : s.free = front ++ slot :: rest) (hpool : UpToDate s pool) :
    Taken s slot
      { s with free := rest, taskCache := Function.update s.taskCache w front.reverse, pool := pool }

theorem upToDate_getOrCreate (s : State W) (slot : ℕ) : UpToDate s (s.getOrCreateTaskMeta slot).pool := by
  intro a
  by_cases ha : a = slot
  · right
    rw [ha]
    exact getMeta_setMeta_self s _
  · left
    exact getMeta_setMeta_of_ne s _ ha

/-- Only the pool changes. -/
theorem getOrCreates_eq (s : State W) (l : List ℕ) :
    ∃ pool, l.foldl State.getOrCreateTaskMeta s = { s with pool := pool } ∧ UpToDate s pool := by
  induction l generalizing s with
  | nil => exact ⟨s.pool, rfl, fun a => .inl rfl⟩
  | cons x l ih =>
    obtain ⟨pool, hpool, hup⟩ := ih (s.getOrCreateTaskMeta x)
    refine ⟨pool, hpool, fun a => ?_⟩
    have hx := upToDate_getOrCreate s x a
    have hl := hup a
    -- the two updates of the generation write the same
    obtain hx | hx := hx
    · rw [show (s.getOrCreateTaskMeta x).getMeta a = s.getMeta a from hx] at hl
      exact hl
    · rw [show (s.getOrCreateTaskMeta x).getMeta a = _ from hx] at hl
      exact .inr (hl.elim id id)

variable [DecidableEq W]

omit [DecidableEq W] in
/-- Nothing changes in a `TaskMeta` but its generation. -/
theorem UpToDate.getMeta {s : State W} {pool : ℕ → Option TaskMeta} (h : UpToDate s pool) (a : ℕ) :
    ∃ g, State.getMeta { s with pool := pool } a = { s.getMeta a with generation := g } := by
  obtain ha | ha := h a
  · exact ⟨(s.getMeta a).generation, ha⟩
  · exact ⟨s.generations a, ha⟩

theorem Taken.getMeta {s t : State W} {slot : ℕ} (h : Taken s slot t) (a : ℕ) :
    ∃ g, t.getMeta a = { s.getMeta a with generation := g } := by
  cases h with
  | free _ hpool => exact hpool.getMeta a
  | cache _ => exact ⟨(s.getMeta a).generation, rfl⟩
  | refill _ _ hpool => exact hpool.getMeta a

theorem allocTaskMeta_cases (s : State W) : s.allocTaskMeta = (s, none) ∧ s.free = [] ∨
    ∃ t slot, s.allocTaskMeta = (t, some slot) ∧ Taken s slot t ∧ s.free.head? = some slot := by
  cases hfree : s.free with
  | nil => exact .inl ⟨allocTaskMeta_nil hfree, rfl⟩
  | cons slot free =>
    refine .inr ⟨_, slot, allocTaskMeta_cons hfree, ?_, rfl⟩
    exact .free hfree (upToDate_getOrCreate { s with free := free } slot)

/-- `AcquireTaskMeta` with an empty cache. -/
theorem refill_cases (s : State W) {w : W} (hcache : s.taskCache w = []) :
    (s.refillTaskCache w).popCache w = (s, none) ∧ s.free = [] ∨
      ∃ t slot, (s.refillTaskCache w).popCache w = (t, some slot) ∧ Taken s slot t ∧
        (s.free.take taskCacheSize).getLast? = some slot := by
  obtain hnil | ⟨front, slot, hsplit⟩ := List.eq_nil_or_concat (s.free.take taskCacheSize)
  · have hfree : s.free = [] := (List.take_eq_nil_iff.mp hnil).resolve_left (by decide)
    have hsame : Function.update s.taskCache w [] = s.taskCache := by
      rw [← hcache, Function.update_eq_self]
    have hrefill : s.refillTaskCache w = s := by
      simp only [State.refillTaskCache, State.setCache, hfree, List.take_nil, List.drop_nil, List.foldl_nil,
        List.reverse_nil, List.nil_append, hcache, hsame]
      rw [← hfree]
    rw [hrefill, State.popCache, hcache]
    exact .inl ⟨rfl, hfree⟩
  · obtain ⟨pool, hpool, hup⟩ :=
      getOrCreates_eq { s with free := s.free.drop taskCacheSize } (s.free.take taskCacheSize)
    have hfree : s.free = front ++ slot :: s.free.drop taskCacheSize := by
      rw [← List.concat_append, ← hsplit, List.take_append_drop]
    have hrefill : s.refillTaskCache w = { s with
        free := s.free.drop taskCacheSize, pool := pool
        taskCache := Function.update s.taskCache w (slot :: front.reverse) } := by
      rw [State.refillTaskCache, hpool, hcache, List.append_nil, hsplit, List.concat_eq_append, List.reverse_append]
      rfl
    refine .inr ⟨_, slot, ?_, .refill hcache hfree hup, ?_⟩
    · simp only [hrefill, State.popCache, State.setCache, Function.update_self, Function.update_idem]
    · rw [hsplit, List.concat_eq_append, List.getLast?_concat]

theorem acquireTaskMeta_cases (s : State W) (w : W) :
    s.acquireTaskMeta w = (s, none) ∧ s.free = [] ∧ s.taskCache w = [] ∨
      ∃ t slot, s.acquireTaskMeta w = (t, some slot) ∧ Taken s slot t ∧ s.nextSlot (some w) = some slot := by
  cases hcache : s.taskCache w with
  | nil =>
    rw [State.acquireTaskMeta, hcache]
    obtain ⟨hnone, hfree⟩ | ⟨t, slot, ht, htaken, hlast⟩ := refill_cases s hcache
    · exact .inl ⟨hnone, hfree, rfl⟩
    · refine .inr ⟨t, slot, ht, htaken, ?_⟩
      simp only [State.nextSlot, hcache, List.head?_nil, Option.none_or, hlast]
  | cons slot c =>
    refine .inr ⟨s.setCache w c, slot, ?_, .cache hcache, ?_⟩
    · simp only [State.acquireTaskMeta, hcache, State.popCache]
    · simp only [State.nextSlot, hcache, List.head?_cons, Option.some_or]

/-- **What `bthread_create` takes.** -/
theorem acquire_cases (s : State W) (w : Option W) : s.acquire w = (s, none) ∧ s.nextSlot w = none ∨
    ∃ t slot, s.acquire w = (t, some slot) ∧ Taken s slot t ∧ s.nextSlot w = some slot := by
  cases w with
  | none =>
    obtain ⟨hnone, hfree⟩ | h := allocTaskMeta_cases s
    · exact .inl ⟨hnone, by rw [State.nextSlot, hfree, List.head?_nil]⟩
    · exact .inr h
  | some w =>
    obtain ⟨hnone, hfree, hcache⟩ | ⟨t, slot, ht, h⟩ := acquireTaskMeta_cases s w
    · refine .inl ⟨?_, ?_⟩
      · simp only [State.acquire, hnone, allocTaskMeta_nil hfree]
      · simp only [State.nextSlot, hcache, hfree, List.head?_nil, List.take_nil, List.getLast?_nil, Option.none_or]
    · exact .inr ⟨t, slot, by rw [State.acquire, ht], h⟩

/-- A stack from the pool of the worker, or a new one. -/
inductive StackGot (s : State W) (size : ℕ) : State W → Stack → Prop
  | pooled {w : W} {st : Stack} {rest : List Stack} (hpool : s.stackPool w = st :: rest)
    (hsize : size ≤ pooledStackSize) :
    StackGot s size { s with stackPool := Function.update s.stackPool w rest } st
  | new : StackGot s size { s with stackCount := s.stackCount + 1 } ⟨s.stackCount, size⟩

theorem allocateStack_cases (s : State W) (size : ℕ) (ok : Bool) : s.allocateStack size ok = (s, none) ∨
    ∃ t st, s.allocateStack size ok = (t, some st) ∧ StackGot s size t st := by
  cases ok with
  | false => exact .inl rfl
  | true => exact .inr ⟨_, _, rfl, .new⟩

theorem acquireStack_cases (s : State W) (w : Option W) (size : ℕ) (ok : Bool) :
    s.acquireStack w size ok = (s, none) ∨
      ∃ t st, s.acquireStack w size ok = (t, some st) ∧ StackGot s size t st := by
  cases w with
  | none => exact allocateStack_cases s size ok
  | some w =>
    cases hpool : s.stackPool w with
    | nil =>
      simp only [State.acquireStack, hpool]
      exact allocateStack_cases s size ok
    | cons st rest =>
      simp only [State.acquireStack, hpool]
      split_ifs with hsize
      · exact .inr ⟨_, st, rfl, .pooled hpool hsize⟩
      · exact allocateStack_cases s size ok

/-- What `bthread_create` has done: nothing, or it has taken a `TaskMeta`, and enqueued or deallocated it. -/
inductive Created (s : State W) (w : Option W) (size fn : ℕ) (arg : Option ℕ) : State W × Except Error ℕ → Prop
  | refused (hnext : s.nextSlot w = none) : Created s w size fn arg (s, .error .eagain)
  | own {t : State W} {slot : ℕ} {st : Stack} (hnext : s.nextSlot w = some slot) (htaken : Taken s slot t)
    (hstack : (t.getMeta slot).stack = some st) : Created s w size fn arg (t.begin slot size fn arg, .ok slot)
  | new {t u : State W} {slot : ℕ} {st : Stack} (hnext : s.nextSlot w = some slot) (htaken : Taken s slot t)
    (hstack : (t.getMeta slot).stack = none) (hgot : StackGot t size u st) :
    Created s w size fn arg
      ((u.setMeta slot { t.getMeta slot with stack := some st, stackSize := size }).begin slot size fn arg, .ok slot)
  | failed {t : State W} {slot : ℕ} (hnext : s.nextSlot w = some slot) (htaken : Taken s slot t)
    (hstack : (t.getMeta slot).stack = none) : Created s w size fn arg (t.deallocTaskMeta slot, .error .enomem)

/-- **What `bthread_create` does.** -/
theorem create_cases (s : State W) (w : Option W) (attr : Option ℕ) (fn : ℕ) (arg : Option ℕ) (ok : Bool) :
    Created s w (attr.getD stackSizeDefault) fn arg (s.create w attr (some fn) arg ok) := by
  simp only [State.create]
  obtain ⟨hnone, hnext⟩ | ⟨t, slot, ht, htaken, hnext⟩ := acquire_cases s w
  · rw [hnone]
    exact .refused hnext
  · simp only [ht, State.setUp]
    cases hstack : (t.getMeta slot).stack with
    | some st => exact .own hnext htaken hstack
    | none =>
      obtain hnone | ⟨u, st, hu, hgot⟩ := acquireStack_cases t w (attr.getD stackSizeDefault) ok
      · simp only [hnone, Option.isSome_none, Bool.false_eq_true, if_false]
        exact .failed hnext htaken hstack
      · simp only [hu, Option.isSome_none, Bool.false_eq_true, if_false]
        exact .new hnext htaken hstack hgot

end Cothread.TaskLife
