import Cothread.Queue.MpscInv
import Mathlib.Data.List.Perm.Subperm

/-!
# `MpscQueue` is a FIFO queue

Beside the queue a history keeps the calls of `Push` and the exchanges on `head_`, each with its producer
(`History`, `note`). In every reachable state, also when an item is lost, the returned items are a prefix of the items
in the order of the exchanges, no item has been returned more often than it was pushed, and the items of one producer
have been returned in the order of its calls (`fifo_of_reachable`).
-/

namespace Cothread.Mpsc

open Run

/-- The calls of `Push` and the exchanges on `head_` so far, in order, each with its producer. -/
structure History (P T : Type*) where
  calls : List (P × T)
  exchanges : List (P × T)

variable {P T : Type*} [DecidableEq P] [DecidableEq T]

/-- The history before any call. -/
def History.empty : History P T := ⟨[], []⟩

/-- The step of the label from `s`, written down. -/
def note (s : State P T) : Label P T → History P T → History P T
  | .push p x, h => { h with calls := h.calls ++ [(p, x)] }
  | .producer p, h =>
    match s.push p with
    | some (.exchange x) => { h with exchanges := h.exchanges ++ [(p, x)] }
    | _ => h
  | .pop, h | .consumer, h => h

/-- The items of one producer, in order. -/
def itemsOf (p : P) (l : List (P × T)) : List T := l.filterMap fun e => if e.1 = p then some e.2 else none

/-- **First in, first out**: what `Pop` has returned beside what has been pushed. -/
structure Fifo (s : State P T) (h : History P T) : Prop where
  exchanged : s.order = h.exchanges.map Prod.snd
  inOrder : s.returned <+: h.exchanges.map Prod.snd
  once : ∀ x, s.returned.count x ≤ (h.calls.map Prod.snd).count x
  producers : ∀ p, itemsOf p (h.exchanges.take s.returned.length) <+: itemsOf p h.calls

/-! ## The history -/

omit [DecidableEq T] in
@[simp] theorem itemsOf_append (p : P) (l k : List (P × T)) : itemsOf p (l ++ k) = itemsOf p l ++ itemsOf p k :=
  List.filterMap_append

omit [DecidableEq T] in
@[simp] theorem itemsOf_singleton (p p' : P) (x : T) : itemsOf p [(p', x)] = if p' = p then [x] else [] := by
  by_cases h : p' = p <;> simp [itemsOf, h]

omit [DecidableEq T] in
theorem itemsOf_mono {p : P} {l k : List (P × T)} (h : l <+: k) : itemsOf p l <+: itemsOf p k := by
  obtain ⟨r, rfl⟩ := h
  exact ⟨itemsOf p r, (itemsOf_append p l r).symm⟩

/-- How often an item stands in a list, by producers. -/
theorem count_itemsOf (p : P) (x : T) (l : List (P × T)) : (itemsOf p l).count x = l.count (p, x) := by
  induction l with
  | nil => rfl
  | cons e l ih =>
    rw [← List.singleton_append, itemsOf_append, List.count_append, List.count_append, ih, itemsOf_singleton]
    congr 1
    obtain ⟨p', y⟩ := e
    by_cases hp : p' = p
    · subst hp; simp [List.count_singleton]
    · simp [hp]

/-- The item of a `Push` that has not reached its exchange. -/
@[simp] def waiting : Option (PushPc T) → List T
  | some (.clear x) | some (.exchange x) => [x]
  | _ => []

/-- The history agrees with the queue, and a producer has exchanged all its items but the one it is pushing. -/
structure Logged (s : State P T) (h : History P T) : Prop where
  exchanges : h.exchanges.map Prod.snd = s.order
  calls : ∀ p, itemsOf p h.calls = itemsOf p h.exchanges ++ waiting (s.push p)

omit [DecidableEq T] in
/-- Only the push calls and the exchanges are written down. -/
theorem Logged.congr {s t : State P T} {h : History P T} (hl : Logged s h) (ho : t.order = s.order)
    (hp : ∀ p, waiting (t.push p) = waiting (s.push p)) : Logged t h :=
  ⟨hl.exchanges.trans ho.symm, fun p => by rw [hp]; exact hl.calls p⟩

/-- A producer's step is written down. -/
theorem Logged.producer {s : State P T} {h : History P T} {p : P} {pc : PushPc T} (hl : Logged s h)
    (hp : s.push p = some pc) : Logged (s.producer p pc) (note s (.producer p) h) := by
  have hpush : (s.producer p pc).push = Function.update s.push p (pushStep s.mem pc).2 := rfl
  -- every access but the exchange leaves the item where it is
  have hstay : pc.published = [] → waiting (pushStep s.mem pc).2 = waiting (some pc) →
      Logged (s.producer p pc) h := by
    intro hpub hw
    refine hl.congr ?_ fun p' => ?_
    · show s.order ++ pc.published = s.order
      rw [hpub, List.append_nil]
    rw [hpush]
    by_cases e : p' = p
    · subst e; rw [Function.update_self, hw, hp]
    · rw [Function.update_of_ne e]
  cases pc with
  | clear x => simpa [note, hp] using hstay rfl rfl
  | link a x => simpa [note, hp] using hstay rfl rfl
  | setTail x => simpa [note, hp] using hstay rfl rfl
  | exchange x =>
    have hw : waiting (pushStep s.mem (.exchange x)).2 = [] := by
      cases hh : s.mem.head <;> simp [pushStep, hh]
    simp only [note, hp]
    refine ⟨by simp [State.producer, hl.exchanges], fun p' => ?_⟩
    rw [hpush, itemsOf_append, itemsOf_singleton, hl.calls p']
    by_cases e : p' = p
    · subst e
      rw [Function.update_self, hw, hp]
      simp
    · simp [Function.update_of_ne e, Ne.symm e]

/-- Every step is written down. -/
theorem Logged.step {s t : State P T} {h : History P T} {l : Label P T} (hl : Logged s h)
    (hst : step s l = some t) : Logged t (note s l h) := by
  cases l with
  | push p x =>
    obtain ⟨hp, -, rfl⟩ := step_push hst
    refine ⟨hl.exchanges, fun p' => ?_⟩
    simp only [note, itemsOf_append, itemsOf_singleton, hl.calls p']
    by_cases e : p' = p
    · subst e; simp [hp]
    · simp [Function.update_of_ne e, Ne.symm e]
  | producer p =>
    obtain ⟨pc, hp, rfl⟩ := step_producer hst
    exact hl.producer hp
  | pop =>
    obtain ⟨-, rfl⟩ := step_pop hst
    exact hl.congr rfl fun _ => rfl
  | consumer =>
    obtain ⟨pc, -, rfl⟩ := step_consumer hst
    rw [State.consumer]
    split <;> exact hl.congr rfl fun _ => rfl

/-- No item has been exchanged more often than its `Push` was called. -/
theorem Logged.subperm {s : State P T} {h : History P T} (hl : Logged s h) :
    (h.exchanges.map Prod.snd).Subperm (h.calls.map Prod.snd) := by
  have hle : h.exchanges.Subperm h.calls := by
    refine List.subperm_ext_iff.mpr fun ⟨p, x⟩ _ => ?_
    rw [← count_itemsOf, ← count_itemsOf, hl.calls p, List.count_append]
    exact Nat.le_add_right _ _
  obtain ⟨l, hperm, hsub⟩ := hle
  exact ⟨l.map Prod.snd, hperm.map _, hsub.map _⟩

/-! ## Every run -/

/-- **The returned items are a prefix of the exchanged ones**, in every reachable state. -/
theorem returned_prefix {s : State P T} (hs : Reachable (system P T) s) : s.returned <+: s.order := by
  obtain ⟨q, hi, -⟩ := reachable_inv hs
  exact ⟨taken s.pop ++ q, by rw [hi.order, List.append_assoc]⟩

/-- **`MpscQueue` is FIFO and returns no item twice**, in every reachable state of any number of producers and one
consumer. -/
theorem fifo_of_reachable (s : State P T) (h : History P T)
    (hs : Reachable ((system P T).recording .empty note) (s, h)) : Fifo s h := by
  have hrun : ∀ p : State P T × History P T, Reachable ((system P T).recording .empty note) p →
      Reachable (system P T) p.1 ∧ Logged p.1 p.2 := by
    refine fun p hp => hp.invariant (I := fun p => Reachable (system P T) p.1 ∧ Logged p.1 p.2) ?_ ?_
    · rintro ⟨_, _⟩ ⟨rfl, rfl⟩
      exact ⟨.init rfl, rfl, fun _ => rfl⟩
    · rintro ⟨s, h⟩ t l ⟨hr, hl⟩ - hst
      obtain ⟨t', ht', rfl⟩ := Option.map_eq_some_iff.mp hst
      exact ⟨.step hr trivial ht', hl.step ht'⟩
  obtain ⟨hr, hl⟩ := hrun _ hs
  have hpre : s.returned <+: h.exchanges.map Prod.snd := hl.exchanges ▸ returned_prefix hr
  refine ⟨hl.exchanges.symm, hpre, fun x => ?_, fun p => ?_⟩
  · exact (hpre.sublist.count_le x).trans (hl.subperm.count_le x)
  · rw [hl.calls p]
    exact (itemsOf_mono (List.take_prefix _ _)).trans (List.prefix_append _ _)

/-- Two producers exchange 10 and 20 before either links its item, the first one pushes 10 again, and the consumer
returns 10 and 20. -/
theorem fifo_two_producers : ∃ (s : State ℕ ℕ) (h : History ℕ ℕ), s.returned = [10, 20] ∧
    h.exchanges = [(0, 10), (1, 20), (0, 10)] ∧ Fifo s h := by
  refine ⟨_, _, rfl, rfl, fifo_of_reachable _ _ (reachable_exec (M := (system ℕ ℕ).recording .empty note)
    (s := (.empty, .empty)) (.init ⟨rfl, rfl⟩) (show exec _ _
      [.push 0 10, .push 1 20, .producer 0, .producer 1, .producer 0, .producer 1, .producer 0, .producer 1,
        .pop, .consumer, .consumer, .consumer, .consumer, .push 0 10, .producer 0, .producer 0,
        .pop, .consumer, .consumer, .consumer, .producer 0, .consumer, .consumer, .consumer] = some _ from rfl))⟩

end Cothread.Mpsc
