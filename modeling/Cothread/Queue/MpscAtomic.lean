import Cothread.Lib.Object
import Cothread.Queue.Mpsc

/-!
# `MpscQueue` with atomic operations

What `Push` and `Pop` come to when nothing falls between their accesses (`push_ends`, `pop_ends`). A queue whose links
lead from `tail_` through a list, with `head_` at its last item (`Holds`), is a FIFO queue: `Push` adds at the end,
`Pop` takes the first item, and both change the `next` fields of their own items only.
-/

namespace Cothread.Mpsc

open Object Chain

variable {T : Type*} [DecidableEq T]

/-- `Push(item)`. -/
def Mem.push (m : Mem T) (item : T) : Mem T :=
  match m.head with
  | some prev =>
    { m with
      head := some item
      next := Function.update (Function.update m.next item none) prev (some item) }
  | none => ⟨some item, some item, Function.update m.next item none⟩

/-- `Pop()`; `none` when it comes to the loop in which it waits for the link of a `Push` in progress. -/
def Mem.pop (m : Mem T) : Option (Mem T × Option T) :=
  match m.tail with
  | none => some (m, none)
  | some t => match m.next t with
    | some n => some ({ m with tail := some n, next := Function.update m.next t none }, some t)
    | none =>
      if m.head = some t then some (⟨none, none, Function.update m.next t none⟩, some t) else none

/-! ## The accesses -/

/-- An access of `Push`. -/
def pushAccess (m : Mem T) (pc : PushPc T) : Mem T × (PushPc T ⊕ Unit) :=
  ((pushStep m pc).1, match (pushStep m pc).2 with
    | some pc' => .inl pc'
    | none => .inr ())

/-- An access of `Pop`. -/
def popAccess (m : Mem T) (pc : PopPc T) : Mem T × (PopPc T ⊕ Option T) :=
  ((popStep m pc).1, match (popStep m pc).2 with
    | .running pc' => .inl pc'
    | .returned item => .inr item)

theorem push_ends (m : Mem T) (item : T) : Ends pushAccess m (.inl (.clear item)) (m.push item) () := by
  refine .next rfl ?_
  unfold Mem.push
  cases hhead : m.head with
  | some prev =>
    refine .next (by simp only [pushAccess, pushStep, hhead]; rfl) ?_
    exact .last rfl
  | none =>
    refine .next (by simp only [pushAccess, pushStep, hhead]; rfl) ?_
    exact .last rfl

theorem pop_ends {m m' : Mem T} {r : Option T} (h : m.pop = some (m', r)) :
    Ends popAccess m (.inl .loadTail) m' r := by
  unfold Mem.pop at h
  cases htail : m.tail with
  | none =>
    simp only [htail, Option.some.injEq, Prod.mk.injEq] at h
    obtain ⟨rfl, rfl⟩ := h
    exact .last (by simp only [popAccess, popStep, htail])
  | some t =>
    refine .next (by simp only [popAccess, popStep, htail]; rfl) ?_
    cases hnext : m.next t with
    | some n =>
      simp only [htail, hnext, Option.some.injEq, Prod.mk.injEq] at h
      obtain ⟨rfl, rfl⟩ := h
      refine .next (by simp only [popAccess, popStep, hnext]; rfl) ?_
      exact .next rfl (.last rfl)
    | none =>
      simp only [htail, hnext] at h
      obtain ⟨hhead, h⟩ := Option.ite_none_right_eq_some.mp h
      cases h
      refine .next (by simp only [popAccess, popStep, hnext]; rfl) ?_
      refine .next (by simp only [popAccess, popStep, if_pos hhead]; rfl) ?_
      exact .next rfl (.last rfl)

/-! ## The list -/

/-- The links lead from `tail_` through the items of the list, and `head_` is the last one. -/
structure Holds (m : Mem T) (xs : List T) : Prop where
  path : Path m.next m.tail xs
  head : m.head = xs.getLast?
  nodup : xs.Nodup

variable {m m' : Mem T} {x : T} {xs : List T}

omit [DecidableEq T] in
theorem holds_empty : Holds (.empty : Mem T) [] := ⟨rfl, rfl, List.nodup_nil⟩

omit [DecidableEq T] in
/-- A queue depends on the links of its items only. -/
theorem Holds.congr (h : Holds m xs) (hhead : m'.head = m.head) (htail : m'.tail = m.tail)
    (hnext : ∀ y ∈ xs, m'.next y = m.next y) : Holds m' xs := by
  refine ⟨?_, hhead.trans h.head, h.nodup⟩
  rw [htail]
  exact h.path.congr hnext

/-- `Push` links the last item to the new one. -/
theorem Holds.push_next (h : Holds m xs) {y : T} (hy : y ∉ xs) (hne : y ≠ x) : (m.push x).next y = m.next y := by
  unfold Mem.push
  split
  · rename_i prev hprev
    have hmem : prev ∈ xs := List.mem_of_getLast? (h.head ▸ hprev)
    have hyp : y ≠ prev := fun he => hy (he ▸ hmem)
    exact (Function.update_of_ne hyp _ _).trans (Function.update_of_ne hne _ _)
  · exact Function.update_of_ne hne _ _

/-- **`Push`** adds at the end. -/
theorem Holds.push (h : Holds m xs) (hx : x ∉ xs) : Holds (m.push x) (xs ++ [x]) := by
  have hnodup : (xs ++ [x]).Nodup := by
    rw [List.nodup_append_comm]
    exact List.nodup_cons.mpr ⟨hx, h.nodup⟩
  refine ⟨?_, ?_, hnodup⟩
  · unfold Mem.push
    split
    · rename_i prev hprev
      have hlast : xs.getLast? = some prev := h.head ▸ hprev
      have hne : x ≠ prev := fun he => hx (he ▸ List.mem_of_getLast? hlast)
      refine Path.snoc (Function.update_self ..) ?_ h.nodup (fun y hy hyp => ?_) hlast h.path
      · rw [Function.update_of_ne hne, Function.update_self]
      · have hyx : y ≠ x := fun he => hx (he ▸ hy)
        rw [Function.update_of_ne hyp, Function.update_of_ne hyx]
    · rename_i hnone
      have hnil : xs = [] := List.getLast?_eq_none_iff.mp (h.head ▸ hnone)
      subst hnil
      exact ⟨rfl, Function.update_self ..⟩
  · rw [List.getLast?_concat]
    unfold Mem.push
    split <;> rfl

/-- **`Pop`** of an empty queue. -/
theorem Holds.pop_nil (h : Holds m []) : m.pop = some (m, none) := by
  have htail : m.tail = none := h.path
  rw [Mem.pop, htail]

/-- **`Pop`** takes the first item. -/
theorem Holds.pop_cons (h : Holds m (x :: xs)) :
    ∃ m', m.pop = some (m', some x) ∧ Holds m' xs ∧ ∀ y, y ≠ x → m'.next y = m.next y := by
  obtain ⟨⟨htail, hpath⟩, hhead, hnodup⟩ := h
  obtain ⟨hx, hnodup⟩ := List.nodup_cons.mp hnodup
  have hkeep : ∀ y, y ≠ x → Function.update m.next x none y = m.next y := fun y hy => Function.update_of_ne hy _ _
  unfold Mem.pop
  rw [htail]
  cases xs with
  | nil =>
    have hnext : m.next x = none := hpath
    refine ⟨_, by simp only [hnext, hhead, List.getLast?_singleton, if_true]; rfl, ?_, hkeep⟩
    exact ⟨rfl, rfl, hnodup⟩
  | cons z xs =>
    have hnext : m.next x = some z := hpath.1
    refine ⟨_, by simp only [hnext]; rfl, ⟨?_, ?_, hnodup⟩, hkeep⟩
    · show Path (Function.update m.next x none) (some z) (z :: xs)
      rw [← hnext]
      exact hpath.update_of_notMem hx
    · rw [hhead, List.getLast?_cons_cons]

end Cothread.Mpsc
