import Cothread.Queue.StealOnce
import Mathlib.Data.List.ReduceOption

/-!
# `WorkStealingQueue` with atomic operations

What `Push`, `Pop` and `Steal` come to when nothing falls between their accesses (`complete_push`, `complete_pop`,
`complete_steal`). A queue whose window holds a list (`Holds`) is a queue as long as less than `CAPACITY` tasks are in
it: `Push` has no full check, and a task that is pushed onto `CAPACITY - 1` tasks empties the window
(`Holds.push_full`).
-/

namespace Cothread.WorkStealing

open Ring

variable {T : Type*}

/-- `Push(task)`. -/
def Queue.push (q : Queue T) (task : Option T) : Queue T :=
  { q with
    buffer := Function.update q.buffer (extractIndex q.tail) task
    tail := makeVal (extractVersion q.tail + 1) (nextIndex (extractIndex q.tail)) }

/-- `Pop()`. -/
def Queue.pop (q : Queue T) : Queue T × Option T :=
  if extractIndex q.head = extractIndex q.tail then (q, none)
  else
    let idx := prevIndex (extractIndex q.tail)
    if idx = extractIndex q.head then
      ({ q with
        head := makeVal (extractVersion q.head + 1) (nextIndex idx)
        tail := makeVal (extractVersion q.tail + 1) (nextIndex idx) }, q.buffer idx)
    else ({ q with tail := makeVal (extractVersion q.tail + 1) idx }, q.buffer idx)

/-- `Steal()`. -/
def Queue.steal (q : Queue T) : Queue T × Option T :=
  if extractIndex q.head = extractIndex q.tail then (q, none)
  else
    ({ q with head := makeVal (extractVersion q.head + 1) (nextIndex (extractIndex q.head)) },
      q.buffer (extractIndex q.head))

/-- `Pop` of a queue that is not empty. -/
theorem pop_eq {q : Queue T} {idx : ℕ} (hne : extractIndex q.head ≠ extractIndex q.tail)
    (hidx : prevIndex (extractIndex q.tail) = idx) : q.pop =
      if idx = extractIndex q.head then
        ({ q with
          head := makeVal (extractVersion q.head + 1) (nextIndex idx)
          tail := makeVal (extractVersion q.tail + 1) (nextIndex idx) }, q.buffer idx)
      else ({ q with tail := makeVal (extractVersion q.tail + 1) idx }, q.buffer idx) := by
  rw [Queue.pop, if_neg hne]
  simp only [hidx]

/-- At most `n` accesses of a call, one after the other: the queue and the return value when it returns. -/
def complete {Pc : Type*} (access : Queue T → Pc → Queue T × Result Pc T) :
    ℕ → Queue T → Pc → Option (Queue T × Option T)
  | 0, _, _ => none
  | n + 1, q, pc => match access q pc with
    | (q', .running pc') => complete access n q' pc'
    | (q', .returned task) => some (q', task)

section Complete

variable {Pc : Type*} {access : Queue T → Pc → Queue T × Result Pc T} {n : ℕ} {q q' : Queue T} {pc pc' : Pc}

theorem complete_running (h : access q pc = (q', .running pc')) :
    complete access (n + 1) q pc = complete access n q' pc' := by
  rw [complete, h]

theorem complete_returned {task : Option T} (h : access q pc = (q', .returned task)) :
    complete access (n + 1) q pc = some (q', task) := by
  rw [complete, h]

end Complete

theorem complete_push (q : Queue T) (task : T) :
    complete ownerStep 3 q (.pushLoadTail task) = some (q.push (some task), none) := rfl

theorem complete_pop (q : Queue T) : complete ownerStep 5 q .popLoadHead = some q.pop := by
  have hhead : ownerStep q .popLoadHead = (q, .running (.popLoadTail q.head)) := rfl
  by_cases hempty : extractIndex q.head = extractIndex q.tail
  · have htail : ownerStep q (.popLoadTail q.head) = (q, .returned none) := by rw [ownerStep, if_pos hempty]
    rw [complete_running hhead, complete_returned htail, Queue.pop, if_pos hempty]
  · have htail : ownerStep q (.popLoadTail q.head) = (q, .running (.popLoadSlot q.head q.tail)) := by
      rw [ownerStep, if_neg hempty]
    have hslot : ownerStep q (.popLoadSlot q.head q.tail) = (q, .running
        (if prevIndex (extractIndex q.tail) = extractIndex q.head then
          .popClaim q.head q.tail (q.buffer (prevIndex (extractIndex q.tail)))
        else .popSetTail q.tail (q.buffer (prevIndex (extractIndex q.tail))))) := rfl
    rw [complete_running hhead, complete_running htail, complete_running hslot, pop_eq hempty rfl]
    by_cases hlast : prevIndex (extractIndex q.tail) = extractIndex q.head
    · rw [if_pos hlast, if_pos hlast, complete_running (by rw [ownerStep, if_pos rfl]), complete_returned rfl]
    · rw [if_neg hlast, if_neg hlast, complete_returned rfl]

theorem complete_steal (q : Queue T) : complete (thiefStep false) 4 q (.loadHead 0) = some q.steal := by
  by_cases hempty : extractIndex q.head = extractIndex q.tail
  · simp [complete, thiefStep, Queue.steal, hempty]
  · simp [complete, thiefStep, Queue.steal, hempty]

/-! ## The window -/

/-- The window from `head_` to `tail_` holds the tasks of the list, in order. -/
def Holds (q : Queue T) (xs : List T) : Prop :=
  ∃ p, extractIndex q.head = p % CAPACITY ∧ extractIndex q.tail = (p + xs.length) % CAPACITY ∧ xs.length < CAPACITY ∧
    Slots q.buffer CAPACITY p xs

variable {q : Queue T} {xs : List T} {x : T}

theorem capacity_pos : 0 < CAPACITY := by decide

theorem holds_new : Holds (.new : Queue T) [] := ⟨0, rfl, rfl, capacity_pos, trivial⟩

/-- The window that the code sees. -/
theorem Holds.window (h : Holds q xs) : q.window = xs.map some := by
  obtain ⟨p, hhead, htail, hlen, hslots⟩ := h
  have hn : (extractIndex q.tail + CAPACITY - extractIndex q.head) % CAPACITY = xs.length := by
    rw [htail, hhead]
    unfold CAPACITY at *
    omega
  rw [Queue.window, hn, ← hslots.map_range]
  refine List.map_congr_left fun i _ => ?_
  rw [hhead, Nat.mod_add_mod]

theorem Holds.empty_iff (h : Holds q xs) : extractIndex q.head = extractIndex q.tail ↔ xs = [] := by
  obtain ⟨p, hhead, htail, hlen, -⟩ := h
  rw [hhead, htail]
  refine ⟨fun he => List.eq_nil_of_length_eq_zero ?_, fun he => by rw [he]; rfl⟩
  unfold CAPACITY at *
  omega

/-- The slot behind the window. -/
theorem Holds.tail_ne (h : Holds q xs) {i : ℕ} (hi : i < xs.length) :
    (extractIndex q.head + i) % CAPACITY ≠ extractIndex q.tail := by
  obtain ⟨p, hhead, htail, hlen, -⟩ := h
  rw [hhead, htail, Nat.mod_add_mod]
  exact mod_ne (by omega) (by omega)

/-- `Push` writes behind the window and moves `tail_` past it. -/
theorem push_tail {p : ℕ} (htail : extractIndex q.tail = (p + xs.length) % CAPACITY) (task : Option T) :
    extractIndex (q.push task).tail = (p + (xs.length + 1)) % CAPACITY := by
  have hnext : nextIndex (extractIndex q.tail) = (p + (xs.length + 1)) % CAPACITY := by
    rw [htail, nextIndex_mod, Nat.add_assoc]
  show extractIndex (makeVal _ _) = _
  rw [hnext, extractIndex_makeVal (mod_lt _)]

/-- **`Push`** onto a window that has room. -/
theorem Holds.push (h : Holds q xs) (hroom : xs.length + 1 < CAPACITY) : Holds (q.push (some x)) (xs ++ [x]) := by
  obtain ⟨p, hhead, htail, hlen, hslots⟩ := h
  refine ⟨p, hhead, ?_, by simpa using hroom, slots_append.mpr ⟨?_, ?_, trivial⟩⟩
  · rw [push_tail htail, List.length_append, List.length_singleton]
  · show Slots (Function.update q.buffer (extractIndex q.tail) (some x)) CAPACITY p xs
    rw [htail]
    exact hslots.write hlen
  · show Function.update q.buffer (extractIndex q.tail) (some x) ((p + xs.length) % CAPACITY) = some x
    rw [htail, Function.update_self]

/-- **`Push`** onto a window without room empties it. -/
theorem Holds.push_full (h : Holds q xs) (hfull : xs.length + 1 = CAPACITY) (task : Option T) :
    Holds (q.push task) [] := by
  obtain ⟨p, hhead, htail, -, -⟩ := h
  refine ⟨p, hhead, ?_, capacity_pos, trivial⟩
  rw [push_tail htail, hfull, Nat.add_mod_right]
  rfl

theorem Holds.pop_nil (h : Holds q []) : q.pop = (q, none) := if_pos (h.empty_iff.mpr rfl)

/-- **`Pop`** takes the last task. -/
theorem Holds.pop_snoc (h : Holds q (xs ++ [x])) : q.pop.2 = some x ∧ Holds q.pop.1 xs := by
  have hne : extractIndex q.head ≠ extractIndex q.tail := fun he => by simpa using h.empty_iff.mp he
  obtain ⟨p, hhead, htail, hlen, hslots⟩ := h
  rw [List.length_append, List.length_singleton] at htail hlen
  have hidx : prevIndex (extractIndex q.tail) = (p + xs.length) % CAPACITY := by
    rw [htail, ← Nat.add_assoc, prevIndex_mod]
  obtain ⟨hxs, hx, -⟩ := slots_append.mp hslots
  rw [pop_eq hne hidx]
  by_cases hlast : (p + xs.length) % CAPACITY = extractIndex q.head
  · have hnil : xs = [] := by
      rw [hhead] at hlast
      refine List.eq_nil_of_length_eq_zero ?_
      unfold CAPACITY at *
      omega
    subst hnil
    rw [if_pos hlast]
    have hnext : nextIndex ((p + ([] : List T).length) % CAPACITY) = (p + 1) % CAPACITY := nextIndex_mod p
    refine ⟨hx, p + 1, ?_, ?_, capacity_pos, trivial⟩
    · rw [hnext, extractIndex_makeVal (mod_lt _)]
    · rw [hnext, extractIndex_makeVal (mod_lt _)]
      rfl
  · rw [if_neg hlast]
    refine ⟨hx, p, hhead, ?_, by omega, hxs⟩
    rw [extractIndex_makeVal (mod_lt _)]

theorem Holds.steal_nil (h : Holds q []) : q.steal = (q, none) := if_pos (h.empty_iff.mpr rfl)

/-- **`Steal`** takes the first task. -/
theorem Holds.steal_cons (h : Holds q (x :: xs)) : q.steal.2 = some x ∧ Holds q.steal.1 xs := by
  have hne : extractIndex q.head ≠ extractIndex q.tail := fun he => by cases h.empty_iff.mp he
  obtain ⟨p, hhead, htail, hlen, hx, hxs⟩ := h
  rw [List.length_cons] at htail hlen
  rw [Queue.steal, if_neg hne]
  refine ⟨by rw [hhead]; exact hx, p + 1, ?_, ?_, by omega, hxs⟩
  · rw [hhead, nextIndex_mod, extractIndex_makeVal (mod_lt _)]
  · rw [htail, Nat.add_assoc, Nat.add_comm 1]

end Cothread.WorkStealing
