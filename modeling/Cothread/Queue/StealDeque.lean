import Cothread.Lib.Object
import Cothread.Queue.WorkStealingAtomic

/-!
# `WorkStealingQueue` is a bounded double-ended list

With atomic operations, the answers of the queue are those of a list that `Push` extends at its end, `Pop` and
`PopMultiple` shorten at its end and `Steal` at its front, as long as at most `CAPACITY - 1` tasks are stored
(`deque_answers`). The indices wrap at `CAPACITY` and the versions at 32 bits in any sequence that is long enough: the
list is related to the window between the indices (`Holds`), wherever it lies, and to no version.
-/

namespace Cothread.WorkStealing

open Object

variable {T : Type*}

/-- A call of the owner or of a thief. -/
inductive Op (T : Type*)
  | push (task : T)
  | pop
  | popMultiple (maxCount : Int)
  | steal
  | empty
  deriving DecidableEq

/-- The answer to a call; of `PopMultiple`, the tasks that it has written to the buffer. -/
inductive Answer (T : Type*)
  | pushed
  | task (task : Option T)
  | tasks (buffer : List T)
  | empty (empty : Bool)
  deriving DecidableEq

/-- The loop of `PopMultiple` with `n` turns left to `max_count`. -/
def Queue.popUpTo (q : Queue T) : ℕ → Queue T × List T
  | 0 => (q, [])
  | n + 1 => match q.pop with
    | (q', none) => (q', [])
    | (q', some task) => ((q'.popUpTo n).1, task :: (q'.popUpTo n).2)

/-- `PopMultiple(buffer, max_count)`: no turn when `max_count` is negative. -/
def Queue.popMultiple (q : Queue T) (maxCount : Int) : Queue T × List T := q.popUpTo maxCount.toNat

/-- A call of the queue. -/
def Queue.call (q : Queue T) : Op T → Option (Queue T × Answer T)
  | .push task => some (q.push (some task), .pushed)
  | .pop => some (q.pop.1, .task q.pop.2)
  | .popMultiple maxCount => some ((q.popMultiple maxCount).1, .tasks (q.popMultiple maxCount).2)
  | .steal => some (q.steal.1, .task q.steal.2)
  | .empty => some (q, .empty q.empty)

/-- A call of the list of the stored tasks, the oldest first. It is not allowed to store more than `CAPACITY - 1`. -/
def dequeCall (xs : List T) : Op T → Option (List T × Answer T)
  | .push task => if xs.length + 1 < CAPACITY then some (xs ++ [task], .pushed) else none
  | .pop => some (xs.dropLast, .task xs.getLast?)
  | .popMultiple maxCount =>
    some (xs.take (xs.length - maxCount.toNat), .tasks (xs.reverse.take maxCount.toNat))
  | .steal => some (xs.tail, .task xs.head?)
  | .empty => some (xs, .empty xs.isEmpty)

/-! ## The refinement -/

variable {q : Queue T} {xs : List T}

/-- **`Pop`** takes the newest task. -/
theorem Holds.pop (h : Holds q xs) : q.pop.2 = xs.getLast? ∧ Holds q.pop.1 xs.dropLast := by
  obtain rfl | ⟨ys, x, rfl⟩ := xs.eq_nil_or_concat'
  · rw [h.pop_nil]
    exact ⟨rfl, h⟩
  · rw [List.getLast?_concat, List.dropLast_concat]
    exact h.pop_snoc

/-- **`Steal`** takes the oldest task. -/
theorem Holds.steal (h : Holds q xs) : q.steal.2 = xs.head? ∧ Holds q.steal.1 xs.tail := by
  cases xs with
  | nil =>
    rw [h.steal_nil]
    exact ⟨rfl, h⟩
  | cons x xs => exact h.steal_cons

/-- **`Empty`**. -/
theorem Holds.empty (h : Holds q xs) : q.empty = xs.isEmpty := by
  rw [Bool.eq_iff_iff, Queue.empty, beq_iff_eq, List.isEmpty_iff]
  exact h.empty_iff

/-- **The loop of `PopMultiple`** takes the newest tasks, the newest first. -/
theorem Holds.popUpTo (h : Holds q xs) (n : ℕ) :
    (q.popUpTo n).2 = xs.reverse.take n ∧ Holds (q.popUpTo n).1 (xs.take (xs.length - n)) := by
  induction n generalizing q xs with
  | zero =>
    constructor
    · rw [List.take_zero]
      rfl
    · rw [Nat.sub_zero, List.take_length]
      exact h
  | succ n ih =>
    obtain ⟨hpop, hrest⟩ := h.pop
    unfold Queue.popUpTo
    split
    · rename_i q' heq
      rw [heq] at hpop hrest
      have hnil : xs = [] := List.getLast?_eq_none_iff.mp hpop.symm
      subst hnil
      rw [List.take_nil]
      exact ⟨rfl, hrest⟩
    · rename_i q' task heq
      rw [heq] at hpop hrest
      obtain ⟨ys, rfl⟩ := List.getLast?_eq_some_iff.mp hpop.symm
      rw [List.dropLast_concat] at hrest
      obtain ⟨htasks, hholds⟩ := ih hrest
      constructor
      · rw [htasks, List.reverse_concat, List.take_succ_cons]
      · have hlen : (ys ++ [task]).length - (n + 1) = ys.length - n := by
          rw [List.length_append, List.length_singleton]
          omega
        rw [hlen, List.take_append_of_le_length (Nat.sub_le _ _)]
        exact hholds

/-- **One call**: a queue that holds a list gives its answers, and goes on to hold it. -/
theorem refines : Refines Queue.call dequeCall (Holds (T := T)) := by
  intro q xs o xs' r h hspec
  cases o with
  | push task =>
    obtain ⟨hroom, hspec⟩ := Option.ite_none_right_eq_some.mp hspec
    cases hspec
    exact ⟨_, rfl, h.push hroom⟩
  | pop =>
    cases hspec
    exact ⟨_, congrArg (fun a => some (q.pop.1, Answer.task a)) h.pop.1, h.pop.2⟩
  | popMultiple maxCount =>
    cases hspec
    obtain ⟨htasks, hholds⟩ := h.popUpTo maxCount.toNat
    exact ⟨_, congrArg (fun a => some ((q.popMultiple maxCount).1, Answer.tasks a)) htasks, hholds⟩
  | steal =>
    cases hspec
    exact ⟨_, congrArg (fun a => some (q.steal.1, Answer.task a)) h.steal.1, h.steal.2⟩
  | empty =>
    cases hspec
    exact ⟨_, congrArg (fun a => some (q, Answer.empty a)) h.empty, h⟩

/-- **A bounded deque**: the answers of a new queue are those of the list, while it is never longer than
`CAPACITY - 1`. -/
theorem deque_answers {ops : List (Op T)} {xs : List T} {rs : List (Answer T)}
    (hspec : run dequeCall [] ops = some (xs, rs)) : ∃ q, run Queue.call .new ops = some (q, rs) ∧ Holds q xs :=
  refines.run holds_new hspec

theorem deque_answers_three : ∃ q,
    run Queue.call .new [.push 1, .push 2, .push 3, .popMultiple 2, .steal, .empty] =
      some (q, [.pushed, .pushed, .pushed, .tasks [3, 2], .task (some 1), .empty true]) ∧ Holds q [] :=
  deque_answers (by decide)

end Cothread.WorkStealing
