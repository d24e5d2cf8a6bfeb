import Cothread.Core.Basic
import Cothread.Queue.MpmcDeque

/-!
# `Butex::Wake(count)` wakes the first `count` waiters

`Wake` alone, on a wait list of any length in which any waiters have been removed. A batch is what
`PopMultipleFromHead` returns, at most `BATCH_SIZE` waiters and at most as many as are still to be woken; the loop ends
when `count` waiters have been woken or a batch is empty. `Woken s s' xs`: between `s` and `s'` the waiters of `xs` have
been woken in this order, and nobody else; batches compose (`Woken.trans`).
-/

namespace Cothread.ButexWake

open Object Chain Mpmc

/-- `BATCH_SIZE`. -/
def BATCH_SIZE : Int := 16

/-- The wait list, the fields of the tasks, and what the timers and the scheduler are asked to do. -/
structure State (X : Type*) where
  queue : Mem X
  isWaiting : X → Bool
  wakeCount : X → Int
  taskState : X → TaskState
  timerId : X → Int
  cancelled : List Int  -- the ids passed to `Cancel`
  enqueued : List X  -- the tasks passed to `EnqueueTask`

variable {X : Type*} [DecidableEq X]

/-- `EnqueueTask(task)`: the task is ready, and in a queue of the scheduler. -/
def State.enqueueTask (s : State X) (task : X) : State X :=
  { s with taskState := Function.update s.taskState task .ready, enqueued := s.enqueued ++ [task] }

/-- What `Wake` does with a waiter that it has popped. -/
def State.wakeWaiter (s : State X) (waiter : X) : State X :=
  let s' := { s with
    isWaiting := Function.update s.isWaiting waiter false
    wakeCount := Function.update s.wakeCount waiter (wrap32 (s.wakeCount waiter + 1))
    cancelled := if s.timerId waiter ≠ 0 then s.cancelled ++ [s.timerId waiter] else s.cancelled }
  if s'.taskState waiter = .suspended then
    State.enqueueTask { s' with taskState := Function.update s'.taskState waiter .ready } waiter
  else s'

/-- The loop of `Wake(count)` with at most `fuel` turns, after `totalWoken` waiters. -/
def wakeLoop (count : Int) : ℕ → State X → List Bool → Int → Option (State X)
  | 0, _, _, _ => none
  | fuel + 1, s, spurious, totalWoken =>
    if totalWoken < count then
      (popMultipleFromHead fuel s.queue spurious (min (count - totalWoken) BATCH_SIZE)).bind fun p =>
        if p.2.length = 0 then some { s with queue := p.1.1 }
        else wakeLoop count fuel (p.2.foldl State.wakeWaiter { s with queue := p.1.1 }) p.1.2
          (totalWoken + p.2.length)
    else some s

/-- `Wake(count)`; the list tells which `compare_exchange_weak` fail spuriously. -/
def State.wake (fuel : ℕ) (s : State X) (spurious : List Bool) (count : Int) : Option (State X) :=
  wakeLoop count fuel s spurious 0

/-! ## Waking waiters -/

/-- Between the states the waiters of the list have been woken, in this order, and nobody else. -/
structure Woken (s s' : State X) (xs : List X) : Prop where
  enqueued : s'.enqueued = s.enqueued ++ xs
  cancelled : s'.cancelled = s.cancelled ++ (xs.map s.timerId).filter (· ≠ 0)
  timerId : s'.timerId = s.timerId
  isWaiting : ∀ x, s'.isWaiting x = if x ∈ xs then false else s.isWaiting x
  wakeCount : ∀ x, s'.wakeCount x = if x ∈ xs then wrap32 (s.wakeCount x + 1) else s.wakeCount x
  taskState : ∀ x, s'.taskState x = if x ∈ xs then .ready else s.taskState x

variable {s s₁ s' : State X} {x : X} {xs ys items : List X}

/-- Popping a waiter is not waking it. -/
theorem woken_nil (s : State X) (m : Mem X) : Woken s { s with queue := m } [] := by
  refine ⟨(List.append_nil _).symm, (List.append_nil _).symm, rfl, fun x => ?_, fun x => ?_, fun x => ?_⟩ <;>
    exact (if_neg List.not_mem_nil).symm

/-- **One waiter** that is suspended. -/
theorem woken_waiter (hx : s.taskState x = .suspended) : Woken s (s.wakeWaiter x) [x] := by
  have heq : s.wakeWaiter x = { s with
      isWaiting := Function.update s.isWaiting x false
      wakeCount := Function.update s.wakeCount x (wrap32 (s.wakeCount x + 1))
      cancelled := if s.timerId x ≠ 0 then s.cancelled ++ [s.timerId x] else s.cancelled
      taskState := Function.update s.taskState x .ready
      enqueued := s.enqueued ++ [x] } := by
    simp only [State.wakeWaiter, hx, if_true, State.enqueueTask, Function.update_idem]
  rw [heq]
  refine ⟨rfl, ?_, rfl, fun y => ?_, fun y => ?_, fun y => ?_⟩
  · by_cases hid : s.timerId x ≠ 0
    · simp [hid]
    · simp [hid]
  all_goals
    by_cases hy : y = x
    · subst hy
      simp
    · simp [hy]

/-- Waking one list of waiters after the other. -/
theorem Woken.trans (h : Woken s s₁ xs) (h' : Woken s₁ s' ys) (hdisj : ∀ x ∈ xs, x ∉ ys) : Woken s s' (xs ++ ys) := by
  refine ⟨?_, ?_, h'.timerId.trans h.timerId, fun x => ?_, fun x => ?_, fun x => ?_⟩
  · rw [h'.enqueued, h.enqueued, List.append_assoc]
  · rw [h'.cancelled, h.cancelled, h.timerId, List.map_append, List.filter_append, List.append_assoc]
  · rw [h'.isWaiting, h.isWaiting]
    simp only [List.mem_append]
    by_cases hy : x ∈ ys
    · simp [hy]
    · simp [hy]
  · rw [h'.wakeCount, h.wakeCount]
    simp only [List.mem_append]
    by_cases hx : x ∈ xs
    · simp [hx, hdisj x hx]
    · simp [hx]
  · rw [h'.taskState, h.taskState]
    simp only [List.mem_append]
    by_cases hy : x ∈ ys
    · simp [hy]
    · simp [hy]

/-- **A batch** of suspended waiters. -/
theorem woken_batch (hxs : xs.Nodup) (hstate : ∀ x ∈ xs, s.taskState x = .suspended) :
    Woken s (xs.foldl State.wakeWaiter s) xs := by
  induction xs generalizing s with
  | nil => exact woken_nil s s.queue
  | cons x xs ih =>
    obtain ⟨hx, hxs⟩ := List.nodup_cons.mp hxs
    have hone := woken_waiter (hstate x List.mem_cons_self)
    have hrest : ∀ y ∈ xs, (s.wakeWaiter x).taskState y = .suspended := by
      intro y hy
      have hyx : y ∉ [x] := fun he => hx (List.mem_singleton.mp he ▸ hy)
      rw [hone.taskState, if_neg hyx]
      exact hstate y (List.mem_cons_of_mem x hy)
    refine hone.trans (ih hxs hrest) fun y hy => ?_
    rw [List.mem_singleton.mp hy]
    exact hx

/-- A batch that has been popped. -/
theorem woken_popped (m : Mem X) (hxs : xs.Nodup) (hstate : ∀ x ∈ xs, s.taskState x = .suspended) :
    Woken s (xs.foldl State.wakeWaiter { s with queue := m }) xs := by
  have hall : Woken { s with queue := m } (xs.foldl State.wakeWaiter { s with queue := m }) xs := woken_batch hxs hstate
  exact (woken_nil s m).trans hall fun x hx => absurd hx List.not_mem_nil

theorem wakeWaiter_queue (s : State X) (x : X) : (s.wakeWaiter x).queue = s.queue := by
  simp only [State.wakeWaiter, State.enqueueTask]
  split <;> rfl

theorem batch_queue (s : State X) (xs : List X) : (xs.foldl State.wakeWaiter s).queue = s.queue := by
  induction xs generalizing s with
  | nil => rfl
  | cons x xs ih =>
    rw [List.foldl_cons, ih, wakeWaiter_queue]

/-! ## The loop -/

omit [DecidableEq X] in
/-- A batch of `k`, and as many of the others as are missing. -/
theorem take_batch (xs : List X) {k n : ℕ} (hk : k ≤ n) :
    xs.take k ++ (xs.drop k).take (n - (xs.take k).length) = xs.take n := by
  rcases Nat.le_total k xs.length with hle | hle
  · rw [List.length_take_of_le hle, ← List.take_add, Nat.add_sub_cancel' hk]
  · rw [List.drop_eq_nil_of_le hle, List.take_nil, List.append_nil, List.take_of_length_le hle,
      List.take_of_length_le (hle.trans hk)]

omit [DecidableEq X] in
/-- What is left then. -/
theorem drop_batch (xs : List X) {k n : ℕ} (hk : k ≤ n) :
    (xs.drop k).drop (n - (xs.take k).length) = xs.drop n := by
  rcases Nat.le_total k xs.length with hle | hle
  · rw [List.length_take_of_le hle, List.drop_drop, Nat.add_sub_cancel' hk]
  · rw [List.drop_eq_nil_of_le hle, List.drop_nil, List.drop_eq_nil_of_le (hle.trans hk)]

/-- **The loop** wakes the first waiters up to `count`, and leaves the others in the list as they were. -/
theorem wakeLoop_returns (count totalWoken : Int) (h : Holds s.queue items) (spurious : List Bool)
    (hstate : ∀ x ∈ s.queue.live items, s.taskState x = .suspended) :
    ∃ s' left, Returns (fun fuel => wakeLoop count fuel s spurious totalWoken) s' ∧
      Woken s s' ((s.queue.live items).take (count - totalWoken).toNat) ∧ Holds s'.queue left ∧ left <:+ items ∧
      s'.queue.live left = (s.queue.live items).drop (count - totalWoken).toNat := by
  induction hn : (count - totalWoken).toNat using Nat.strong_induction_on
    generalizing s items spurious totalWoken with
  | _ n ih =>
  by_cases hlt : totalWoken < count
  · have hbatch : (min (count - totalWoken) BATCH_SIZE).toNat = min n 16 := by
      unfold BATCH_SIZE
      omega
    let rest (p : (Mem X × List Bool) × List X) (fuel : ℕ) : Option (State X) :=
      if p.2.length = 0 then some { s with queue := p.1.1 }
      else wakeLoop count fuel (p.2.foldl State.wakeWaiter { s with queue := p.1.1 }) p.1.2 (totalWoken + p.2.length)
    have hturn : ∀ fuel, wakeLoop count (fuel + 1) s spurious totalWoken =
        (popUpTo fuel (min n 16) s.queue spurious).bind fun p => rest p fuel := by
      intro fuel
      rw [wakeLoop, if_pos hlt, popMultipleFromHead, hbatch]
    obtain ⟨m, spurious', left, hpop, hholds, hleft, hlive, -⟩ := h.popUpTo spurious (min n 16)
    have hnodup : (s.queue.live items).Nodup := h.nodup.filter _
    rcases Nat.eq_zero_or_pos ((s.queue.live items).take (min n 16)).length with hzero | hpos
    · -- Nobody is left: the batch is empty and the loop ends.
      have hnobody : s.queue.live items = [] := by
        have hmin : min n 16 ≠ 0 := by omega
        exact (List.take_eq_nil_iff.mp (List.length_eq_zero_iff.mp hzero)).resolve_left hmin
      have hrest : Returns (rest ((m, spurious'), (s.queue.live items).take (min n 16))) { s with queue := m } := by
        simp only [rest, hzero, if_true]
        exact .pure _
      refine ⟨{ s with queue := m }, left, (hpop.bind hrest).turn hturn, ?_, hholds, hleft, ?_⟩
      · rw [hnobody, List.take_nil]
        exact woken_nil s m
      · rw [hlive, hnobody, List.drop_nil, List.drop_nil]
    · generalize hb : (s.queue.live items).take (min n 16) = batch at hpop hpos
      have hmem : ∀ x ∈ batch, x ∈ s.queue.live items := fun x hx => List.mem_of_mem_take (hb ▸ hx)
      have hdisj : ∀ x ∈ batch, x ∉ (s.queue.live items).drop (min n 16) := fun x hx =>
        List.disjoint_take_drop hnodup (Nat.le_refl _) (hb ▸ hx)
      obtain ⟨s₁, hs₁⟩ : ∃ s₁, batch.foldl State.wakeWaiter { s with queue := m } = s₁ := ⟨_, rfl⟩
      have hwoken : Woken s s₁ batch := by
        have hbatch_nodup : batch.Nodup := hb ▸ hnodup.sublist (List.take_sublist _ _)
        exact hs₁ ▸ woken_popped m hbatch_nodup fun x hx => hstate x (hmem x hx)
      have hqueue : s₁.queue = m := hs₁ ▸ batch_queue _ _
      have hlive₁ : s₁.queue.live left = (s.queue.live items).drop (min n 16) := hqueue.symm ▸ hlive
      have hstate₁ : ∀ x ∈ s₁.queue.live left, s₁.taskState x = .suspended := by
        intro x hx
        rw [hlive₁] at hx
        rw [hwoken.taskState, if_neg fun hm => hdisj x hm hx]
        exact hstate x (List.mem_of_mem_drop hx)
      have hmissing : (count - (totalWoken + batch.length)).toNat = n - batch.length := by omega
      obtain ⟨s', left', hreturns, hwoken', hholds', hleft', hlive'⟩ := ih _ (by omega)
        (totalWoken + batch.length) (hqueue.symm ▸ hholds : Holds s₁.queue left) spurious' hstate₁ hmissing
      have hrest : Returns (rest ((m, spurious'), batch)) s' := by
        simp only [rest, Nat.ne_of_gt hpos, if_false, hs₁]
        exact hreturns
      rw [hlive₁] at hwoken' hlive'
      refine ⟨s', left', (hpop.bind hrest).turn hturn, ?_, hholds', hleft'.trans hleft, ?_⟩
      · rw [← take_batch _ (Nat.min_le_left n 16), hb]
        refine hwoken.trans hwoken' fun x hx hm => ?_
        exact hdisj x hx (List.mem_of_mem_take hm)
      · rw [hlive', ← drop_batch _ (Nat.min_le_left n 16), hb]
  · have hzero : n = 0 := by omega
    subst hzero
    refine ⟨s, items, .last fun fuel => by rw [wakeLoop, if_neg hlt], ?_, h, List.suffix_rfl, rfl⟩
    exact woken_nil s s.queue

/-- **`Wake(count)`** returns, and has woken the first `count` waiters that had not been removed, or all of them, in the
order of the list; the others are as they were, and are queued in the same order. -/
theorem wake_wakes (h : Holds s.queue items) (hstate : ∀ x ∈ s.queue.live items, s.taskState x = .suspended)
    (count : Int) (spurious : List Bool) :
    ∃ s' woken left, Returns (fun fuel => s.wake fuel spurious count) s' ∧
      woken = (s.queue.live items).take (max count 0).toNat ∧ woken.Nodup ∧
      (woken.length : Int) = min (max count 0) (s.queue.live items).length ∧
      s'.enqueued = s.enqueued ++ woken ∧
      (∀ x ∈ woken,
        s'.isWaiting x = false ∧ s'.wakeCount x = wrap32 (s.wakeCount x + 1) ∧ s'.taskState x = .ready) ∧
      (∀ x, x ∉ woken →
        s'.isWaiting x = s.isWaiting x ∧ s'.wakeCount x = s.wakeCount x ∧ s'.taskState x = s.taskState x) ∧
      Holds s'.queue left ∧ left <:+ items ∧
      s'.queue.live left = (s.queue.live items).drop (max count 0).toNat := by
  have hcount : (max count 0).toNat = (count - 0).toNat := by omega
  obtain ⟨s', left, hreturns, hwoken, hholds, hleft, hlive⟩ := wakeLoop_returns count 0 h spurious hstate
  rw [← hcount] at hwoken hlive
  have hnodup : (s.queue.live items).Nodup := h.nodup.filter _
  refine ⟨s', _, left, hreturns, rfl, hnodup.sublist (List.take_sublist _ _), ?_, hwoken.enqueued, fun x hx => ?_,
    fun x hx => ?_, hholds, hleft, hlive⟩
  · rw [List.length_take]
    omega
  · rw [hwoken.isWaiting, hwoken.wakeCount, hwoken.taskState, if_pos hx, if_pos hx, if_pos hx]
    exact ⟨rfl, rfl, rfl⟩
  · rw [hwoken.isWaiting, hwoken.wakeCount, hwoken.taskState, if_neg hx, if_neg hx, if_neg hx]
    exact ⟨rfl, rfl, rfl⟩

theorem wake_wakes_two : ∃ (s s' : State ℕ) (left : List ℕ), Returns (fun fuel => s.wake fuel [true] 2) s' ∧
    s'.enqueued = [1, 3] ∧ s'.queue.live left = [4] := by
  have hitems : Holds ((((Mem.empty.addToTail 1).addToTail 2).addToTail 3).addToTail 4) [1, 2, 3, 4] :=
    (((holds_empty.addToTail (by decide)).addToTail (by decide)).addToTail (by decide)).addToTail (by decide)
  let m : Mem ℕ := { (((Mem.empty.addToTail 1).addToTail 2).addToTail 3).addToTail 4 with claimed := (· == 2) }
  let s : State ℕ := ⟨m, fun _ => true, fun _ => 0, fun _ => .suspended, fun _ => 0, [], []⟩
  have hholds : Holds s.queue [1, 2, 3, 4] := ⟨hitems.path, hitems.tail, hitems.nodup⟩
  obtain ⟨s', woken, left, hreturns, hwoken, -, -, henqueued, -, -, -, -, hlive⟩ :=
    wake_wakes hholds (fun x _ => rfl) 2 [true]
  exact ⟨s, s', left, hreturns, henqueued.trans (hwoken ▸ rfl), hlive⟩

end Cothread.ButexWake
