import Cothread.Queue.MpscInv

/-!
# Waiter queues

A queue of suspended tasks, as the locks use it: every task pushes itself, and one party pops at a time. `WaiterQueue`
has its operations access by access; `mpsc` is the queue of the code, and `fifo` is a queue with atomic operations. A
queue is `Lawful` when `Pop` returns only tasks that are in the queue, whatever the order of the accesses; `mpsc` is
(`lawful_mpsc`).
-/

namespace Cothread

open Run

universe u

/-! ## `MpscQueue` with one `Pop` at a time -/

namespace Mpsc

variable {T : Type u} [DecidableEq T] {m m' : Mem T} {push : T → Option (PushPc T)} {pop : Option (PopPc T)}
  {place : T → Place} {x t : T} {pc pc' : PushPc T} {c c' : PopPc T}

/-- A state that `Push` calls of the items themselves and one `Pop` at a time lead to. -/
def Ok (m : Mem T) (push : T → Option (PushPc T)) (pop : Option (PopPc T)) (place : T → Place) : Prop :=
  (∃ order returned, Reachable (system T T) ⟨m, push, pop, order, returned, place⟩) ∧
    ∀ x pc, push x = some pc → pc.item = x

theorem reachable_step {s s' : State T T} {l : Label T T} (hr : Reachable (system T T) s) (h : step s l = some s') :
    Reachable (system T T) s' := hr.step trivial h

/-- A `Push` goes on with the same item. -/
theorem item_pushStep (h : (pushStep m pc).2 = some pc') :
    pc'.item = pc.item := by
  cases pc with
  | clear x => cases h; rfl
  | exchange x =>
    cases hm : m.head <;> simp only [pushStep, hm] at h <;> cases h <;> rfl
  | link a x | setTail x => cases h

theorem Ok.start_push (h : Ok m push pop place) (hp : push x = none) (hx : place x = .out) :
    Ok m (Function.update push x (some (.clear x))) pop (Function.update place x .pushing) := by
  obtain ⟨⟨order, returned, hr⟩, hitem⟩ := h
  refine ⟨⟨order, returned, hr.step (l := .push x x) trivial (if_pos ⟨hp, hx⟩)⟩, fun y pc hy => ?_⟩
  by_cases hyx : y = x
  · subst hyx
    rw [Function.update_self] at hy
    cases hy; rfl
  · rw [Function.update_of_ne hyx] at hy
    exact hitem y pc hy

theorem Ok.producer (h : Ok m push pop place) (hp : push x = some pc) :
    Ok (pushStep m pc).1 (Function.update push x (pushStep m pc).2) pop
      (if (pushStep m pc).2.isSome then place else Function.update place x .queued) := by
  obtain ⟨⟨order, returned, hr⟩, hitem⟩ := h
  have hst : step ⟨m, push, pop, order, returned, place⟩ (.producer x) =
      some (State.producer ⟨m, push, pop, order, returned, place⟩ x pc) := by
    simp only [step, hp, Option.map_some]
  refine ⟨⟨order ++ pc.published, returned, ?_⟩, fun y pc' hy => ?_⟩
  · have hr' := reachable_step hr hst
    rw [State.producer, hitem x pc hp] at hr'
    cases hs : (pushStep m pc).2 <;> simpa [hs] using hr'
  · by_cases hyx : y = x
    · subst hyx
      rw [Function.update_self] at hy
      exact (item_pushStep hy).trans (hitem y pc hp)
    · rw [Function.update_of_ne hyx] at hy
      exact hitem y pc' hy

theorem Ok.start_pop (h : Ok m push none place) : Ok m push (some .loadTail) place := by
  obtain ⟨⟨order, returned, hr⟩, hitem⟩ := h
  exact ⟨⟨order, returned, reachable_step hr (l := .pop) (by simp [step])⟩, hitem⟩

/-- The consumer's access. -/
theorem step_ok {order returned : List T} :
    step ⟨m, push, some c, order, returned, place⟩ .consumer =
      some (State.consumer ⟨m, push, some c, order, returned, place⟩ c) := rfl

theorem Ok.running (h : Ok m push (some c) place) (hc : popStep m c = (m', .running c')) :
    Ok m' push (some c') place := by
  obtain ⟨⟨order, returned, hr⟩, hitem⟩ := h
  have hr' := reachable_step hr step_ok
  rw [consumer_running hc] at hr'
  exact ⟨⟨order, returned, hr'⟩, hitem⟩

theorem Ok.null (h : Ok m push (some c) place) (hc : popStep m c = (m', .returned none)) :
    Ok m' push none place := by
  obtain ⟨⟨order, returned, hr⟩, hitem⟩ := h
  have hr' := reachable_step hr step_ok
  rw [consumer_null hc] at hr'
  exact ⟨⟨order, returned, hr'⟩, hitem⟩

/-- A `Pop` returns an item in its last access. -/
theorem popStep_item (hc : popStep m c = (m', .returned (some t))) : c = .clear t := by
  cases c with
  | clear y => cases hc; rfl
  | _ =>
    simp only [popStep] at hc
    repeat' split at hc
    all_goals cases hc

theorem Ok.item (h : Ok m push (some c) place) (hc : popStep m c = (m', .returned (some t))) :
    place t = .queued ∧ Ok m' push none (Function.update place t .out) := by
  obtain rfl := popStep_item hc
  cases hc
  obtain ⟨⟨order, returned, hr⟩, hitem⟩ := h
  obtain ⟨q, hi, -⟩ := reachable_inv hr
  have hr' := reachable_step hr step_ok
  exact ⟨hi.leaving t (List.mem_singleton_self t), ⟨order, returned ++ [t], hr'⟩, hitem⟩

end Mpsc

/-! ## Queues access by access -/

/-- What an access of a `Pop` leads to. -/
inductive Popped (PopPc T : Type u)
  | running (pc : PopPc)
  | returned (item : Option T)

/-- The result of an access of `MpscQueue::Pop`. -/
def Popped.toMpsc {T : Type u} : Popped (Mpsc.PopPc T) T → Mpsc.PopResult T
  | .running pc => .running pc
  | .returned item => .returned item

/-- A queue whose `Push` and `Pop` take one or more atomic accesses. -/
structure WaiterQueue (T : Type u) where
  Mem : Type u
  PushPc : Type u
  PopPc : Type u
  empty : Mem
  pushStart : T → PushPc
  pushStep : Mem → PushPc → Mem × Option PushPc
  popStart : PopPc
  popStep : Mem → PopPc → Mem × Popped PopPc T

namespace WaiterQueue

variable {T : Type u}

/-- `MpscQueue`. -/
def mpsc (T : Type u) [DecidableEq T] : WaiterQueue T where
  Mem := Mpsc.Mem T
  PushPc := Mpsc.PushPc T
  PopPc := Mpsc.PopPc T
  empty := .empty
  pushStart := .clear
  pushStep := Mpsc.pushStep
  popStart := .loadTail
  popStep m pc :=
    ((Mpsc.popStep m pc).1, match (Mpsc.popStep m pc).2 with
      | .running pc => .running pc
      | .returned item => .returned item)

/-- A first-in first-out queue with atomic operations. -/
def fifo (T : Type u) : WaiterQueue T where
  Mem := List T
  PushPc := T
  PopPc := PUnit
  empty := []
  pushStart := id
  pushStep q item := (q ++ [item], none)
  popStart := ⟨⟩
  popStep q _ := (q.tail, .returned q.head?)

/-- `Pop` returns only tasks that are in the queue: `Ok` relates the memory, the `Push` of every task, the `Pop` in
progress and where every task is. -/
structure Lawful [DecidableEq T] (Q : WaiterQueue T) where
  Ok : Q.Mem → (T → Option Q.PushPc) → Option Q.PopPc → (T → Mpsc.Place) → Prop
  empty : Ok Q.empty (fun _ => none) none fun _ => .out
  push {m push pop place x} : Ok m push pop place → push x = none → place x = .out →
    Ok m (Function.update push x (some (Q.pushStart x))) pop (Function.update place x .pushing)
  pushStep {m push pop place x pc} : Ok m push pop place → push x = some pc →
    Ok (Q.pushStep m pc).1 (Function.update push x (Q.pushStep m pc).2) pop
      (if (Q.pushStep m pc).2.isSome then place else Function.update place x .queued)
  pop {m push place} : Ok m push none place → Ok m push (some Q.popStart) place
  running {m push pc place m' pc'} : Ok m push (some pc) place → Q.popStep m pc = (m', .running pc') →
    Ok m' push (some pc') place
  null {m push pc place m'} : Ok m push (some pc) place → Q.popStep m pc = (m', .returned none) → Ok m' push none place
  item {m push pc place m' t} : Ok m push (some pc) place → Q.popStep m pc = (m', .returned (some t)) →
    place t = .queued ∧ Ok m' push none (Function.update place t .out)

theorem popStep_mpsc [DecidableEq T] {m m' : Mpsc.Mem T} {pc : Mpsc.PopPc T} {r : Popped (Mpsc.PopPc T) T}
    (h : (mpsc T).popStep m pc = (m', r)) : Mpsc.popStep m pc = (m', r.toMpsc) := by
  obtain ⟨rfl, rfl⟩ := Prod.mk.inj h
  refine Prod.ext rfl ?_
  cases (Mpsc.popStep m pc).2 <;> rfl

/-- **The queue of the code is lawful.** -/
def lawful_mpsc [DecidableEq T] : Lawful (mpsc T) where
  Ok := Mpsc.Ok
  empty := ⟨⟨[], [], .init rfl⟩, nofun⟩
  push := Mpsc.Ok.start_push
  pushStep := Mpsc.Ok.producer
  pop := Mpsc.Ok.start_pop
  running h hc := Mpsc.Ok.running h (popStep_mpsc hc)
  null h hc := Mpsc.Ok.null h (popStep_mpsc hc)
  item h hc := Mpsc.Ok.item h (popStep_mpsc hc)

end WaiterQueue

end Cothread
