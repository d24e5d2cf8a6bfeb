import Cothread.Lib.Run
import Cothread.Lib.Chain
import Mathlib.Data.List.Perm.Basic

/-!
# `MpscQueue`: the atomic accesses of `Push` and `Pop`

The memory of a queue is `head_`, `tail_` and the `next` field of every item (`Mem`). A call of `Push` or `Pop` in
progress is the atomic access it performs next, with its local variables (`PushPc`, `PopPc`); `pushStep` and `popStep`
perform that access. `system` interleaves `Push` calls of any number of producers with the `Pop` calls of one
consumer, and records the order of the exchanges on `head_`, the items that `Pop` returned and where each item is.
-/

namespace Cothread.Mpsc

open Run

/-- `head_`, `tail_` and the `next` field of every item. -/
structure Mem (T : Type*) where
  head : Option T
  tail : Option T
  next : T → Option T

/-- The memory of a new queue. -/
def Mem.empty {T : Type*} : Mem T := ⟨none, none, fun _ => none⟩

/-! ## `Push` -/

/-- The next atomic access of a `Push` in progress. -/
inductive PushPc (T : Type*)
  | clear (item : T)  -- `Policy::Clear(item)`
  | exchange (item : T)  -- `prev = head_.exchange(item)`
  | link (prev item : T)  -- `Policy::Get(prev).store(item)`
  | setTail (item : T)  -- `tail_.store(item)`
  deriving DecidableEq

/-- The item being pushed. -/
@[simp] def PushPc.item {T : Type*} : PushPc T → T
  | .clear x | .exchange x | .link _ x | .setTail x => x

/-- The item that this access puts behind `head_`. -/
@[simp] def PushPc.published {T : Type*} : PushPc T → List T
  | .exchange x => [x]
  | _ => []

variable {P T : Type*} [DecidableEq P] [DecidableEq T]

/-- One atomic access of `MpscQueue::Push`; `none` when the call has returned. -/
def pushStep (m : Mem T) : PushPc T → Mem T × Option (PushPc T)
  | .clear item => ({ m with next := Function.update m.next item none }, some (.exchange item))
  | .exchange item =>
    ({ m with head := some item },
      match m.head with
      | some prev => some (.link prev item)
      | none => some (.setTail item))
  | .link prev item => ({ m with next := Function.update m.next prev (some item) }, none)
  | .setTail item => ({ m with tail := some item }, none)

/-! ## `Pop` -/

/-- The next atomic access of a `Pop` in progress. -/
inductive PopPc (T : Type*)
  | loadTail  -- `t = tail_.load()`
  | loadNext (t : T)  -- `next = Policy::Get(t).load()`
  | storeTail (t next : T)  -- `tail_.store(next)`
  | claim (t : T)  -- `head_.compare_exchange_strong(t, nullptr)`
  | storeNull (t : T)  -- `tail_.store(nullptr)`
  | clear (t : T)  -- `Policy::Clear(t)`, then `return t`
  | spin (t : T) (pauseCount yieldCount : Nat)  -- `n = Policy::Get(t).load()` in the spin loop, with its two counters
  | recheckTail (t : T)  -- `current_tail = tail_.load()` after both spinning phases
  | recheckHead (t : T)  -- `current_head = head_.load()` after both spinning phases
  deriving DecidableEq

/-- What an access of `Pop` leads to: the next access, or the call's return value. -/
inductive PopResult (T : Type*)
  | running (pc : PopPc T)
  | returned (item : Option T)
  deriving DecidableEq

/-- The item that this `Pop` has unlinked and is about to return. -/
@[simp] def PopPc.taken : PopPc T → List T
  | .storeNull t | .clear t => [t]
  | _ => []

def MAX_PAUSE_SPINS : Nat := 100
def MAX_YIELD_SPINS : Nat := 10

/-- One atomic access of `MpscQueue::Pop`. -/
def popStep (m : Mem T) : PopPc T → Mem T × PopResult T
  | .loadTail =>
    (m, match m.tail with
      | none => .returned none
      | some t => .running (.loadNext t))
  | .loadNext t =>
    (m, match m.next t with
      | some n => .running (.storeTail t n)
      | none => .running (.claim t))
  | .storeTail t n => ({ m with tail := some n }, .running (.clear t))
  | .claim t =>
    if m.head = some t then ({ m with head := none }, .running (.storeNull t))
    else (m, .running (.spin t 0 0))
  | .storeNull t => ({ m with tail := none }, .running (.clear t))
  | .clear t => ({ m with next := Function.update m.next t none }, .returned (some t))
  | .spin t pauseCount yieldCount =>
    (m, match m.next t with
      | some n => .running (.storeTail t n)
      | none =>
        if pauseCount < MAX_PAUSE_SPINS then .running (.spin t (pauseCount + 1) yieldCount)
        else if yieldCount < MAX_YIELD_SPINS then .running (.spin t 0 (yieldCount + 1))
        else .running (.recheckTail t))
  | .recheckTail t =>
    -- a changed tail restarts `Pop`
    (m, if m.tail = some t then .running (.recheckHead t) else .running .loadTail)
  | .recheckHead t =>
    (m, if m.head = none then .returned none else .running (.spin t 0 0))

/-! ## Producers and one consumer -/

/-- Where an item is: with its owner, in a `Push` in progress, or in the queue. -/
inductive Place
  | out
  | pushing
  | queued
  deriving DecidableEq

/-- The queue, the calls in progress and the history. -/
structure State (P T : Type*) where
  mem : Mem T
  push : P → Option (PushPc T)
  pop : Option (PopPc T)
  order : List T  -- the items in the order of the exchanges on `head_`
  returned : List T  -- the items that `Pop` returned, in order
  place : T → Place

/-- Who acts: a call starts, or a call in progress performs its next access. -/
inductive Label (P T : Type*)
  | push (p : P) (x : T)
  | producer (p : P)
  | pop
  | consumer
  deriving DecidableEq

/-- The state before any call. -/
def State.empty : State P T := ⟨.empty, fun _ => none, none, [], [], fun _ => .out⟩

/-- The producer `p` performs the next access `pc` of its `Push`. -/
def State.producer (s : State P T) (p : P) (pc : PushPc T) : State P T :=
  { s with
    mem := (pushStep s.mem pc).1
    push := Function.update s.push p (pushStep s.mem pc).2
    order := s.order ++ pc.published
    place := match (pushStep s.mem pc).2 with
      | some _ => s.place
      | none => Function.update s.place pc.item .queued }

/-- The consumer performs the next access `pc` of its `Pop`. -/
def State.consumer (s : State P T) (pc : PopPc T) : State P T :=
  match popStep s.mem pc with
  | (m, .running pc') => { s with mem := m, pop := some pc' }
  | (m, .returned none) => { s with mem := m, pop := none }
  | (m, .returned (some t)) =>
    { s with mem := m, pop := none, returned := s.returned ++ [t], place := Function.update s.place t .out }

/-- One step: an item is pushed only when it is neither being pushed nor in the queue. -/
def step (s : State P T) : Label P T → Option (State P T)
  | .push p x =>
    if s.push p = none ∧ s.place x = .out then
      some { s with
        push := Function.update s.push p (some (.clear x))
        place := Function.update s.place x .pushing }
    else none
  | .producer p => (s.push p).map (s.producer p)
  | .pop => if s.pop = none then some { s with pop := some .loadTail } else none
  | .consumer => s.pop.map s.consumer

/-- `Push` by any number of producers, `Pop` by one consumer. -/
def system (P T : Type*) [DecidableEq P] [DecidableEq T] : System (State P T) (Label P T) where
  init s := s = .empty
  step := step

/-! ## What a step can do -/

section Producer

variable (s : State P T) (p : P) (x : T)

theorem producer_clear : s.producer p (.clear x) = { s with
    mem := { s.mem with next := Function.update s.mem.next x none }
    push := Function.update s.push p (some (.exchange x)) } := by
  simp [State.producer, pushStep]

theorem producer_exchange_none (h : s.mem.head = none) : s.producer p (.exchange x) = { s with
    mem := { s.mem with head := some x }
    push := Function.update s.push p (some (.setTail x))
    order := s.order ++ [x] } := by
  simp [State.producer, pushStep, h]

theorem producer_exchange_some {a : T} (h : s.mem.head = some a) : s.producer p (.exchange x) = { s with
    mem := { s.mem with head := some x }
    push := Function.update s.push p (some (.link a x))
    order := s.order ++ [x] } := by
  simp [State.producer, pushStep, h]

theorem producer_link (a : T) : s.producer p (.link a x) = { s with
    mem := { s.mem with next := Function.update s.mem.next a (some x) }
    push := Function.update s.push p none
    place := Function.update s.place x .queued } := by
  simp [State.producer, pushStep]

theorem producer_setTail : s.producer p (.setTail x) = { s with
    mem := { s.mem with tail := some x }
    push := Function.update s.push p none
    place := Function.update s.place x .queued } := by
  simp [State.producer, pushStep]

end Producer

section Consumer

omit [DecidableEq P]

variable {s : State P T} {pc pc' : PopPc T} {m : Mem T}

theorem consumer_running (h : popStep s.mem pc = (m, .running pc')) :
    s.consumer pc = { s with mem := m, pop := some pc' } := by
  simp only [State.consumer, h]

theorem consumer_null (h : popStep s.mem pc = (m, .returned none)) :
    s.consumer pc = { s with mem := m, pop := none } := by
  simp only [State.consumer, h]

theorem consumer_clear (t : T) : s.consumer (.clear t) = { s with
    mem := { s.mem with next := Function.update s.mem.next t none }
    pop := none
    returned := s.returned ++ [t]
    place := Function.update s.place t .out } := rfl

end Consumer

theorem step_push {s t : State P T} {p : P} {x : T} (h : step s (.push p x) = some t) :
    s.push p = none ∧ s.place x = .out ∧
      t = { s with
        push := Function.update s.push p (some (.clear x))
        place := Function.update s.place x .pushing } := by
  simp only [step] at h
  split at h
  · rename_i hc
    exact ⟨hc.1, hc.2, (Option.some.inj h).symm⟩
  · cases h

theorem step_producer {s t : State P T} {p : P} (h : step s (.producer p) = some t) :
    ∃ pc, s.push p = some pc ∧ t = s.producer p pc := by
  obtain ⟨pc, hpc, ht⟩ := Option.map_eq_some_iff.mp h
  exact ⟨pc, hpc, ht.symm⟩

theorem step_pop {s t : State P T} (h : step s .pop = some t) :
    s.pop = none ∧ t = { s with pop := some .loadTail } := by
  simp only [step] at h
  split at h
  · rename_i hc
    exact ⟨hc, (Option.some.inj h).symm⟩
  · cases h

theorem step_consumer {s t : State P T} (h : step s .consumer = some t) :
    ∃ pc, s.pop = some pc ∧ t = s.consumer pc := by
  obtain ⟨pc, hpc, ht⟩ := Option.map_eq_some_iff.mp h
  exact ⟨pc, hpc, ht.symm⟩

end Cothread.Mpsc
