import Cothread.Lib.Run

/-!
# `MpmcQueue`: the atomic accesses of `AddToTail`, `AddToHead` and `PopFromHead`

The memory of a queue is `head_`, `tail_` and the fields `next` and `claimed` of every item (`Mem`). A call in progress
is the atomic access it performs next, with its local variables (`AddPc`, `PopPc`); `addStep` and `popStep` perform that
access. Each item is added once, so that a call of a producer is named by its item. `system` interleaves the calls of
any number of producers with the `PopFromHead` calls of any number of consumers, and records the items returned. With
`is_waiting` null, or staying true, the loads of `is_waiting` lead nowhere and are left out.
-/

namespace Cothread.Mpmc

open Run

/-- `head_`, `tail_` and the fields of every item. -/
structure Mem (X : Type*) where
  head : Option X
  tail : Option X
  next : X → Option X
  claimed : X → Bool

/-- The memory of a new queue; no item is claimed. -/
def Mem.empty {X : Type*} : Mem X := ⟨none, none, fun _ => none, fun _ => false⟩

/-! ## `AddToTail` and `AddToHead` -/

/-- How far the one call that adds an item has come: its next atomic access. -/
inductive AddPc (X : Type*)
  | idle  -- not called yet
  | clearNext  -- `Policy::ClearNext(item)`
  | clearClaimed  -- `Policy::ClearClaimed(item)`
  | exchange  -- `prev = tail_.exchange(item)`
  | link (prev : X)  -- `Policy::GetNext(prev).store(item)`
  | setHead  -- `head_.compare_exchange_strong(nullptr, item)`
  | loadHead  -- `old_head = head_.load()`
  | setNext (oldHead : Option X)  -- `Policy::GetNext(item).store(old_head)`
  | casHead (oldHead : Option X)  -- `head_.compare_exchange_strong(old_head, item)`
  | setTail  -- `tail_.compare_exchange_strong(nullptr, item)`
  | done  -- returned
  deriving DecidableEq

/-- The call is in progress. -/
def AddPc.running {X : Type*} : AddPc X → Bool
  | .idle | .done => false
  | _ => true

variable {X C : Type*} [DecidableEq X] [DecidableEq C]

/-- One atomic access of the call that adds `item`. -/
def addStep (m : Mem X) (item : X) : AddPc X → Mem X × AddPc X
  | .idle => (m, .idle)
  | .clearNext => ({ m with next := Function.update m.next item none }, .clearClaimed)
  | .clearClaimed => ({ m with claimed := Function.update m.claimed item false }, .exchange)
  | .exchange =>
    ({ m with tail := some item },
      match m.tail with
      | some prev => .link prev
      | none => .setHead)
  | .link prev => ({ m with next := Function.update m.next prev (some item) }, .done)
  | .setHead => (if m.head = none then { m with head := some item } else m, .done)
  | .loadHead => (m, .setNext m.head)
  | .setNext oldHead => ({ m with next := Function.update m.next item oldHead }, .casHead oldHead)
  | .casHead oldHead =>
    if m.head = oldHead then ({ m with head := some item }, if oldHead = none then .setTail else .done)
    else (m, .loadHead)
  | .setTail => (if m.tail = none then { m with tail := some item } else m, .done)
  | .done => (m, .done)

/-! ## `PopFromHead` -/

/-- The next atomic access of a `PopFromHead` in progress. -/
inductive PopPc (X : Type*)
  | loadHead  -- `head = head_.load()`
  | loadTail  -- `tail = tail_.load()`, when `head` is null
  | claim (head : X)  -- `Policy::GetClaimed(head).exchange(true)`
  | loadNext (head : X)  -- `next = Policy::GetNext(head).load()`; `head` has been claimed
  | casNull (head : X)  -- `head_.compare_exchange_strong(head, nullptr)`
  | clearTail (head : X)  -- `tail_.compare_exchange_strong(head, nullptr)`, then `return head`
  | casNext (head next : X)  -- `head_.compare_exchange_strong(head, next)`, then `return head`
  | unclaim (head : X)  -- `Policy::GetClaimed(head).store(false)`; `head_` has changed
  | helpNext (head : X)  -- `next = Policy::GetNext(head).load()`; `head` was claimed already
  | helpCas (head next : X)  -- `head_.compare_exchange_weak(head, next)`
  | helpTail (head : X)  -- `tail = tail_.load()`, when `next` is null
  | helpNull (head : X)  -- `head_.compare_exchange_strong(head, nullptr)`, when `tail == head`
  | helpClear (head : X)  -- `tail_.compare_exchange_strong(head, nullptr)`
  deriving DecidableEq

/-- What an access of `PopFromHead` leads to: the next access, or the call's return value. -/
inductive PopResult (X : Type*)
  | running (pc : PopPc X)
  | returned (item : Option X)
  deriving DecidableEq

/-- One atomic access of `PopFromHead`; `spurious` is a spurious failure of `compare_exchange_weak`. -/
def popStep (m : Mem X) (spurious : Bool) : PopPc X → Mem X × PopResult X
  | .loadHead =>
    (m, match m.head with
      | none => .running .loadTail
      | some head => .running (.claim head))
  | .loadTail => (m, if m.tail = none then .returned none else .running .loadHead)
  | .claim head =>
    ({ m with claimed := Function.update m.claimed head true },
      .running (if m.claimed head then .helpNext head else .loadNext head))
  | .loadNext head =>
    (m, match m.next head with
      | none => .running (.casNull head)
      | some next => .running (.casNext head next))
  | .casNull head =>
    if m.head = some head then ({ m with head := none }, .running (.clearTail head))
    else (m, .running (.unclaim head))
  | .clearTail head => (if m.tail = some head then { m with tail := none } else m, .returned (some head))
  | .casNext head next =>
    if m.head = some head then ({ m with head := some next }, .returned (some head))
    else (m, .running (.unclaim head))
  | .unclaim head => ({ m with claimed := Function.update m.claimed head false }, .running .loadHead)
  | .helpNext head =>
    (m, match m.next head with
      | some next => .running (.helpCas head next)
      | none => .running (.helpTail head))
  | .helpCas head next =>
    (if m.head = some head ∧ spurious = false then { m with head := some next } else m, .running .loadHead)
  | .helpTail head => (m, if m.tail = some head then .running (.helpNull head) else .running .loadHead)
  | .helpNull head =>
    if m.head = some head then ({ m with head := none }, .running (.helpClear head))
    else (m, .running .loadHead)
  | .helpClear head => (if m.tail = some head then { m with tail := none } else m, .running .loadHead)

/-! ## Producers and consumers -/

/-- The queue, the calls in progress and the items returned so far. -/
structure State (X C : Type*) where
  mem : Mem X
  add : X → AddPc X
  pop : C → Option (PopPc X)
  returned : List X

/-- Who acts: a call starts, or a call in progress performs its next access. -/
inductive Label (X C : Type*)
  | addToTail (x : X)
  | addToHead (x : X)
  | producer (x : X)  -- the call that adds `x`
  | popFromHead (c : C)
  | consumer (c : C) (spurious : Bool)
  deriving DecidableEq

/-- Before any call. -/
def State.empty {X C : Type*} : State X C := ⟨.empty, fun _ => .idle, fun _ => none, []⟩

/-- The call that adds `x` performs its next access. -/
def State.producer (s : State X C) (x : X) : State X C :=
  { s with mem := (addStep s.mem x (s.add x)).1, add := Function.update s.add x (addStep s.mem x (s.add x)).2 }

/-- The consumer `c` goes on, or returns. -/
def State.popped (s : State X C) (c : C) : PopResult X → State X C
  | .running pc => { s with pop := Function.update s.pop c (some pc) }
  | .returned item => { s with pop := Function.update s.pop c none, returned := s.returned ++ item.toList }

/-- The consumer `c` performs the next access `pc` of its `PopFromHead`. -/
def State.consumer (s : State X C) (c : C) (spurious : Bool) (pc : PopPc X) : State X C :=
  { s with mem := (popStep s.mem spurious pc).1 }.popped c (popStep s.mem spurious pc).2

/-- One step; each item is added once. -/
def step (s : State X C) : Label X C → Option (State X C)
  | .addToTail x => if s.add x = .idle then some { s with add := Function.update s.add x .clearNext } else none
  | .addToHead x => if s.add x = .idle then some { s with add := Function.update s.add x .loadHead } else none
  | .producer x => if (s.add x).running then some (s.producer x) else none
  | .popFromHead c => if s.pop c = none then some { s with pop := Function.update s.pop c (some .loadHead) } else none
  | .consumer c spurious => (s.pop c).map (s.consumer c spurious)

/-- `AddToTail` and `AddToHead` by any number of producers, `PopFromHead` by any number of consumers. -/
def system (X C : Type*) [DecidableEq X] [DecidableEq C] : System (State X C) (Label X C) where
  init s := s = .empty
  step := step

/-! ## What a consumer does -/

section Consumer

variable {s : State X C} {c : C} {spurious : Bool} {pc pc' : PopPc X} {m : Mem X} {o : Option X}

theorem consumer_running (h : popStep s.mem spurious pc = (m, .running pc')) :
    s.consumer c spurious pc = { s with mem := m, pop := Function.update s.pop c (some pc') } := by
  rw [State.consumer, h]
  rfl

theorem consumer_returned (h : popStep s.mem spurious pc = (m, .returned o)) : s.consumer c spurious pc =
    { s with mem := m, pop := Function.update s.pop c none, returned := s.returned ++ o.toList } := by
  rw [State.consumer, h]
  rfl

end Consumer

end Cothread.Mpmc
