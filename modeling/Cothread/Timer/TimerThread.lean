import Cothread.Core.Basic
import Cothread.Lib.BinaryHeap
import Cothread.Lib.Run

/-!
# `TimerThread`

Any number of threads call `Schedule`, `Cancel` and `ProcessShard`, and run `TimerThreadMain`. There are `n` shards,
each with a mutex, a heap of entries and the cached deadline `next_deadline`. The entries come from `entry_pool_`,
which gives a free entry to `Acquire` and takes it back at `Release`. A critical section under a shard's mutex is one
step, except for `ProcessShard`, which takes the mutex, goes round its loop, and gives the mutex back for the time of
a callback. A step outside them is one access; `return entry->id` is one, since `Schedule` has given the mutex back by
then. Delays are not negative, and times do not overflow. `Stop` is not called.

The records `timer`, `returned`, `marked` and `started` say what has happened to the timer with an id.
-/

namespace Cothread.Timer

open Run

def INT64_MAX : Int := 9223372036854775807

/-- `TimerEntry`, without the link that the pool uses. -/
structure Entry (C : Type*) where
  callback : C  -- with `arg`
  deadline : Int  -- `deadline_us`
  id : Int
  cancelled : Bool

/-- `TimerShard`. -/
structure Shard (E : Type*) where
  locked : Bool  -- `mutex`
  heap : List E
  nextDeadline : Int

/-- The next step of a call of `ProcessShard`. -/
inductive ProcessPc (C : Type*)
  | clock  -- `GetTimeOfDayUs()`
  | lock (now : Int)
  | loop (now : Int)  -- once round the loop
  | call (now : Int) (id : Int) (callback : C)  -- `callback(arg)`, of the timer with this id
  deriving DecidableEq

/-- The next step of a thread. -/
inductive Pc (E C : Type*)
  -- `Schedule`, which gives its timer the id `id`
  | acquire (callback : C) (deadline : Int)  -- `entry_pool_.Acquire()`
  | fill (e : E) (callback : C) (deadline : Int)  -- the fields of the entry, and `next_id_.fetch_add(1)`
  | assign (e : E) (id : Int)  -- `shard_assign_.fetch_add(1)`
  | insert (e : E) (id : Int) (shard : Int)
  | ret (e : E) (id : Int)  -- `return entry->id`
  -- `Cancel`; `known` says whether a `Schedule` had returned the id when it began
  | scan (id : Int) (known : Bool) (shard : Int)
  | cancelled (id : Int) (known : Bool) (result : Bool)  -- `return result`
  -- `ProcessShard`, called by `TimerThreadMain` with its `now_us` and `min_deadline` (`outer`) or not
  | process (shard : Int) (outer : Option (Int × Int)) (pc : ProcessPc C)
  -- `TimerThreadMain`
  | mainClock  -- `GetTimeOfDayUs()`
  | mainLoad (shard : Int) (now minDeadline : Int)  -- `next_deadline.load()` before `ProcessShard`
  | mainReload (shard : Int) (now minDeadline : Int)  -- `next_deadline.load()` after it
  | mainSleep (now minDeadline : Int)
  | asleep (since til : Int)  -- in `FutexWait`
  deriving DecidableEq

structure State (P E C : Type*) where
  clock : Int
  entry : E → Entry C
  free : E → Bool  -- `entry_pool_`
  shard : Int → Shard E
  nextId : Int
  shardAssign : Int
  pc : P → Option (Pc E C)
  timer : Int → Option (C × Int)  -- the callback and the deadline of the timer with an id
  returned : Int → Bool  -- the ids that a `Schedule` has returned
  marked : Int → Bool  -- the ids that a `Cancel` has marked as cancelled
  started : Int → List (C × Int)  -- the callbacks that have started for an id, and when

/-- Time passes; a call starts; the pool gives an entry to a `Schedule`; a thread goes on; a `FutexWait` ends. -/
inductive Label (P E C : Type*)
  | tick (d : ℕ)
  | schedule (p : P) (callback : C) (sec nsec : ℕ)
  | cancel (p : P) (id : Int)
  | process (p : P) (shard : Int)
  | main (p : P)
  | acquire (p : P) (e : E)
  | thread (p : P)
  | wake (p : P)
  deriving DecidableEq

variable {P E C : Type*}

/-- No timer has been scheduled, and no call is in progress. -/
def State.start (clock : Int) (entry : E → Entry C) : State P E C where
  clock := clock
  entry := entry
  free _ := true
  shard _ := ⟨false, [], INT64_MAX⟩
  nextId := 0
  shardAssign := 0
  pc _ := none
  timer _ := none
  returned _ := false
  marked _ := false
  started _ := []

def State.deadline (s : State P E C) (e : E) : Int := (s.entry e).deadline

/-- The deadline of the first entry of a heap. -/
def State.front (s : State P E C) : List E → Int
  | [] => INT64_MAX
  | e :: _ => s.deadline e

def State.setShard (s : State P E C) (i : Int) (shard : Shard E) : State P E C :=
  { s with shard := Function.update s.shard i shard }

@[simp] theorem State.setShard_self (s : State P E C) (i : Int) (shard : Shard E) :
    (s.setShard i shard).shard i = shard :=
  Function.update_self ..

theorem State.setShard_of_ne (s : State P E C) {i j : Int} (shard : Shard E) (hj : j ≠ i) :
    (s.setShard i shard).shard j = s.shard j := Function.update_of_ne hj _ _

/-- The critical section of `Schedule`: `push_back` and `ShardSiftUp`, and `next_deadline`. -/
def State.insert (s : State P E C) (i : Int) (e : E) : State P E C :=
  s.setShard i { s.shard i with
    heap := BinaryHeap.push s.deadline (s.shard i).heap e
    nextDeadline := if s.deadline e < (s.shard i).nextDeadline then s.deadline e else (s.shard i).nextDeadline }

variable [DecidableEq P] [DecidableEq E]

def State.goto (s : State P E C) (p : P) (pc : Option (Pc E C)) : State P E C :=
  { s with pc := Function.update s.pc p pc }

/-- `entry_pool_.Release(entry)`. -/
def State.release (s : State P E C) (e : E) : State P E C := { s with free := Function.update s.free e true }

omit [DecidableEq E] in
@[simp] theorem State.pc_goto (s : State P E C) (p : P) (pc : Option (Pc E C)) :
    (s.goto p pc).pc = Function.update s.pc p pc := rfl

/-- A `Cancel` marks the entry. -/
def State.mark (s : State P E C) (e : E) : State P E C :=
  { s with
    entry := Function.update s.entry e { s.entry e with cancelled := true }
    marked := Function.update s.marked (s.entry e).id true }

/-- The end of a call of `ProcessShard`. -/
def State.processed (s : State P E C) (p : P) (i : Int) (outer : Option (Int × Int)) : State P E C :=
  s.goto p (outer.map fun o => .mainReload i o.1 o.2)

/-- Once round the loop of `ProcessShard`; `BinaryHeap.pop` is `ShardPopFromHeap`. -/
def State.processLoop (s : State P E C) (p : P) (i : Int) (outer : Option (Int × Int)) (now : Int) : State P E C :=
  match (s.shard i).heap with
  | [] => (s.setShard i { s.shard i with locked := false }).processed p i outer
  | e :: _ =>
    let heap := BinaryHeap.pop s.deadline (s.shard i).heap
    if s.deadline e ≤ now then
      if (s.entry e).cancelled then (s.setShard i { s.shard i with heap := heap }).release e
      else
        ((s.setShard i ⟨false, heap, s.front heap⟩).release e).goto p
          (some (.process i outer (.call now (s.entry e).id (s.entry e).callback)))
    else (s.setShard i { s.shard i with locked := false, nextDeadline := s.deadline e }).processed p i outer

def State.processStep (s : State P E C) (p : P) (i : Int) (outer : Option (Int × Int)) :
    ProcessPc C → Option (State P E C)
  | .clock => some (s.goto p (some (.process i outer (.lock s.clock))))
  | .lock now =>
    if (s.shard i).locked then none
    else some ((s.setShard i { s.shard i with locked := true }).goto p (some (.process i outer (.loop now))))
  | .loop now => some (s.processLoop p i outer now)
  | .call now id callback => some
      ({ s with started := Function.update s.started id ((callback, s.clock) :: s.started id) }.goto p
        (some (.process i outer (.lock now))))

/-- `sleep_us`. -/
def sleepUs (now minDeadline : Int) : Int :=
  if minDeadline - now ≤ 0 ∨ minDeadline = INT64_MAX then 100000 else minDeadline - now

/-- The next step of a thread; `none` when it cannot take one. -/
def State.access (s : State P E C) (n : ℕ) (p : P) : Pc E C → Option (State P E C)
  | .acquire _ _ | .asleep _ _ => none
  | .fill e callback deadline =>
    some ({ s with
      entry := Function.update s.entry e ⟨callback, deadline, s.nextId, false⟩
      nextId := wrap32 (s.nextId + 1)
      timer := Function.update s.timer s.nextId (some (callback, deadline)) }.goto p (some (.assign e s.nextId)))
  | .assign e id =>
    -- after an overflow of the counter there may be no such shard, and no defined step
    if 0 ≤ s.shardAssign.tmod n then
      some ({ s with shardAssign := wrap32 (s.shardAssign + 1) }.goto p
        (some (.insert e id (s.shardAssign.tmod n))))
    else none
  | .insert e id i => if (s.shard i).locked then none else some ((s.insert i e).goto p (some (.ret e id)))
  | .ret e _ => some ({ s with returned := Function.update s.returned (s.entry e).id true }.goto p none)
  | .scan id known i =>
    if i < n then
      if (s.shard i).locked then none
      else some (match (s.shard i).heap.find? fun e => (s.entry e).id = id with
        | some e => (s.mark e).goto p (some (.cancelled id known true))
        | none => s.goto p (some (.scan id known (i + 1))))
    else some (s.goto p (some (.cancelled id known false)))
  | .cancelled _ _ _ => some (s.goto p none)
  | .process i outer pc => s.processStep p i outer pc
  | .mainClock => some (s.goto p (some (.mainLoad 0 s.clock INT64_MAX)))
  | .mainLoad i now m => some
      (if i < n then
        let m' := if (s.shard i).nextDeadline < m then (s.shard i).nextDeadline else m
        if (s.shard i).nextDeadline ≤ now then s.goto p (some (.process i (some (now, m')) .clock))
        else s.goto p (some (.mainLoad (i + 1) now m'))
      else s.goto p (some (.mainSleep now m)))
  | .mainReload i now m => some (s.goto p (some (.mainLoad (i + 1) now
      (if (s.shard i).nextDeadline < m then (s.shard i).nextDeadline else m))))
  | .mainSleep now m => some (s.goto p (some (.asleep s.clock (s.clock + sleepUs now m))))

/-- One step. -/
def step (n : ℕ) (s : State P E C) : Label P E C → Option (State P E C)
  | .tick d => some { s with clock := s.clock + d }
  | .schedule p callback sec nsec =>
    if (s.pc p).isNone ∧ 0 < n then
      some (s.goto p (some (.acquire callback (s.clock + (sec * 1000000 + nsec / 1000 : ℕ)))))
    else none
  | .cancel p id => if (s.pc p).isNone then some (s.goto p (some (.scan id (s.returned id) 0))) else none
  | .process p i =>
    if (s.pc p).isNone ∧ 0 ≤ i ∧ i < n then some (s.goto p (some (.process i none .clock))) else none
  | .main p => if (s.pc p).isNone then some (s.goto p (some .mainClock)) else none
  | .acquire p e => match s.pc p with
    | some (.acquire callback deadline) =>
      if s.free e then
        some ({ s with free := Function.update s.free e false }.goto p (some (.fill e callback deadline)))
      else none
    | _ => none
  | .thread p => (s.pc p).bind (s.access n p)
  | .wake p => match s.pc p with
    | some (.asleep _ _) => some (s.goto p (some .mainClock))
    | _ => none

/-- `n` shards, and any number of threads, entries and timers. -/
def timers (n : ℕ) (P E C : Type*) [DecidableEq P] [DecidableEq E] : System (State P E C) (Label P E C) where
  init s := ∃ clock entry, s = .start clock entry
  step := step n

/-- Fewer than `2 ^ 31` timers have been scheduled: no counter has overflowed. -/
def State.Few (s : State P E C) : Prop := 0 ≤ s.nextId ∧ 0 ≤ s.shardAssign

instance : DecidablePred (State.Few : State P E C → Prop) := fun s =>
  inferInstanceAs (Decidable (0 ≤ s.nextId ∧ 0 ≤ s.shardAssign))

/-- `n` shards, any number of threads and entries, and fewer than `2 ^ 31` timers. -/
def system (n : ℕ) (P E C : Type*) [DecidableEq P] [DecidableEq E] : System (State P E C) (Label P E C) :=
  (timers n P E C).within State.Few

end Cothread.Timer
