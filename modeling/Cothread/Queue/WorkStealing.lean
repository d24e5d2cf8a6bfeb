import Cothread.Lib.Run
import Mathlib.Logic.Function.Basic
import Mathlib.Algebra.Group.Int.Defs
import Mathlib.Algebra.Group.Nat.Defs

/-!
# `WorkStealingQueue`: the atomic accesses of `Push`, `Pop` and `Steal`

`head_` and `tail_` are 64-bit words that pack a version and an index into the ring buffer. The owner pushes and pops
at the tail, thieves steal at the head. A call in progress is the atomic access it performs next, with its local
variables. `system` interleaves one owner with any number of thieves and records what was pushed and returned.
-/

namespace Cothread.WorkStealing

open Run

def CAPACITY : Nat := 1024

/-- The low 32 bits. -/
def extractIndex (v : Nat) : Nat := v % 2 ^ 32

/-- The high 32 bits. -/
def extractVersion (v : Nat) : Nat := v / 2 ^ 32 % 2 ^ 32

/-- A 64-bit word from a version and an index, both truncated to 32 bits. -/
def makeVal (ver idx : Nat) : Nat := ver % 2 ^ 32 * 2 ^ 32 + idx % 2 ^ 32

/-- `(idx + 1) % CAPACITY`. -/
def nextIndex (idx : Nat) : Nat := (idx + 1) % CAPACITY

/-- `(idx - 1 + CAPACITY) % CAPACITY`: the subtraction wraps at 32 bits, the addition is one of 64 bits. -/
def prevIndex (idx : Nat) : Nat := ((idx + 2 ^ 32 - 1) % 2 ^ 32 + CAPACITY) % CAPACITY

/-- `buffer_`, `head_` and `tail_`. -/
structure Queue (T : Type*) where
  buffer : Nat → Option T
  head : Nat
  tail : Nat

variable {T K : Type*}

/-- After the constructor. -/
def Queue.new : Queue T := ⟨fun _ => none, 0, 0⟩

/-- `Empty()`. -/
def Queue.empty (q : Queue T) : Bool := extractIndex q.head == extractIndex q.tail

/-! ## The owner -/

/-- The next atomic access of the owner. -/
inductive OwnerPc (T : Type*)
  | pushLoadTail (task : T)  -- `t = tail_.load()`
  | pushStore (task : T) (t : Nat)  -- `buffer_[idx].store(task)`
  | pushSetTail (task : T) (t : Nat)  -- `tail_.store(MakeVal(ExtractVersion(t) + 1, (idx + 1) % CAPACITY))`
  | popLoadHead  -- `h = head_.load()`
  | popLoadTail (h : Nat)  -- `t = tail_.load()`
  | popLoadSlot (h t : Nat)  -- `task = buffer_[idx].load()`
  | popClaim (h t : Nat) (task : Option T)  -- the exchange of `head_` when only one element is left
  | popMatchTail (t : Nat) (task : Option T)  -- `tail_.store(..)` after that exchange
  | popSetTail (t : Nat) (task : Option T)  -- `tail_.store(MakeVal(ExtractVersion(t) + 1, idx))`
  deriving DecidableEq

/-- What an access of a call leads to: the next access, or the return value. -/
inductive Result (Pc T : Type*)
  | running (pc : Pc)
  | returned (task : Option T)

/-- One atomic access of `Push` or `Pop`. -/
def ownerStep (q : Queue T) : OwnerPc T → Queue T × Result (OwnerPc T) T
  | .pushLoadTail task => (q, .running (.pushStore task q.tail))
  | .pushStore task t =>
    ({ q with buffer := Function.update q.buffer (extractIndex t) (some task) }, .running (.pushSetTail task t))
  | .pushSetTail _ t =>
    ({ q with tail := makeVal (extractVersion t + 1) (nextIndex (extractIndex t)) }, .returned none)
  | .popLoadHead => (q, .running (.popLoadTail q.head))
  | .popLoadTail h =>
    (q, if extractIndex h = extractIndex q.tail then .returned none else .running (.popLoadSlot h q.tail))
  | .popLoadSlot h t =>
    let idx := prevIndex (extractIndex t)
    let task := q.buffer idx
    (q, .running (if idx = extractIndex h then .popClaim h t task else .popSetTail t task))
  | .popClaim h t task =>
    let idx := prevIndex (extractIndex t)
    if q.head = h then
      ({ q with head := makeVal (extractVersion h + 1) (nextIndex idx) }, .running (.popMatchTail t task))
    else (q, .returned none)
  | .popMatchTail t task =>
    let idx := prevIndex (extractIndex t)
    ({ q with tail := makeVal (extractVersion t + 1) (nextIndex idx) }, .returned task)
  | .popSetTail t task =>
    let idx := prevIndex (extractIndex t)
    ({ q with tail := makeVal (extractVersion t + 1) idx }, .returned task)

/-! ## Thieves -/

def MAX_STEAL_ATTEMPTS : Nat := 3

/-- The next atomic access of a `Steal` in progress. -/
inductive ThiefPc (T : Type*)
  | loadHead (attempt : Nat)  -- `h = head_.load()`
  | loadTail (attempt h : Nat)  -- `t = tail_.load()`
  | loadSlot (attempt h : Nat)  -- `task = buffer_[idx].load()`
  | claim (attempt h : Nat) (task : Option T)  -- `head_.compare_exchange_weak(h, ..)`
  deriving DecidableEq

/-- One atomic access of `Steal`; with `spurious` the weak exchange fails whatever `head_` holds. -/
def thiefStep (spurious : Bool) (q : Queue T) : ThiefPc T → Queue T × Result (ThiefPc T) T
  | .loadHead attempt => (q, .running (.loadTail attempt q.head))
  | .loadTail attempt h =>
    (q, if extractIndex h = extractIndex q.tail then .returned none else .running (.loadSlot attempt h))
  | .loadSlot attempt h => (q, .running (.claim attempt h (q.buffer (extractIndex h))))
  | .claim attempt h task =>
    if q.head = h ∧ spurious = false then
      ({ q with head := makeVal (extractVersion h + 1) (nextIndex (extractIndex h)) }, .returned task)
    else if attempt + 1 < MAX_STEAL_ATTEMPTS then (q, .running (.loadHead (attempt + 1)))
    else (q, .returned none)

/-! ## One owner and any number of thieves -/

/-- The queue, the calls in progress and the history. -/
structure State (K T : Type*) where
  queue : Queue T
  owner : Option (OwnerPc T)
  thief : K → Option (ThiefPc T)
  pushed : List T  -- the tasks of all `Push` calls so far
  returned : List T  -- the tasks that `Pop` and `Steal` returned
  increments : Nat  -- how often a version was incremented

/-- Who acts: a call starts, or a call in progress performs its next access. -/
inductive Label (K T : Type*)
  | push (task : T)
  | pop
  | owner
  | steal (k : K)
  | thief (k : K) (spurious : Bool)
  deriving DecidableEq

def State.new : State K T := ⟨.new, none, fun _ => none, [], [], 0⟩

/-- The versions of `head_` and `tail_` that an access increments. -/
def bumps (q q' : Queue T) : Nat := if q'.head = q.head ∧ q'.tail = q.tail then 0 else 1

/-- The owner performs its next access. -/
def State.ownerStep (s : State K T) (pc : OwnerPc T) : State K T :=
  match WorkStealing.ownerStep s.queue pc with
  | (q, .running pc') => { s with queue := q, owner := some pc', increments := s.increments + bumps s.queue q }
  | (q, .returned task) =>
    { s with queue := q, owner := none, returned := s.returned ++ task.toList,
             increments := s.increments + bumps s.queue q }

variable [DecidableEq K]

/-- The thief `k` performs its next access. -/
def State.thiefStep (s : State K T) (k : K) (spurious : Bool) (pc : ThiefPc T) : State K T :=
  match WorkStealing.thiefStep spurious s.queue pc with
  | (q, .running pc') =>
    { s with queue := q, thief := Function.update s.thief k (some pc'), increments := s.increments + bumps s.queue q }
  | (q, .returned task) =>
    { s with queue := q, thief := Function.update s.thief k none, returned := s.returned ++ task.toList,
             increments := s.increments + bumps s.queue q }

/-- One step of the owner or of a thief. -/
def step (s : State K T) : Label K T → Option (State K T)
  | .push task =>
    if s.owner.isNone then some { s with owner := some (.pushLoadTail task), pushed := s.pushed ++ [task] } else none
  | .pop => if s.owner.isNone then some { s with owner := some .popLoadHead } else none
  | .owner => s.owner.map s.ownerStep
  | .steal k =>
    if (s.thief k).isNone then some { s with thief := Function.update s.thief k (some (.loadHead 0)) } else none
  | .thief k spurious => (s.thief k).map (s.thiefStep k spurious)

/-- The owner's `Push` and `Pop`, and `Steal` by any number of thieves. -/
def system (K T : Type*) [DecidableEq K] : System (State K T) (Label K T) where
  init s := s = .new
  step := step

end Cothread.WorkStealing
