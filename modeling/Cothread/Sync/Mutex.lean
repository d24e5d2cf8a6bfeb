import Cothread.Core.Basic
import Cothread.Queue.Waiter

/-!
# `Mutex`: the atomic accesses of `lock`, `try_lock`, `lock_async` and `unlock`

Any number of bthreads, coroutines and pthreads use one mutex. A party's call in progress is the atomic access that it
performs next (`Pc`). The waiter queue is a parameter (`WaiterQueue`). `Wait` and `Wake` of the butex are atomic, and a
bthread may also be resumed without a `Wake`. The native mutex is a mutex. The scheduler is running, so `Wait` is never
cancelled.
-/

namespace Cothread.Mutex

open Run

universe u

/-! ## The parties -/

inductive Kind
  | bthread
  | coroutine
  | pthread
  deriving DecidableEq

/-- `state_`, with its bits `LOCKED` and `HAS_WAITERS`. -/
structure Word where
  locked : Bool
  hasWaiters : Bool
  deriving DecidableEq

/-- Where a party is: the next access of its call, or what it is between calls. -/
inductive Pc {T : Type u} (Q : WaiterQueue T)
  | idle  -- no call, and the mutex not owned
  | holding  -- no call, and the mutex owned
  | nativeOnly  -- a pthread whose `try_lock` returned true
  -- `lock_bthread`
  | fastLoad  -- `state_.load() == 0`
  | fastCas  -- the exchange of `state_` from 0 to `LOCKED`
  | loadButex  -- `butex_.load()`
  | createButex  -- the exchange of `butex_` from null to a new butex
  | load (first : Bool)  -- `state_.load()`, with `first_wait`
  | casFree (first : Bool) (state : Word)  -- the exchange that sets `LOCKED`
  | casWaiters (first : Bool) (state : Word)  -- the exchange that sets `HAS_WAITERS`
  | recheck (first : Bool)  -- the second `state_.load()`
  | generation (first : Bool)  -- `butex->value()`
  | wait (first : Bool) (generation : Int)  -- `butex->Wait(generation, nullptr, !first_wait)`
  | asleep  -- in `Wait`
  -- `lock_pthread`
  | nativeLock  -- `pthread_mutex_lock`
  | fetchOr  -- `state_.fetch_or(LOCKED)`
  -- `try_lock`
  | tryCas (retry : Bool)  -- the exchange of `state_` from 0 to `LOCKED`; `retry` in the loop of `CondVar`'s awaiter
  | nativeTry  -- `pthread_mutex_trylock`
  -- `lock_async`
  | ready  -- the `try_lock` of `await_ready`
  | suspendTry  -- the first `try_lock` of `await_suspend`
  | setWaiters  -- `state_.fetch_or(HAS_WAITERS)`
  | retryTry  -- the second `try_lock` of `await_suspend`
  | clearWaiters  -- `state_.fetch_and(~HAS_WAITERS)`
  | enqueue (pc : Q.PushPc)  -- `enqueue_waiter(meta)`
  | suspended  -- in `waiter_queue_`
  | granted  -- taken out of `waiter_queue_` by an `unlock`, and not resumed yet
  -- `unlock`
  | dequeue (pc : Q.PopPc)  -- `dequeue_waiter()`
  | submit (waiter : T)  -- `Submit(waiter)`
  | loadPending  -- `pending_wake_.load() > 0`
  | clearOnly  -- `state_.fetch_and(~LOCKED)` with a wake pending
  | clear  -- `state_.fetch_and(~LOCKED)` of `unlock` and of `unlock_pthread`
  | addPending  -- `pending_wake_.fetch_add(1)`
  | getButex  -- `butex_.load()`
  | loadValue  -- `butex->value()`
  | storeValue (v : Int)  -- `butex->set_value(v + 1)`
  | wake  -- `butex->Wake(1)`
  | subPending  -- `pending_wake_.fetch_sub(1)`
  | nativeUnlock  -- `pthread_mutex_unlock`

/-- The mutex and the parties. -/
structure State {P : Type u} (Q : WaiterQueue P) where
  word : Word
  pendingWake : Int
  butex : Bool  -- `butex_` is not null
  value : Int  -- the value of the butex
  sleepers : List P  -- the wait queue of the butex
  queue : Q.Mem
  native : Option P  -- the owner of the native mutex
  pc : P → Pc Q

/-- Who acts: a call starts, a call in progress performs its next access, or a sleeping bthread is resumed. -/
inductive Label (P : Type u)
  | lock (p : P)
  | tryLock (p : P)
  | reacquire (p : P)  -- `await_resume` of `CondVar`'s awaiter
  | lockAsync (p : P)
  | unlock (p : P)
  | party (p : P)
  | resume (p : P)
  deriving DecidableEq

variable {P : Type u} {Q : WaiterQueue P}

/-- A new mutex. -/
def State.new (Q : WaiterQueue P) : State Q where
  word := ⟨false, false⟩
  pendingWake := 0
  butex := false
  value := 0
  sleepers := []
  queue := Q.empty
  native := none
  pc _ := .idle

variable [DecidableEq P]

def State.goto (s : State Q) (p : P) (pc : Pc Q) : State Q := { s with pc := Function.update s.pc p pc }

/-- The exchange of `state_` from `w` to `w'`, which leads to `won` or to `lost`. -/
def State.cas (s : State Q) (p : P) (w w' : Word) (won lost : Pc Q) : State Q :=
  if s.word = w then { s with word := w' }.goto p won else s.goto p lost

/-- The exchange of `state_` from 0 to `LOCKED`. -/
def State.tryLock (s : State Q) (p : P) (won lost : Pc Q) : State Q :=
  s.cas p ⟨false, false⟩ ⟨true, false⟩ won lost

/-- An access of `Pop` by `p`: a waiter that is taken out owns the mutex. -/
def State.dequeue (s : State Q) (p : P) (pc : Q.PopPc) : State Q :=
  match Q.popStep s.queue pc with
  | (m, .running pc') => { s with queue := m }.goto p (.dequeue pc')
  | (m, .returned none) => { s with queue := m }.goto p .loadPending
  | (m, .returned (some t)) => ({ s with queue := m }.goto t .granted).goto p (.submit t)

/-- A sleeping bthread goes on with the loop of `lock_bthread`. -/
def State.rouse (s : State Q) (p : P) : State Q := { s with sleepers := s.sleepers.erase p }.goto p (.load false)

/-- `Wake(1)`. -/
def State.wakeFirst (s : State Q) : State Q :=
  match s.sleepers with
  | [] => s
  | q :: _ => s.rouse q

/-- The next access of a party of kind `k`; `none` when it cannot act. -/
def State.access (s : State Q) (k : Kind) (p : P) : Pc Q → Option (State Q)
  | .idle | .holding | .nativeOnly | .asleep | .suspended | .granted => none
  | .fastLoad => some (s.goto p (if s.word = ⟨false, false⟩ then .fastCas else .loadButex))
  | .fastCas => some (s.tryLock p .holding .loadButex)
  | .loadButex => some (s.goto p (if s.butex then .load true else .createButex))
  | .createButex => some ({ s with butex := true }.goto p (.load true))
  | .load first =>
    some (s.goto p (if s.word.locked = false then .casFree first s.word
      else if s.word.hasWaiters = false then .casWaiters first s.word else .recheck first))
  | .casFree first w => some (s.cas p w { w with locked := true } .holding (.load first))
  | .casWaiters first w => some (s.cas p w { w with hasWaiters := true } (.recheck first) (.load first))
  | .recheck first => some (s.goto p (if s.word.locked = false then .casFree first s.word else .generation first))
  | .generation first => some (s.goto p (.wait first s.value))
  | .wait first g =>
    some (if s.value = g then
      { s with sleepers := if first then s.sleepers ++ [p] else p :: s.sleepers }.goto p .asleep
    else s.goto p (.load false))
  | .nativeLock => if s.native.isNone then some ({ s with native := some p }.goto p .fetchOr) else none
  | .fetchOr => some ({ s with word := { s.word with locked := true } }.goto p .holding)
  | .tryCas retry => some (s.tryLock p .holding (if retry then .tryCas true else .idle))
  | .nativeTry => some (if s.native.isNone then { s with native := some p }.goto p .nativeOnly else s.goto p .idle)
  | .ready => some (s.tryLock p .holding .suspendTry)
  | .suspendTry => some (s.tryLock p .holding .setWaiters)
  | .setWaiters => some ({ s with word := { s.word with hasWaiters := true } }.goto p .retryTry)
  | .retryTry => some (s.tryLock p .clearWaiters (.enqueue (Q.pushStart p)))
  | .clearWaiters => some ({ s with word := { s.word with hasWaiters := false } }.goto p .holding)
  | .enqueue pc =>
    some ({ s with queue := (Q.pushStep s.queue pc).1 }.goto p
      (match (Q.pushStep s.queue pc).2 with
        | some pc' => .enqueue pc'
        | none => .suspended))
  | .dequeue pc => some (s.dequeue p pc)
  | .submit t => some ((s.goto t .holding).goto p .idle)
  | .loadPending => some (s.goto p (if 0 < s.pendingWake then .clearOnly else .clear))
  | .clearOnly => some ({ s with word := { s.word with locked := false } }.goto p .idle)
  | .clear =>
    some ({ s with word := { s.word with locked := false } }.goto p
      (if s.word.hasWaiters then (if k = Kind.pthread then .getButex else .addPending)
      else (if k = Kind.pthread then .nativeUnlock else .idle)))
  | .addPending => some ({ s with pendingWake := (s.pendingWake + 1) % 2 ^ 32 }.goto p .getButex)
  | .getButex =>
    some (s.goto p (if s.butex then .loadValue else if k = Kind.pthread then .nativeUnlock else .subPending))
  | .loadValue => some (s.goto p (.storeValue s.value))
  | .storeValue v => some ({ s with value := wrap32 (v + 1) }.goto p .wake)
  | .wake => some (s.wakeFirst.goto p (if k = Kind.pthread then .nativeUnlock else .subPending))
  | .subPending => some ({ s with pendingWake := (s.pendingWake - 1) % 2 ^ 32 }.goto p .idle)
  | .nativeUnlock => some ({ s with native := none }.goto p .idle)

/-- The first access of `lock()`. -/
def lockStart (k : Kind) : Pc Q := if k = Kind.pthread then .nativeLock else .fastLoad

/-- The first access of `try_lock()`. -/
def tryStart (k : Kind) : Pc Q := if k = Kind.pthread then .nativeTry else .tryCas false

/-- The first access of `unlock()`. -/
def unlockStart (k : Kind) : Pc Q := if k = Kind.pthread then .clear else .dequeue Q.popStart

/-- One step: a party calls `unlock` only while it owns the mutex. -/
def step (kind : P → Kind) (s : State Q) : Label P → Option (State Q)
  | .lock p => if s.pc p matches .idle ∧ kind p ≠ .coroutine then some (s.goto p (lockStart (kind p))) else none
  | .tryLock p => if s.pc p matches .idle then some (s.goto p (tryStart (kind p))) else none
  | .reacquire p => if s.pc p matches .idle ∧ kind p = .coroutine then some (s.goto p (.tryCas true)) else none
  | .lockAsync p => if s.pc p matches .idle ∧ kind p = .coroutine then some (s.goto p .ready) else none
  | .unlock p => if s.pc p matches .holding | .nativeOnly then some (s.goto p (unlockStart (kind p))) else none
  | .party p => s.access (kind p) p (s.pc p)
  | .resume p => if s.pc p matches .asleep then some (s.rouse p) else none

/-- Any parties on one mutex. -/
def system (Q : WaiterQueue P) (kind : P → Kind) : System (State Q) (Label P) where
  init s := s = .new Q
  step := step kind

end Cothread.Mutex
