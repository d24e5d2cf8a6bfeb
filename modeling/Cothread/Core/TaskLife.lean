import Cothread.Core.TaskId
import Cothread.Sync.ButexTimed

/-!
# `TaskMeta`: from its creation until it is handed back, with its stack

`bthread_create` and `spawn` take a `TaskMeta` and set it up, its bthread runs, waits and finishes, and the end of the
bthread and one `bthread_join`, `bthread_detach`, `Task::join` or `Task::detach` each release a reference. Each access
of a join is a step of its own; a `Wait` up to its suspension, a `Wake` and a timer that fires are one step, as in
`TimedWait`. When the wait of a join ends is left open. `~Worker` drains its stack pool and its cache, and `~TaskGroup`
frees the stacks that are left. Nothing calls `Worker::ReleaseStack`.
-/

namespace Cothread.TaskLife

open Run
open TaskGroup (poolSize)
open TaskId (taskCacheSize)

/-- `BTHREAD_STACK_SIZE_DEFAULT`, and `DEFAULT_STACK_SIZE` of `spawn`. -/
def stackSizeDefault : ℕ := 1024 * 1024

/-- `Worker::DEFAULT_STACK_SIZE`. -/
def pooledStackSize : ℕ := 8192

/-- A stack from `AllocateStack`, with the `requested_size` in its header. -/
structure Stack where
  number : ℕ
  requestedSize : ℕ
  deriving DecidableEq

/-- The fields that creating, waiting, joining and recycling use. Pointers are numbers. -/
structure TaskMeta where
  generation : ℕ
  waiter : TimedWait.State ℕ  -- `state`, `is_waiting`, `waiting_butex`, `waiter`, and the timers armed for the task
  refCount : Int
  joinWaiters : Int
  joinButex : Option ℕ
  fn : Option ℕ
  arg : Option ℕ
  result : Option ℕ
  stack : Option Stack
  stackSize : ℕ

/-- `new TaskMeta()`. -/
def TaskMeta.new (generation : ℕ) : TaskMeta where
  generation := generation
  waiter := { TimedWait.State.start ℕ with taskState := .ready }
  refCount := 0
  joinWaiters := 0
  joinButex := none
  fn := none
  arg := none
  result := none
  stack := none
  stackSize := 0

/-- What a task started on: the stack size that was asked for, `stack` and `stack_size`. -/
structure Begun where
  requested : ℕ
  stack : Option Stack
  stackSize : ℕ
  deriving DecidableEq

inductive JoinKind
  | bthreadJoin
  | taskJoin
  deriving DecidableEq

/-- The next access of a join. -/
inductive JoinPc
  | checkButex  -- `bthread_join`: `task->join_butex == nullptr`
  | createButex  -- the exchange of `join_butex` against a new butex
  | testState  -- `state.load() == FINISHED`
  | register  -- `join_waiters.fetch_add(1)`
  | leave  -- `join_waiters.fetch_sub(1)`, after the wait
  | release  -- `Release()`, and the hand-back
  deriving DecidableEq

structure Call where
  kind : JoinKind
  slot : ℕ
  pc : JoinPc
  deriving DecidableEq

structure State (W : Type*) where
  free : List ℕ  -- the free list, from its head
  generations : ℕ → ℕ
  pool : ℕ → Option TaskMeta  -- `task_pool_`
  taskCache : W → List ℕ  -- `task_cache_` of a worker, from its top
  stackPool : W → List Stack  -- `stack_pool_` of a worker, from its top
  stackCount : ℕ  -- how many stacks have been allocated
  freed : List (Stack × ℕ)  -- the calls of `DeallocateStack`
  butexCount : ℕ  -- how many join butexes have been made
  deleted : List ℕ
  alive : List ℕ  -- the slots of the tasks that have not finished
  ended : List ℕ  -- of those that have, and that `HandleFinishedBthread` has not handled yet
  joinable : List ℕ  -- of the bthreads whose id has not been joined or detached
  handles : List ℕ  -- of the tasks whose `Task` has not been joined or detached
  calls : List Call  -- the joins in progress
  begun : List Begun  -- the tasks that have been created
  refused : ℕ  -- how often `spawn` has thrown

inductive Label (W : Type*)
  | create (w : Option W) (attr fn arg : Option ℕ) (ok : Bool)  -- `ok`: `AllocateStack` succeeds, if it is called
  | spawn (fn arg : ℕ) (ok : Bool)  -- the function that unpacks the wrapper, and the wrapper
  | run (slot : ℕ)  -- a worker has picked the task
  | wait (slot b : ℕ) (timeout : Option Int) (change : Option TimedWait.Change)
  | wake (slot b : ℕ)
  | fire (slot : ℕ) (e : TimedWait.Timer)
  | finish (slot : ℕ) (result : Option ℕ)
  | handle (w : W) (slot : ℕ)
  | join (self : Option ℕ) (tid : ℕ)  -- `self`: the slot of the calling bthread
  | taskJoin (slot : ℕ)
  | joiner (w : Option W) (c : Call)
  | detach (tid : ℕ)
  | taskDetach (slot : ℕ)
  | drain (w : W)  -- `~Worker`

inductive Error
  | einval
  | eagain
  | enomem
  deriving DecidableEq

/-- The constructor of the task group; the caches and pools of the workers are empty. -/
def State.start (W : Type*) : State W where
  free := List.range' 0 poolSize
  generations _ := 1
  pool _ := none
  taskCache _ := []
  stackPool _ := []
  stackCount := 0
  freed := []
  butexCount := 0
  deleted := []
  alive := []
  ended := []
  joinable := []
  handles := []
  calls := []
  begun := []
  refused := 0

section Steps

variable {W : Type*}

/-! ## The task group -/

/-- The `TaskMeta` of a slot. -/
def State.getMeta (s : State W) (slot : ℕ) : TaskMeta := (s.pool slot).getD (.new (s.generations slot))

def State.setMeta (s : State W) (slot : ℕ) (m : TaskMeta) : State W :=
  { s with pool := Function.update s.pool slot (some m) }

/-- `TaskGroup::GetOrCreateTaskMeta`, and the end of `AllocTaskMeta`. -/
def State.getOrCreateTaskMeta (s : State W) (slot : ℕ) : State W :=
  s.setMeta slot { s.getMeta slot with generation := s.generations slot }

/-- `TaskGroup::AllocTaskMeta`. -/
def State.allocTaskMeta (s : State W) : State W × Option ℕ :=
  match s.free with
  | [] => (s, none)
  | slot :: free => ({ s with free := free }.getOrCreateTaskMeta slot, some slot)

/-- The fields that `DeallocTaskMeta` resets: not `is_waiting`, and not the stack. -/
def TaskMeta.reset (m : TaskMeta) (newGen : ℕ) : TaskMeta :=
  { m with
    joinButex := none, generation := newGen, refCount := 0, fn := none, arg := none, result := none, joinWaiters := 0
    waiter := { m.waiter with
      taskState := .ready, waitingButex := none, wakeup := false, timedOut := false, timerId := 0 } }

/-- `TaskGroup::DeallocTaskMeta`. -/
def State.deallocTaskMeta (s : State W) (slot : ℕ) : State W :=
  let m := s.getMeta slot
  let newGen := (s.generations slot + 1) % 2 ^ 32
  { s.setMeta slot (m.reset newGen) with
    deleted := m.joinButex.toList ++ s.deleted
    generations := Function.update s.generations slot newGen
    free := slot :: s.free }

/-- `TaskGroup::DecodeId`: the slot of the `TaskMeta` that the id names. -/
def State.decodeId (s : State W) (tid : ℕ) : Option ℕ :=
  let slot := tid &&& 0xFFFFFFFF
  if slot < poolSize ∧ ∃ m ∈ s.pool slot, m.generation = tid >>> 32 then some slot else none

/-- `~TaskGroup`: what it passes to `DeallocateStack`. -/
def State.destroy (s : State W) : List (Stack × ℕ) :=
  (List.range poolSize).filterMap fun slot => (s.pool slot).bind fun m => m.stack.map fun st => (st, m.stackSize)

/-- `platform::AllocateStack`. -/
def State.allocateStack (s : State W) (size : ℕ) (ok : Bool) : State W × Option Stack :=
  if ok then ({ s with stackCount := s.stackCount + 1 }, some ⟨s.stackCount, size⟩) else (s, none)

/-- `TaskMeta::Release`, and what is done with the last reference. -/
def State.release (s : State W) (slot : ℕ) (back : State W → ℕ → State W) : State W :=
  let m := s.getMeta slot
  let t := s.setMeta slot { m with refCount := m.refCount - 1 }
  if m.refCount = 1 then back t slot else t

variable [DecidableEq W]

/-! ## The caches of a worker -/

def State.setCache (s : State W) (w : W) (c : List ℕ) : State W :=
  { s with taskCache := Function.update s.taskCache w c }

/-- `Worker::RefillTaskCache`, when the cache is empty. -/
def State.refillTaskCache (s : State W) (w : W) : State W :=
  let slots := s.free.take taskCacheSize
  (slots.foldl State.getOrCreateTaskMeta { s with free := s.free.drop taskCacheSize }).setCache w
    (slots.reverse ++ s.taskCache w)

/-- The top of the cache is taken. -/
def State.popCache (s : State W) (w : W) : State W × Option ℕ :=
  match s.taskCache w with
  | [] => (s, none)
  | slot :: c => (s.setCache w c, some slot)

/-- `Worker::AcquireTaskMeta`. -/
def State.acquireTaskMeta (s : State W) (w : W) : State W × Option ℕ :=
  match s.taskCache w with
  | [] => (s.refillTaskCache w).popCache w
  | _ :: _ => s.popCache w

/-- `Worker::ReleaseTaskMeta`, or `DeallocTaskMeta` in a pthread. -/
def State.releaseTaskMeta (w : Option W) (s : State W) (slot : ℕ) : State W :=
  match w with
  | some w =>
    if (s.taskCache w).length < taskCacheSize then s.setCache w (slot :: s.taskCache w) else s.deallocTaskMeta slot
  | none => s.deallocTaskMeta slot

/-- `Worker::DrainTaskCache`. -/
def State.drainTaskCache (s : State W) (w : W) : State W :=
  ((s.taskCache w).reverse.foldl State.deallocTaskMeta s).setCache w []

/-- `Worker::AcquireStack`, or `AllocateStack` in a pthread. -/
def State.acquireStack (s : State W) (w : Option W) (size : ℕ) (ok : Bool) : State W × Option Stack :=
  match w with
  | some w =>
    match s.stackPool w with
    | st :: rest =>
      if size ≤ pooledStackSize then ({ s with stackPool := Function.update s.stackPool w rest }, some st)
      else s.allocateStack size ok
    | [] => s.allocateStack size ok
  | none => s.allocateStack size ok

/-- `Worker::DrainStackPool`. -/
def State.drainStackPool (s : State W) (w : W) : State W :=
  { s with
    freed := (s.stackPool w).map (fun st => (st, pooledStackSize)) ++ s.freed
    stackPool := Function.update s.stackPool w [] }

/-! ## The creation of a task -/

/-- The beginning of `bthread_create`: the slot of a `TaskMeta`. -/
def State.acquire (s : State W) (w : Option W) : State W × Option ℕ :=
  match w with
  | some w =>
    match s.acquireTaskMeta w with
    | (t, some slot) => (t, some slot)
    | (t, none) => t.allocTaskMeta
  | none => s.allocTaskMeta

/-- The end of `bthread_create`: the fields are set, and the task is enqueued. -/
def State.begin (s : State W) (slot size fn : ℕ) (arg : Option ℕ) : State W :=
  let m := { s.getMeta slot with
    fn := some fn, arg := arg, result := none, refCount := 2, joinWaiters := 0, joinButex := none
    waiter := { (s.getMeta slot).waiter with taskState := .ready } }
  { s.setMeta slot m with
    alive := slot :: s.alive
    joinable := slot :: s.joinable
    begun := ⟨size, m.stack, m.stackSize⟩ :: s.begun }

/-- The part of `bthread_create` that sets up the stack, and what follows it. -/
def State.setUp (s : State W) (w : Option W) (slot size fn : ℕ) (arg : Option ℕ) (ok : Bool) :
    State W × Except Error ℕ :=
  let m := s.getMeta slot
  if m.stack.isSome then (s.begin slot size fn arg, .ok slot)
  else
    match s.acquireStack w size ok with
    | (t, some st) => ((t.setMeta slot { m with stack := some st, stackSize := size }).begin slot size fn arg, .ok slot)
    | (t, none) => (t.deallocTaskMeta slot, .error .enomem)

/-- `bthread_create`: the slot of the task that it enqueues. -/
def State.create (s : State W) (w : Option W) (attr fn arg : Option ℕ) (ok : Bool) : State W × Except Error ℕ :=
  match fn with
  | none => (s, .error .einval)
  | some fn =>
    match s.acquire w with
    | (t, some slot) => t.setUp w slot (attr.getD stackSizeDefault) fn arg ok
    | (t, none) => (t, .error .eagain)

omit [DecidableEq W] in
/-- `spawn`, from `AllocTaskMeta` on; it throws when that returns null. -/
def State.spawn (s : State W) (fn arg : ℕ) (ok : Bool) : State W :=
  match s.allocTaskMeta with
  | (t, none) => { t with refused := t.refused + 1 }
  | (t, some slot) =>
    let m := { t.getMeta slot with
      fn := some fn, arg := some arg, waiter := { (t.getMeta slot).waiter with taskState := .ready } }
    let (t, m) :=
      if m.stack.isSome then (t, m)
      else
        let (t, stack) := t.allocateStack stackSizeDefault ok
        (t, { m with stack := stack, stackSize := stackSizeDefault })
    { t.setMeta slot m with
      alive := slot :: t.alive
      handles := slot :: t.handles
      begun := ⟨stackSizeDefault, m.stack, m.stackSize⟩ :: t.begun }

/-! ## Running, waiting, finishing and joining -/

/-- The worker starts the task, or resumes it in its `Wait`. -/
def TaskMeta.run (m : TaskMeta) : TaskMeta :=
  { m with waiter := if m.waiter.suspension.isSome then m.waiter.resume else { m.waiter with taskState := .running } }

/-- One access of a join, on a worker or in a pthread. -/
def State.access (s : State W) (w : Option W) (c : Call) : State W :=
  let m := s.getMeta c.slot
  let goto (t : State W) (pc : JoinPc) : State W := { t with calls := { c with pc := pc } :: t.calls.erase c }
  match c.pc with
  | .checkButex => goto s (if m.joinButex.isNone then .createButex else .testState)
  | .createButex =>
    if m.joinButex.isNone then
      goto { s.setMeta c.slot { m with joinButex := some s.butexCount } with butexCount := s.butexCount + 1 } .testState
    -- another joiner has created it
    else goto { s with butexCount := s.butexCount + 1, deleted := s.butexCount :: s.deleted } .testState
  | .testState => goto s (if m.waiter.taskState = .finished then .release else .register)
  | .register => goto (s.setMeta c.slot { m with joinWaiters := m.joinWaiters + 1 }) .leave
  | .leave => goto (s.setMeta c.slot { m with joinWaiters := m.joinWaiters - 1 }) .release
  | .release =>
    { s with calls := s.calls.erase c }.release c.slot
      (match c.kind with
        | .bthreadJoin => State.releaseTaskMeta w
        | .taskJoin => State.deallocTaskMeta)

/-- One step. -/
def step (s : State W) : Label W → Option (State W)
  | .create w attr fn arg ok => some (s.create w attr fn arg ok).1
  | .spawn fn arg ok => some (s.spawn fn arg ok)
  | .run slot =>
    if slot ∈ s.alive ∧ (s.getMeta slot).waiter.taskState = .ready then
      some (s.setMeta slot (s.getMeta slot).run)
    else none
  | .wait slot b timeout change =>
    let m := s.getMeta slot
    if slot ∈ s.alive ∧ m.waiter.taskState = .running ∧ ∀ id ∈ timeout, ∀ e ∈ m.waiter.timers, e.id ≠ id then
      some (s.setMeta slot { m with waiter := { m.waiter with waits := m.waiter.waits + 1 }.wait b timeout change })
    else none
  | .wake slot b =>
    let m := s.getMeta slot
    if m.waiter.queued = some b then some (s.setMeta slot { m with waiter := m.waiter.wake }) else none
  | .fire slot e =>
    let m := s.getMeta slot
    if e ∈ m.waiter.timers ∧ e.cancelled = false then some (s.setMeta slot { m with waiter := m.waiter.fire e })
    else none
  | .finish slot result =>
    let m := s.getMeta slot
    if slot ∈ s.alive ∧ m.waiter.taskState = .running then
      some { s.setMeta slot { m with result := result, waiter := { m.waiter with taskState := .finished } } with
        alive := s.alive.erase slot
        ended := slot :: s.ended }
    else none
  | .handle w slot =>
    -- the joiners have been woken
    if slot ∈ s.ended then
      some ({ s with ended := s.ended.erase slot }.release slot (State.releaseTaskMeta (some w)))
    else none
  | .join self tid =>
    match s.decodeId tid with
    | none => some s  -- `ESRCH`
    | some slot =>
      if self = some slot then some s  -- `EDEADLK`
      else some { s with joinable := s.joinable.erase slot, calls := ⟨.bthreadJoin, slot, .checkButex⟩ :: s.calls }
  | .taskJoin slot =>
    if slot ∈ s.handles then
      some { s with handles := s.handles.erase slot, calls := ⟨.taskJoin, slot, .testState⟩ :: s.calls }
    else none
  | .joiner w c => if c ∈ s.calls then some (s.access w c) else none
  | .detach tid =>
    match s.decodeId tid with
    | none => some s  -- `ESRCH`
    | some slot => some ({ s with joinable := s.joinable.erase slot }.release slot State.deallocTaskMeta)
  | .taskDetach slot =>
    if slot ∈ s.handles then
      some ({ s with handles := s.handles.erase slot }.release slot State.deallocTaskMeta)
    else none
  | .drain w => some ((s.drainStackPool w).drainTaskCache w)

/-! ## The metas after an update -/

section Metas

omit [DecidableEq W]

variable (s : State W) {slot a : ℕ} (m : TaskMeta)

@[simp] theorem getMeta_setMeta_self : (s.setMeta slot m).getMeta slot = m := by
  simp only [State.getMeta, State.setMeta, Function.update_self, Option.getD_some]

theorem getMeta_setMeta_of_ne (h : a ≠ slot) : (s.setMeta slot m).getMeta a = s.getMeta a := by
  simp only [State.getMeta, State.setMeta, Function.update_of_ne h]

variable {s m}

/-- What holds of the new fields of one `TaskMeta` and of all others. -/
theorem forall_getMeta {P : ℕ → TaskMeta → Prop} (hslot : P slot m)
    (hother : ∀ a, a ≠ slot → P a (s.getMeta a)) (a : ℕ) : P a ((s.setMeta slot m).getMeta a) := by
  by_cases ha : a = slot
  · rw [ha, getMeta_setMeta_self]
    exact hslot
  · rw [getMeta_setMeta_of_ne s m ha]
    exact hother a ha

theorem getMeta_of_some {m : TaskMeta} (h : s.pool slot = some m) : s.getMeta slot = m := by
  rw [State.getMeta, h, Option.getD_some]

theorem getMeta_dealloc_self :
    (s.deallocTaskMeta slot).getMeta slot = (s.getMeta slot).reset ((s.generations slot + 1) % 2 ^ 32) := by
  simp only [State.getMeta, State.deallocTaskMeta, State.setMeta, Function.update_self, Option.getD_some]

theorem getMeta_dealloc_of_ne (h : a ≠ slot) : (s.deallocTaskMeta slot).getMeta a = s.getMeta a := by
  simp only [State.getMeta, State.deallocTaskMeta, State.setMeta, Function.update_of_ne h]

theorem allocTaskMeta_nil (h : s.free = []) : s.allocTaskMeta = (s, none) := by
  rw [State.allocTaskMeta, h]

theorem allocTaskMeta_cons {free : List ℕ} (h : s.free = slot :: free) :
    s.allocTaskMeta = ({ s with free := free }.getOrCreateTaskMeta slot, some slot) := by
  rw [State.allocTaskMeta, h]

theorem release_of_ne (back : State W → ℕ → State W) (h : (s.getMeta slot).refCount ≠ 1) :
    s.release slot back = s.setMeta slot { s.getMeta slot with refCount := (s.getMeta slot).refCount - 1 } := by
  rw [State.release, if_neg h]

/-- The stack with which a `TaskMeta` leaves `spawn`: its own, or a new one, or none. -/
inductive SpawnStack (s : State W) (m : TaskMeta) : Bool → ℕ → Option Stack → ℕ → Prop
  | own {ok : Bool} {st : Stack} (h : m.stack = some st) : SpawnStack s m ok s.stackCount (some st) m.stackSize
  | new (h : m.stack = none) :
    SpawnStack s m true (s.stackCount + 1) (some ⟨s.stackCount, stackSizeDefault⟩) stackSizeDefault
  | failed (h : m.stack = none) : SpawnStack s m false s.stackCount none stackSizeDefault

/-- What `spawn` does when there is a free slot. -/
theorem spawn_cons {free : List ℕ} (h : s.free = slot :: free) (fn arg : ℕ) (ok : Bool) :
    ∃ n stack size, SpawnStack s (s.getMeta slot) ok n stack size ∧
      s.spawn fn arg ok = { { s with free := free, stackCount := n }.setMeta slot { s.getMeta slot with
          generation := s.generations slot, fn := some fn, arg := some arg, stack := stack, stackSize := size
          waiter := { (s.getMeta slot).waiter with taskState := .ready } } with
        alive := slot :: s.alive
        handles := slot :: s.handles
        begun := ⟨stackSizeDefault, stack, size⟩ :: s.begun } := by
  rw [State.spawn, allocTaskMeta_cons h]
  cases hst : (s.getMeta slot).stack with
  | some st =>
    refine ⟨_, _, _, .own hst, ?_⟩
    have hmeta : State.getMeta { s with free := free } slot = s.getMeta slot := rfl
    simp only [State.getOrCreateTaskMeta, getMeta_setMeta_self, hmeta, hst, Option.isSome_some, if_true]
    simp only [State.setMeta, Function.update_idem]
  | none =>
    have hmeta : State.getMeta { s with free := free } slot = s.getMeta slot := rfl
    cases ok with
    | true =>
      refine ⟨_, _, _, .new hst, ?_⟩
      simp only [State.getOrCreateTaskMeta, getMeta_setMeta_self, hmeta, hst, Option.isSome_none, Bool.false_eq_true,
        if_false, if_true, State.allocateStack]
      simp only [State.setMeta, Function.update_idem]
    | false =>
      refine ⟨_, _, _, .failed hst, ?_⟩
      simp only [State.getOrCreateTaskMeta, getMeta_setMeta_self, hmeta, hst, Option.isSome_none, Bool.false_eq_true,
        if_false, State.allocateStack]
      simp only [State.setMeta, Function.update_idem]

end Metas

end Steps

/-- Any workers. -/
def system (W : Type*) [DecidableEq W] : System (State W) (Label W) where
  init s := s = .start W
  step := step

end Cothread.TaskLife
