import Cothread.Core.Basic
import Cothread.Core.TaskGroup

/-!
# `bthread_t`: ids, generations and the recycling of `TaskMeta`

An id is a slot and a generation. `bthread_create` takes a `TaskMeta` from the cache of its worker or from the task
group, the end of the bthread and `bthread_join` or `bthread_detach` each drop a reference, and the last reference hands
the `TaskMeta` back to a cache or to the task group, one operation at a time. Only the task group advances the
generation, so a `TaskMeta` that is handed back to a cache keeps its id: the stale id still decodes and
`bthread_create` gives it out again.
-/

namespace Cothread.TaskId

open Run
open TaskGroup (poolSize)

/-- `TASK_CACHE_SIZE`. -/
def taskCacheSize : ℕ := 4

/-- The fields of a `TaskMeta` that decide what becomes of its slot. -/
structure TaskMeta where
  generation : ℕ
  state : TaskState
  refCount : Int
  stack : Bool  -- it has a stack
  deriving DecidableEq

structure State (W : Type*) where
  free : List ℕ  -- the free list, from its head
  generations : ℕ → ℕ
  pool : ℕ → Option TaskMeta  -- `task_pool_`
  cache : W → List ℕ  -- `task_cache_` of a worker, from its top
  ids : List ℕ  -- the ids that `bthread_create` has returned
  running : List ℕ  -- the ids of the bthreads that have not finished
  finished : List ℕ  -- the ids of those that have
  released : List ℕ  -- the ids that have been joined or detached
  reuses : ℕ → ℕ  -- how often the slot has been handed back to the task group

inductive Label (W : Type*)
  | create (w : Option W) (stackOk : Bool)  -- from a worker or from a pthread; a new stack can be allocated or not
  | finish (w : W) (id : ℕ)  -- the bthread ends on the worker
  | join (w : Option W) (tid : ℕ)
  | detach (tid : ℕ)
  | drain (w : W)  -- the worker ends
  deriving DecidableEq

/-- What `bthread_create` returns besides the id. -/
inductive Error
  | eagain
  | enomem
  deriving DecidableEq

/-- `TaskGroup::EncodeId`. -/
def encodeId (slot gen : ℕ) : ℕ := gen <<< 32 ||| slot

/-- The constructor of the task group; the caches are empty. -/
def State.start (W : Type*) : State W where
  free := List.range' 0 poolSize
  generations _ := 1
  pool _ := none
  cache _ := []
  ids := []
  running := []
  finished := []
  released := []
  reuses _ := 0

section Steps

variable {W : Type*}

/-- The `TaskMeta` of a slot that is in the pool. -/
def State.getMeta (s : State W) (slot : ℕ) : TaskMeta :=
  (s.pool slot).getD { generation := s.generations slot, state := .ready, refCount := 0, stack := false }

def State.setMeta (s : State W) (slot : ℕ) (m : TaskMeta) : State W :=
  { s with pool := Function.update s.pool slot (some m) }

/-- `TaskGroup::GetOrCreateTaskMeta`, and the end of `AllocTaskMeta`. -/
def State.getOrCreateTaskMeta (s : State W) (slot : ℕ) : State W :=
  s.setMeta slot { s.getMeta slot with generation := s.generations slot }

/-- `TaskGroup::AllocTaskMeta`. -/
def State.allocTaskMeta (s : State W) : State W × Option ℕ :=
  match s.free with
  | [] => (s, none)
  | slot :: free => ({ s with free := free }.getOrCreateTaskMeta slot, some slot)

/-- `TaskGroup::DeallocTaskMeta`. -/
def State.deallocTaskMeta (s : State W) (slot : ℕ) : State W :=
  let gen := (s.generations slot + 1) % 2 ^ 32
  { s.setMeta slot { s.getMeta slot with generation := gen, state := .ready, refCount := 0 } with
    generations := Function.update s.generations slot gen
    free := slot :: s.free
    reuses := Function.update s.reuses slot (s.reuses slot + 1) }

/-- `TaskGroup::DecodeId`: the slot of the `TaskMeta` that the id names. -/
def State.decodeId (s : State W) (tid : ℕ) : Option ℕ :=
  let slot := tid &&& 0xFFFFFFFF
  if slot < poolSize ∧ ∃ m ∈ s.pool slot, m.generation = tid >>> 32 then some slot else none

variable [DecidableEq W]

def State.setCache (s : State W) (w : W) (c : List ℕ) : State W := { s with cache := Function.update s.cache w c }

/-- `Worker::RefillTaskCache`. -/
def State.refillTaskCache (s : State W) (w : W) : State W :=
  let slots := s.free.take taskCacheSize
  (slots.foldl State.getOrCreateTaskMeta { s with free := s.free.drop taskCacheSize }).setCache w
    (slots.reverse ++ s.cache w)

/-- The top of the cache is taken. -/
def State.popCache (s : State W) (w : W) : State W × Option ℕ :=
  match s.cache w with
  | [] => (s, none)
  | slot :: c => (s.setCache w c, some slot)

/-- `Worker::AcquireTaskMeta`. -/
def State.acquireTaskMeta (s : State W) (w : W) : State W × Option ℕ :=
  match s.cache w with
  | [] => (s.refillTaskCache w).popCache w
  | _ :: _ => s.popCache w

/-- `Worker::ReleaseTaskMeta`, or `DeallocTaskMeta` in a pthread. -/
def State.releaseTaskMeta (s : State W) (w : Option W) (slot : ℕ) : State W :=
  match w with
  | some w => if (s.cache w).length < taskCacheSize then s.setCache w (slot :: s.cache w) else s.deallocTaskMeta slot
  | none => s.deallocTaskMeta slot

/-- `Worker::DrainTaskCache`. -/
def State.drainTaskCache (s : State W) (w : W) : State W :=
  ((s.cache w).reverse.foldl State.deallocTaskMeta s).setCache w []

/-- The beginning of `bthread_create`: the slot of a `TaskMeta`. -/
def State.acquire (s : State W) (w : Option W) : State W × Option ℕ :=
  match w with
  | some w =>
    match s.acquireTaskMeta w with
    | (s1, some slot) => (s1, some slot)
    | (s1, none) => s1.allocTaskMeta
  | none => s.allocTaskMeta

/-- The rest of `bthread_create`. -/
def State.setUp (s : State W) (slot : ℕ) (stackOk : Bool) : State W × Except Error ℕ :=
  if (s.getMeta slot).stack || stackOk then
    let id := encodeId slot (s.getMeta slot).generation
    ({ s.setMeta slot { s.getMeta slot with state := .ready, refCount := 2, stack := true } with
      ids := id :: s.ids, running := id :: s.running }, .ok id)
  else (s.deallocTaskMeta slot, .error .enomem)

/-- `bthread_create`. -/
def State.create (s : State W) (w : Option W) (stackOk : Bool) : State W × Except Error ℕ :=
  match s.acquire w with
  | (s1, some slot) => s1.setUp slot stackOk
  | (s1, none) => (s1, .error .eagain)

/-- `TaskMeta::Release`, and the hand-back of the last reference. -/
def State.release (s : State W) (w : Option W) (slot : ℕ) : State W :=
  let m := s.getMeta slot
  let r := s.setMeta slot { m with refCount := m.refCount - 1 }
  if m.refCount = 1 then r.releaseTaskMeta w slot else r

/-- A caller joins or detaches the bthread that it got the id for. -/
def State.record (s : State W) (tid : ℕ) : State W :=
  { s with released := if tid ∈ s.ids then tid :: s.released else s.released }

/-- The slot that an id names. -/
def slotOf (id : ℕ) : ℕ := id &&& 0xFFFFFFFF

/-- The bthread stores `FINISHED`, and `HandleFinishedBthread` releases it. -/
def State.finish (s : State W) (w : W) (id : ℕ) : State W :=
  let r := s.setMeta (slotOf id) { s.getMeta (slotOf id) with state := .finished }
  { r.release (some w) (slotOf id) with running := s.running.erase id, finished := id :: s.finished }

/-- One step; `bthread_join` waits for a bthread that has not finished. -/
def step (s : State W) : Label W → Option (State W)
  | .create w stackOk => some (s.create w stackOk).1
  | .finish w id => if id ∈ s.running then some (s.finish w id) else none
  | .join w tid =>
    match s.decodeId tid with
    | some slot =>
      if (s.getMeta slot).state = .finished then some ((s.release w slot).record tid) else none
    | none => some s
  | .detach tid =>
    match s.decodeId tid with
    | some slot => some ((s.release none slot).record tid)
    | none => some s
  | .drain w => some (s.drainTaskCache w)

end Steps

/-- Any workers. -/
def system (W : Type*) [DecidableEq W] : System (State W) (Label W) where
  init s := s = .start W
  step := step

variable {W : Type*}

/-- The last reference is released on a worker whose cache has room. -/
def ToCache (s : State W) : Label W → Prop
  | .finish w id => (s.getMeta (slotOf id)).refCount = 1 ∧ (s.cache w).length < taskCacheSize
  | .join (some w) tid => ∃ slot ∈ s.decodeId tid, (s.getMeta slot).state = .finished ∧
      (s.getMeta slot).refCount = 1 ∧ (s.cache w).length < taskCacheSize
  | _ => False

instance (s : State W) : ∀ l, Decidable (ToCache s l)
  | .finish _ _ => inferInstanceAs (Decidable (_ ∧ _))
  | .join (some _) tid => inferInstanceAs (Decidable (∃ slot ∈ s.decodeId tid, _))
  | .join none _ | .create _ _ | .detach _ | .drain _ => .isFalse not_false

/-- **An id names one bthread**: no two calls of `bthread_create` have returned the same id, and the id of a bthread
that has finished and been joined or detached does not decode. -/
structure Unique (s : State W) : Prop where
  nodup : s.ids.Nodup
  stale : ∀ id ∈ s.finished, id ∈ s.released → s.decodeId id = none

end Cothread.TaskId
