import Cothread.Core.TaskIdUnique

/-!
# `TaskGroup`: slots, `TaskMeta`s and generations, one operation at a time

A slot is free, reserved (`AllocMultipleSlots` has returned it, `GetOrCreateTaskMeta` has yet to be called) or has an
allocated `TaskMeta`. `Group` is the memory of the task group with its operations, `system` runs them one at a time in
any order and keeps the allocated tasks with their ids, the ids of tasks that have been handed back, and how often each
slot has been. `Inv` says that the free list is a finite chain of the slots that are not given out, that `task_pool_`,
`slot_index` and the two copies of the generation agree, and that a generation counts the deallocations of its slot; so
ids decode exactly while their task is allocated (`bookkeeping`).
-/

namespace Cothread.TaskPool

open Run Chain
open TaskGroup (poolSize)
open TaskId (encodeId encodeId_eq encodeId_inj)

/-! ## The task group -/

/-- A `TaskMeta`: what `DeallocTaskMeta` resets, and the stack, which it keeps. Pointers are numbers. -/
structure TaskMeta where
  slotIndex : ℕ := 0
  generation : ℕ := 0
  stack : Option ℕ := none
  joinButex : Option ℕ := none
  state : TaskState := .ready
  refCount : ℤ := 0
  fn : Option ℕ := none
  arg : Option ℕ := none
  result : Option ℕ := none
  joinWaiters : ℤ := 0
  waitingButex : Option ℕ := none
  waiterNext : Option ℕ := none  -- `waiter.next`, and so on
  waiterWakeup : Bool := false
  waiterTimedOut : Bool := false
  waiterDeadlineUs : ℤ := 0
  waiterTimerId : ℤ := 0
  localWorker : Option ℕ := none
  next : Option ℕ := none
  deriving DecidableEq

structure Group where
  freeHead : Option ℕ  -- `free_head_`; −1 is `none`
  freeSlots : ℕ → Option ℕ  -- `free_slots_`
  generations : ℕ → ℕ
  taskPool : ℕ → Option ℕ  -- `task_pool_`, addresses
  metas : ℕ → TaskMeta  -- the `TaskMeta` at an address
  made : ℕ  -- how many have been made, at the addresses below

/-- The constructor. -/
def Group.new : Group where
  freeHead := some 0
  freeSlots i := if i + 1 = poolSize then none else some (i + 1)
  generations _ := 1
  taskPool _ := none
  metas _ := {}
  made := 0

/-- The `TaskMeta` of a slot, a new one when it has none: the end of `AllocTaskMeta` and of `GetOrCreateTaskMeta`. -/
def Group.getOrCreate (g : Group) (slot : ℕ) : Group × ℕ :=
  match g.taskPool slot with
  | some a =>
    let m := { g.metas a with slotIndex := slot, generation := g.generations slot }
    ({ g with metas := Function.update g.metas a m }, a)
  | none =>
    let m := { slotIndex := slot, generation := g.generations slot }
    ({ g with
        metas := Function.update g.metas g.made m
        taskPool := Function.update g.taskPool slot (some g.made)
        made := g.made + 1 }, g.made)

def Group.allocTaskMeta (g : Group) : Group × Option ℕ :=
  match g.freeHead with
  | some slot =>
    let (g', a) := { g with freeHead := g.freeSlots slot }.getOrCreate slot
    (g', some a)
  | none => (g, none)

/-- The walk along the free list: at most so many slots, and where it ends. -/
def walk (next : ℕ → Option ℕ) : ℕ → Option ℕ → List ℕ × Option ℕ
  | 0, current => ([], current)
  | _ + 1, none => ([], none)
  | n + 1, some slot =>
    let (found, current) := walk next n (next slot)
    (slot :: found, current)

/-- `AllocMultipleSlots`, with the slots that it stores. -/
def Group.allocMultipleSlots (g : Group) (count : ℤ) : Group × List ℕ :=
  if count ≤ 0 then (g, [])
  else
    let (found, newHead) := walk g.freeSlots (min count.toNat 16) g.freeHead
    ({ g with freeHead := newHead }, found)

def Group.getOrCreateTaskMeta (g : Group) (slot : ℤ) : Group × Option ℕ :=
  if slot < 0 ∨ (poolSize : ℤ) ≤ slot then (g, none)
  else
    let (g', a) := g.getOrCreate slot.toNat
    (g', some a)

/-- The fields that `DeallocTaskMeta` resets. -/
def TaskMeta.reset (m : TaskMeta) (newGen : ℕ) : TaskMeta :=
  { m with
    joinButex := none, generation := newGen, state := .ready, refCount := 0, fn := none, arg := none, result := none
    joinWaiters := 0, waitingButex := none, waiterNext := none, waiterWakeup := false, waiterTimedOut := false
    waiterDeadlineUs := 0, waiterTimerId := 0, localWorker := none, next := none }

def Group.deallocTaskMeta (g : Group) : Option ℕ → Group
  | none => g
  | some task =>
    let slot := (g.metas task).slotIndex
    let newGen := (g.generations slot + 1) % 2 ^ 32
    { g with
      generations := Function.update g.generations slot newGen
      metas := Function.update g.metas task ((g.metas task).reset newGen)
      freeSlots := Function.update g.freeSlots slot g.freeHead
      freeHead := some slot }

/-- `DecodeId`. -/
def Group.decodeId (g : Group) (tid : ℕ) : Option ℕ :=
  let slot := tid &&& 0xFFFFFFFF
  let gen := (tid >>> 32) % 2 ^ 32
  if poolSize ≤ slot then none
  else (g.taskPool slot).filter fun a => (g.metas a).generation = gen

/-! ## Runs -/

/-- A task that has been allocated, the slot it was taken from and the id that it was given. -/
structure Entry where
  task : ℕ
  slot : ℕ
  id : ℕ
  deriving DecidableEq

structure State where
  group : Group
  reserved : List ℕ
  allocated : List Entry
  stale : List ℕ  -- the ids of the tasks that have been handed back
  deallocs : ℕ → ℕ  -- how often the slot has been handed back

inductive Label
  | allocTaskMeta
  | allocMultipleSlots (count : ℤ)
  | getOrCreateTaskMeta (slot : ℕ)  -- for a slot that `AllocMultipleSlots` has returned
  | deallocTaskMeta (task : ℕ)  -- of an allocated task
  | use (task : ℕ) (m : TaskMeta)  -- the fields of an allocated task are written, but not its slot and generation

def State.start : State := ⟨.new, [], [], [], fun _ => 0⟩

/-- The slots that are given out. -/
def State.slots (s : State) : List ℕ := s.reserved ++ s.allocated.map Entry.slot

/-- The group has returned the task for the slot. -/
def State.enter (s : State) (g : Group) (slot task : ℕ) : State :=
  let id := encodeId (g.metas task).slotIndex (g.metas task).generation
  { s with group := g, allocated := ⟨task, slot, id⟩ :: s.allocated }

def step (s : State) : Label → Option State
  | .allocTaskMeta =>
    match s.group.freeHead, s.group.allocTaskMeta with
    | some slot, (g, some task) => some (s.enter g slot task)
    | _, (g, _) => some { s with group := g }
  | .allocMultipleSlots count =>
    let (g, found) := s.group.allocMultipleSlots count
    some { s with group := g, reserved := found ++ s.reserved }
  | .getOrCreateTaskMeta slot =>
    match s.group.getOrCreateTaskMeta slot with
    | (g, some task) =>
      if slot ∈ s.reserved then some ({ s with reserved := s.reserved.erase slot }.enter g slot task) else none
    | (_, none) => none
  | .deallocTaskMeta task =>
    (s.allocated.find? fun e => e.task = task).map fun e =>
      { s with
        group := s.group.deallocTaskMeta (some task)
        allocated := s.allocated.erase e
        stale := e.id :: s.stale
        deallocs := Function.update s.deallocs e.slot (s.deallocs e.slot + 1) }
  | .use task m =>
    if s.allocated.any fun e => e.task = task then
      let old := s.group.metas task
      let m' := { m with slotIndex := old.slotIndex, generation := old.generation }
      some { s with group := { s.group with metas := Function.update s.group.metas task m' } }
    else none

/-- The operations of the task group, one at a time. -/
def system : System State Label where
  init s := s = .start
  step := step

/-- No slot is handed back for the 2^32nd time. -/
def Few (s : State) : Label → Prop
  | .deallocTaskMeta task => s.deallocs (s.group.metas task).slotIndex + 1 < 2 ^ 32
  | _ => True

instance (s : State) : ∀ l, Decidable (Few s l)
  | .deallocTaskMeta task => inferInstanceAs (Decidable (s.deallocs (s.group.metas task).slotIndex + 1 < 2 ^ 32))
  | .allocTaskMeta | .allocMultipleSlots _ | .getOrCreateTaskMeta _ | .use _ _ => .isTrue trivial

/-- **The books are right.** -/
structure Bookkeeping (s : State) : Prop where
  freeList : ∃ l, Path s.group.freeSlots s.group.freeHead l ∧ l.Nodup ∧
    ∀ slot, slot ∈ l ↔ slot < poolSize ∧ slot ∉ s.slots
  distinct : s.slots.Nodup
  -- `GetOrCreateTaskMeta` returns the `TaskMeta` of a reserved slot, which is no allocated task
  created : ∀ slot ∈ s.reserved, ∃ task, (s.group.getOrCreateTaskMeta slot).2 = some task ∧
    ((s.group.getOrCreateTaskMeta slot).1.metas task).slotIndex = slot ∧ ∀ e ∈ s.allocated, e.task ≠ task
  slotIndex : ∀ e ∈ s.allocated, (s.group.metas e.task).slotIndex = e.slot
  decodes : ∀ e ∈ s.allocated, e.id = encodeId e.slot (s.group.metas e.task).generation ∧
    s.group.decodeId e.id = some e.task
  stale : ∀ id ∈ s.stale, s.group.decodeId id = none
  exhausted : s.group.allocTaskMeta.2 = none → ∀ slot < poolSize, slot ∈ s.slots

end Cothread.TaskPool
