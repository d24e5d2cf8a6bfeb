import Cothread.Lib.Object
import Cothread.Lib.Run
import Mathlib.Data.List.Induction
import Mathlib.Data.List.ReduceOption

/-!
# `ExecutionQueue`

The first part takes the operations to be atomic. `ExecuteOne` answers `false` when the queue is stopped, when it is
empty and when the task it has popped is an empty `std::function`, and `Execute` ends at any of them: it runs the tasks
before the first empty one (`execute_eq`). `Stop` stores `stopped_` before it calls `Execute`, which then runs
nothing (`stop_eq`). So every task is executed, and no `Execute` leaves one behind, exactly when `Stop` finds no task
and no `Execute` finds a task behind an empty one (`runs_all_iff`).

The second part interleaves the accesses of `Submit` and `ExecuteOne`. The consumer stores `false` to `pending_` after
a `Pop` that has found nothing, also when a `Submit` has pushed and has stored `true` since (`hides`). While no
`Submit` does so, `HasPending` tells the truth about every task whose `Submit` has returned (`none_hidden`).
-/

namespace Cothread.ExecutionQueue

open Run Object

/-- `queue_`, `stopped_` and `pending_`; `E` is what a wrapper holds. -/
structure Mem (E : Type*) where
  queue : List E
  stopped : Bool
  pending : Bool

/-- After the constructor. -/
def Mem.new {E : Type*} : Mem E := ⟨[], false, false⟩

/-- The next access of a `Submit` in progress. -/
inductive SubmitPc (E : Type*)
  | loadStopped (entry : E)
  | push (entry : E)  -- `queue_.Push(wrapper)`
  | setPending (entry : E)  -- `pending_.store(true)`
  deriving DecidableEq

/-- The next access of an `ExecuteOne` in progress. -/
inductive ExecutePc
  | loadStopped
  | pop  -- `queue_.Pop()`
  | clearPending  -- `pending_.store(false)`
  deriving DecidableEq

variable {E T P : Type*}

@[simp] def SubmitPc.entry : SubmitPc E → E
  | .loadStopped e | .push e | .setPending e => e

/-- One access of `Submit`. -/
def submitStep (m : Mem E) : SubmitPc E → Mem E × (SubmitPc E ⊕ Unit)
  | .loadStopped e => (m, if m.stopped then .inr () else .inl (.push e))
  | .push e => ({ m with queue := m.queue ++ [e] }, .inl (.setPending e))
  | .setPending _ => ({ m with pending := true }, .inr ())

/-- One access of `ExecuteOne`, up to the task that it has popped. -/
def executeStep (m : Mem E) : ExecutePc → Mem E × (ExecutePc ⊕ Option E)
  | .loadStopped => (m, if m.stopped then .inr none else .inl .pop)
  | .pop => match m.queue with
    | [] => (m, .inl .clearPending)
    | e :: q => ({ m with queue := q }, .inr (some e))
  | .clearPending => ({ m with pending := false }, .inr none)

/-! ## Atomic operations -/

/-- `Submit`. -/
def Mem.submit (m : Mem E) (e : E) : Mem E :=
  if m.stopped then m else { m with queue := m.queue ++ [e], pending := true }

/-- What `ExecuteOne` pops. -/
def Mem.take (m : Mem E) : Mem E × Option E :=
  if m.stopped then (m, none)
  else match m.queue with
    | [] => ({ m with pending := false }, none)
    | e :: q => ({ m with queue := q }, some e)

theorem submit_ends (m : Mem E) (e : E) : Ends submitStep m (.inl (.loadStopped e)) (m.submit e) () := by
  by_cases hstop : m.stopped
  · rw [Mem.submit, if_pos hstop]
    exact .last (by rw [submitStep, if_pos hstop])
  · rw [Mem.submit, if_neg hstop]
    refine .next (by rw [submitStep, if_neg hstop]) ?_
    exact .next rfl (.last rfl)

theorem take_ends (m : Mem E) : Ends executeStep m (.inl .loadStopped) m.take.1 m.take.2 := by
  by_cases hstop : m.stopped
  · rw [Mem.take, if_pos hstop]
    exact .last (by rw [executeStep, if_pos hstop])
  · rw [Mem.take, if_neg hstop]
    refine .next (by rw [executeStep, if_neg hstop]) ?_
    cases hq : m.queue with
    | nil =>
      refine .next (by simp only [executeStep, hq]; rfl) (.last ?_)
      simp only [executeStep, hq]
    | cons e q => exact .last (by simp only [executeStep, hq])

/-- A queue of tasks, of which `none` is an empty `std::function`, and the tasks that were executed. -/
structure State (T : Type*) where
  mem : Mem (Option T)
  executed : List T

def State.new : State T := ⟨.new, []⟩

/-- `Submit(task)`. -/
def State.submit (s : State T) (task : Option T) : State T := { s with mem := s.mem.submit task }

/-- `ExecuteOne()`. -/
def State.executeOne (s : State T) : State T × Bool :=
  match s.mem.take with
  | (m, none) => ({ s with mem := m }, false)
  | (m, some none) => ({ s with mem := m }, false)
  | (m, some (some task)) => (⟨m, s.executed ++ [task]⟩, true)

/-- At most `fuel` turns of the loop of `Execute`, which has executed `n` tasks. -/
def executeLoop : ℕ → State T → ℕ → State T × ℕ
  | 0, s, n => (s, n)
  | fuel + 1, s, n => match s.executeOne with
    | (s', true) => executeLoop fuel s' (n + 1)
    | (s', false) => (s', n)

/-- `Execute()`: no turn but the last one leaves the queue as long as it was. -/
def State.execute (s : State T) : State T × ℕ := executeLoop (s.mem.queue.length + 1) s 0

/-- `Stop()`. -/
def State.stop (s : State T) : State T := State.execute { s with mem := { s.mem with stopped := true } } |>.1

/-- A call before `Stop`. -/
inductive Op (T : Type*)
  | submit (task : Option T)
  | executeOne
  | execute
  deriving DecidableEq

def State.apply (s : State T) : Op T → State T
  | .submit task => s.submit task
  | .executeOne => s.executeOne.1
  | .execute => s.execute.1

/-- The state after the calls `ops` on a new queue. -/
def runOps (ops : List (Op T)) : State T := ops.foldl State.apply .new

/-- The tasks of the `Submit` calls that are not empty, in order. -/
def submitted (ops : List (Op T)) : List T := ops.filterMap fun
  | .submit task => task
  | _ => none

/-- **Everything runs**: when `Stop` returns, the tasks that were submitted have been executed, once each and in order,
and no call of `Execute` has left a task in the queue. -/
def RunsAll (ops : List (Op T)) : Prop :=
  (runOps ops).stop.executed = submitted ops ∧ ∀ before, before ++ [.execute] <+: ops →
    (runOps (before ++ [.execute])).mem.queue = []

/-- `Stop` finds no task, and no `Execute` finds anything behind an empty task. -/
def Careful (ops : List (Op T)) : Prop :=
  (∀ task ∈ (runOps ops).mem.queue, task = none) ∧ ∀ before, before ++ [.execute] <+: ops →
    none ∉ (runOps before).mem.queue.dropLast

/-! ## What the operations do -/

section Operations

variable {m : Mem (Option T)} {s : State T} {x : Option T} {q : List (Option T)}

theorem executeOne_stopped (h : s.mem.stopped = true) : s.executeOne = (s, false) := by
  rw [State.executeOne, Mem.take, if_pos h]

theorem executeOne_nil (h : s.mem.stopped = false) (hq : s.mem.queue = []) :
    s.executeOne = ({ s with mem := { s.mem with pending := false } }, false) := by
  simp only [State.executeOne, Mem.take, h, hq, Bool.false_eq_true, if_false]

theorem executeOne_empty (h : s.mem.stopped = false) (hq : s.mem.queue = none :: q) :
    s.executeOne = ({ s with mem := { s.mem with queue := q } }, false) := by
  simp only [State.executeOne, Mem.take, h, hq, Bool.false_eq_true, if_false]

theorem executeOne_task {task : T} (h : s.mem.stopped = false) (hq : s.mem.queue = some task :: q) :
    s.executeOne = ({ mem := { s.mem with queue := q }, executed := s.executed ++ [task] }, true) := by
  simp only [State.executeOne, Mem.take, h, hq, Bool.false_eq_true, if_false]

/-- What is behind the first empty task. -/
def behind (q : List (Option T)) : List (Option T) := (q.dropWhile Option.isSome).tail

/-- The tasks before the first empty one. -/
def front (q : List (Option T)) : List T := (q.takeWhile Option.isSome).reduceOption

@[simp] theorem front_some (task : T) (q : List (Option T)) : front (some task :: q) = task :: front q := rfl

@[simp] theorem behind_some (task : T) (q : List (Option T)) : behind (some task :: q) = behind q := rfl

/-- Every task that is not empty is before the first empty task or behind it. -/
theorem front_append_behind (q : List (Option T)) : front q ++ (behind q).reduceOption = q.reduceOption := by
  induction q with
  | nil => rfl
  | cons x q ih =>
    cases x with
    | none => rfl
    | some task => simp only [front_some, behind_some, List.cons_append, ih, List.reduceOption_cons_of_some]

theorem behind_eq_nil (q : List (Option T)) : behind q = [] ↔ none ∉ q.dropLast := by
  induction q with
  | nil => simp [behind]
  | cons x q ih =>
    cases x with
    | none => cases q <;> simp [behind]
    | some task =>
      rw [behind_some, ih]
      cases q <;> simp

/-- The loop of `Execute` with enough fuel. -/
theorem executeLoop_eq {fuel n : ℕ} (h : s.mem.stopped = false) (hfuel : s.mem.queue.length < fuel) :
    ∃ pending n', executeLoop fuel s n =
      (⟨⟨behind s.mem.queue, false, pending⟩, s.executed ++ front s.mem.queue⟩, n') := by
  induction fuel generalizing s n with
  | zero => exact absurd hfuel (Nat.not_lt_zero _)
  | succ fuel ih =>
    obtain ⟨⟨q, stopped, pending⟩, executed⟩ := s
    subst h
    cases q with
    | nil => exact ⟨false, n, by rw [executeLoop, executeOne_nil rfl rfl]; simp [front, behind]⟩
    | cons x q =>
      cases x with
      | none => exact ⟨pending, n, by rw [executeLoop, executeOne_empty rfl rfl]; simp [front, behind]⟩
      | some task =>
        obtain ⟨pending', n', hloop⟩ := ih (n := n + 1)
          (s := ⟨⟨q, false, pending⟩, executed ++ [task]⟩) rfl (Nat.lt_of_succ_lt_succ hfuel)
        refine ⟨pending', n', ?_⟩
        rw [executeLoop, executeOne_task rfl rfl]
        exact hloop.trans (by simp)

/-- **`Execute`** runs the tasks before the first empty one, and takes that one out. -/
theorem execute_eq (h : s.mem.stopped = false) : ∃ pending,
    s.execute.1 = ⟨⟨behind s.mem.queue, false, pending⟩, s.executed ++ front s.mem.queue⟩ := by
  obtain ⟨pending, n, hloop⟩ := executeLoop_eq (n := 0) h (Nat.lt_succ_self s.mem.queue.length)
  exact ⟨pending, congrArg Prod.fst hloop⟩

/-- **`Stop`** runs nothing. -/
theorem stop_eq (s : State T) : s.stop = { s with mem := { s.mem with stopped := true } } := by
  rw [State.stop, State.execute, executeLoop, executeOne_stopped rfl]

end Operations

/-! ## Runs of atomic operations -/

theorem runOps_concat (ops : List (Op T)) (op : Op T) : runOps (ops ++ [op]) = (runOps ops).apply op :=
  List.foldl_concat ..

theorem submitted_concat (ops : List (Op T)) (op : Op T) :
    submitted (ops ++ [op]) = submitted ops ++ submitted [op] := List.filterMap_append ..

/-- Before `Stop`, every task that is not empty has been executed or is queued, in order. -/
structure Kept (s : State T) (tasks : List T) : Prop where
  running : s.mem.stopped = false
  tasks_eq : s.executed ++ s.mem.queue.reduceOption = tasks

/-- **One operation** keeps all tasks. -/
theorem Kept.apply {s : State T} {tasks : List T} (h : Kept s tasks) (op : Op T) :
    Kept (s.apply op) (tasks ++ submitted [op]) := by
  obtain ⟨hopen, rfl⟩ := h
  cases op with
  | submit task =>
    have hs : s.apply (.submit task) =
        ⟨⟨s.mem.queue ++ [task], s.mem.stopped, true⟩, s.executed⟩ := by
      simp only [State.apply, State.submit, Mem.submit, hopen, Bool.false_eq_true, if_false]
    rw [hs]
    refine ⟨hopen, ?_⟩
    cases task <;> simp [submitted, List.reduceOption]
  | executeOne =>
    show Kept s.executeOne.1 _
    cases hq : s.mem.queue with
    | nil =>
      rw [executeOne_nil hopen hq]
      exact ⟨hopen, by simp [hq, submitted]⟩
    | cons x q =>
      cases x with
      | none =>
        rw [executeOne_empty hopen hq]
        exact ⟨hopen, by simp [submitted]⟩
      | some task =>
        rw [executeOne_task hopen hq]
        exact ⟨hopen, by simp [submitted]⟩
  | execute =>
    obtain ⟨pending, hs⟩ := execute_eq hopen
    show Kept s.execute.1 _
    rw [hs]
    refine ⟨rfl, ?_⟩
    rw [List.append_assoc, front_append_behind]
    simp [submitted]

/-- **Bookkeeping** over a sequence of operations. -/
theorem kept_runOps (ops : List (Op T)) : Kept (runOps ops) (submitted ops) := by
  induction ops using List.reverseRecOn with
  | nil => exact ⟨rfl, rfl⟩
  | append_singleton ops op ih =>
    rw [runOps_concat, submitted_concat]
    exact ih.apply op

/-- **`Stop` and `Execute`**: all tasks are executed, and no `Execute` leaves one behind, if and only if `Stop` finds no
task and no `Execute` finds anything behind an empty task. -/
theorem runs_all_iff (ops : List (Op T)) : RunsAll ops ↔ Careful ops := by
  apply and_congr
  · have hkept := (kept_runOps ops).tasks_eq
    rw [stop_eq, ← hkept, List.self_eq_append_right]
    exact List.filterMap_eq_nil_iff
  · apply forall_congr'
    intro before
    obtain ⟨pending, hs⟩ := execute_eq (kept_runOps before).running
    have hqueue : (runOps (before ++ [.execute])).mem.queue = behind (runOps before).mem.queue := by
      rw [runOps_concat]
      exact congrArg (fun t => t.mem.queue) hs
    rw [hqueue, behind_eq_nil]

/-- `Stop` drops the task that is queued; `Execute` leaves the task behind an empty one. -/
theorem stop_drops : ¬RunsAll [Op.submit (some 0)] ∧ ¬RunsAll [Op.submit none, .submit (some 0), .execute] := by
  constructor
  · exact fun h => absurd h.1 (by decide)
  · exact fun h => absurd (h.2 [.submit none, .submit (some 0)] (by decide)) (by decide)

/-! ## `Submit` and `ExecuteOne` access by access -/

/-- The queue, the calls in progress, and the number of `Submit` calls so far. A wrapper holds a task and the number of
its call. -/
structure Shared (P T : Type*) where
  mem : Mem (ℕ × Option T)
  calls : ℕ
  submit : P → Option (SubmitPc (ℕ × Option T))
  consumer : Option ExecutePc

/-- A call starts, or goes on; `stop` is the store to `stopped_`. -/
inductive Label (P T : Type*)
  | submit (p : P) (task : Option T)
  | producer (p : P)
  | executeOne
  | consumer
  | stop
  deriving DecidableEq

def Shared.new : Shared P T := ⟨.new, 0, fun _ => none, none⟩

/-- What is left of a call after an access. -/
def rest {Pc R : Type*} : Pc ⊕ R → Option Pc
  | .inl pc => some pc
  | .inr _ => none

variable [DecidableEq P]

/-- One step. -/
def step (s : Shared P T) : Label P T → Option (Shared P T)
  | .submit p task =>
    if (s.submit p).isNone then
      some { s with
        calls := s.calls + 1
        submit := Function.update s.submit p (some (.loadStopped (s.calls, task))) }
    else none
  | .producer p => (s.submit p).map fun pc =>
    { s with mem := (submitStep s.mem pc).1, submit := Function.update s.submit p (rest (submitStep s.mem pc).2) }
  | .executeOne => if s.consumer.isNone then some { s with consumer := some .loadStopped } else none
  | .consumer => s.consumer.map fun pc =>
    { s with mem := (executeStep s.mem pc).1, consumer := rest (executeStep s.mem pc).2 }
  | .stop => some { s with mem := { s.mem with stopped := true } }

/-- `Submit` by any number of threads, `ExecuteOne` by one. -/
def system (P T : Type*) [DecidableEq P] : System (Shared P T) (Label P T) where
  init s := s = .new
  step := step

omit [DecidableEq P] in
/-- The `Submit` call that pushed the entry has returned. -/
def Shared.Returned (s : Shared P T) (e : ℕ × Option T) : Prop := ∀ p pc, s.submit p = some pc → pc.entry.1 ≠ e.1

omit [DecidableEq P] in
/-- **Nothing is hidden**: `HasPending()` is true while the task of a `Submit` that has returned is in the queue. -/
def NoneHidden (s : Shared P T) : Prop := ∀ e ∈ s.mem.queue, s.Returned e → s.mem.pending = true

/-- A `Submit` stores `true` between a `Pop` that has found nothing and the `false` that follows it, and the task of
this `Submit` has been pushed behind that `Pop`. -/
def Overtaken (s : Shared P T) : Label P T → Prop
  | .producer p => ∃ e, s.submit p = some (.setPending e) ∧ s.consumer = some .clearPending ∧
      e.1 ∈ s.mem.queue.map Prod.fst
  | _ => False

/-! ## The invariant -/

/-- The entry is in the queue, or the call has returned. -/
@[simp] def SubmitPc.pushed : SubmitPc E → Bool
  | .setPending _ => true
  | _ => false

/-- The calls in progress have different numbers, and those that have not pushed yet are not in the queue. -/
structure Tags (s : Shared P T) : Prop where
  queued : ∀ e ∈ s.mem.queue, e.1 < s.calls
  called : ∀ p pc, s.submit p = some pc → pc.entry.1 < s.calls
  apart : ∀ p p' pc pc', s.submit p = some pc → s.submit p' = some pc' → pc.entry.1 = pc'.entry.1 → p = p'
  unpushed : ∀ p pc, s.submit p = some pc → pc.pushed = false → ∀ e ∈ s.mem.queue, e.1 ≠ pc.entry.1

/-- `pending_` is set while a returned task is queued, and the consumer is not about to clear it. -/
def Told (s : Shared P T) : Prop :=
  ∀ e ∈ s.mem.queue, s.Returned e → s.mem.pending = true ∧ s.consumer ≠ some .clearPending

section Invariant

variable {s : Shared P T} {m : Mem (ℕ × Option T)} {p : P} {pc : SubmitPc (ℕ × Option T)}
  {o : Option (SubmitPc (ℕ × Option T))}

omit [DecidableEq P] in
/-- A smaller queue. -/
theorem Tags.shrink (h : Tags s) (hq : ∀ e ∈ m.queue, e ∈ s.mem.queue) (c : Option ExecutePc) :
    Tags { s with mem := m, consumer := c } where
  queued e he := h.queued e (hq e he)
  called := h.called
  apart := h.apart
  unpushed p pc hpc hnew e he := h.unpushed p pc hpc hnew e (hq e he)

/-- A new call. -/
theorem Tags.submit (h : Tags s) (hp : s.submit p = none) (task : Option T) :
    Tags { s with
      calls := s.calls + 1
      submit := Function.update s.submit p (some (.loadStopped (s.calls, task))) } := by
  have hold : ∀ p' pc, Function.update s.submit p (some (.loadStopped (s.calls, task))) p' = some pc →
      (p' = p ∧ pc = .loadStopped (s.calls, task)) ∨ (s.submit p' = some pc ∧ pc.entry.1 < s.calls) := by
    intro p' pc hpc
    by_cases hpp : p' = p
    · subst hpp
      rw [Function.update_self] at hpc
      exact .inl ⟨rfl, (Option.some.inj hpc).symm⟩
    · rw [Function.update_of_ne hpp] at hpc
      exact .inr ⟨hpc, h.called p' pc hpc⟩
  refine ⟨fun e he => Nat.lt_succ_of_lt (h.queued e he), fun p' pc hpc => ?_, fun p₁ p₂ pc₁ pc₂ h₁ h₂ heq => ?_,
    fun p' pc hpc hnew e he => ?_⟩
  · obtain ⟨-, rfl⟩ | ⟨-, hlt⟩ := hold p' pc hpc
    · exact Nat.lt_succ_self _
    · exact Nat.lt_succ_of_lt hlt
  · obtain ⟨rfl, rfl⟩ | ⟨ho₁, hlt₁⟩ := hold p₁ pc₁ h₁ <;> obtain ⟨rfl, rfl⟩ | ⟨ho₂, hlt₂⟩ := hold p₂ pc₂ h₂
    · rfl
    · exact absurd heq (Nat.ne_of_gt hlt₂)
    · exact absurd heq (Nat.ne_of_lt hlt₁)
    · exact h.apart p₁ p₂ pc₁ pc₂ ho₁ ho₂ heq
  · obtain ⟨-, rfl⟩ | ⟨ho, -⟩ := hold p' pc hpc
    · exact Nat.ne_of_lt (h.queued e he)
    · exact h.unpushed p' pc ho hnew e he

/-- An access of a call. -/
theorem Tags.producer (h : Tags s) (hpc : s.submit p = some pc)
    (hq : ∀ e ∈ m.queue, e ∈ s.mem.queue ∨ e = pc.entry)
    (ho : ∀ pc', o = some pc' →
      pc'.entry = pc.entry ∧ (pc'.pushed = false → pc.pushed = false ∧ m.queue = s.mem.queue)) :
    Tags { s with mem := m, submit := Function.update s.submit p o } := by
  have hold : ∀ p' pc', Function.update s.submit p o p' = some pc' →
      ∃ pc₀, s.submit p' = some pc₀ ∧ pc'.entry = pc₀.entry ∧ (p' = p ∧ o = some pc' ∨ p' ≠ p ∧ pc' = pc₀) := by
    intro p' pc' hpc'
    by_cases hpp : p' = p
    · subst hpp
      rw [Function.update_self] at hpc'
      exact ⟨pc, hpc, (ho pc' hpc').1, .inl ⟨rfl, hpc'⟩⟩
    · rw [Function.update_of_ne hpp] at hpc'
      exact ⟨pc', hpc', rfl, .inr ⟨hpp, rfl⟩⟩
  refine ⟨fun e he => ?_, fun p' pc' hpc' => ?_, fun p₁ p₂ pc₁ pc₂ h₁ h₂ heq => ?_, fun p' pc' hpc' hnew e he => ?_⟩
  · obtain he | rfl := hq e he
    · exact h.queued e he
    · exact h.called p pc hpc
  · obtain ⟨pc₀, h₀, hentry, -⟩ := hold p' pc' hpc'
    exact hentry ▸ h.called p' pc₀ h₀
  · obtain ⟨pc₃, h₃, hentry₃, -⟩ := hold p₁ pc₁ h₁
    obtain ⟨pc₄, h₄, hentry₄, -⟩ := hold p₂ pc₂ h₂
    rw [hentry₃, hentry₄] at heq
    exact h.apart p₁ p₂ pc₃ pc₄ h₃ h₄ heq
  · obtain ⟨pc₀, h₀, hentry, ⟨rfl, hown⟩ | ⟨hne, rfl⟩⟩ := hold p' pc' hpc'
    · obtain ⟨hentry', hsame⟩ := ho pc' hown
      obtain ⟨hold', hqueue⟩ := hsame hnew
      rw [hentry']
      exact h.unpushed p' pc hpc hold' e (hqueue ▸ he)
    · obtain he | rfl := hq e he
      · exact h.unpushed p' pc' h₀ hnew e he
      · exact fun heq => hne (h.apart p p' pc pc' hpc h₀ heq).symm

/-- What had returned before an access of a call. -/
theorem returned_of (c : Option ExecutePc) {e : ℕ × Option T} (hpc : s.submit p = some pc) (hne : e.1 ≠ pc.entry.1)
    (h : (⟨m, s.calls, Function.update s.submit p o, c⟩ : Shared P T).Returned e) : s.Returned e := by
  intro p' pc' hpc'
  by_cases hpp : p' = p
  · subst hpp
    rw [hpc] at hpc'
    cases hpc'
    exact hne.symm
  · apply h p' pc'
    show Function.update s.submit p o p' = some pc'
    rw [Function.update_of_ne hpp, hpc']

/-- **An access of `Submit`** that does not overtake the consumer. -/
theorem Told.producer (h : Told s) (ht : Tags s) (hpc : s.submit p = some pc) (hok : ¬Overtaken s (.producer p)) :
    Told { s with
      mem := (submitStep s.mem pc).1
      submit := Function.update s.submit p (rest (submitStep s.mem pc).2) } := by
  intro e he hret
  -- a call in progress has not returned
  have hin : ∀ pc', rest (submitStep s.mem pc).2 = some pc' → e.1 ≠ pc'.entry.1 := fun pc' hpc' =>
    (hret p pc' (by show Function.update _ _ _ _ = _; rw [Function.update_self, hpc'])).symm
  have hold : e.1 ≠ pc.entry.1 → s.Returned e := fun hne => returned_of s.consumer hpc hne hret
  cases pc with
  | loadStopped x => exact h e he (hold (ht.unpushed p _ hpc rfl e he))
  | push x =>
    have hne : e.1 ≠ x.1 := hin (.setPending x) rfl
    obtain he | he := List.mem_append.mp he
    · exact h e he (hold hne)
    · rw [List.mem_singleton.mp he] at hne
      exact absurd rfl hne
  | setPending x =>
    refine ⟨rfl, ?_⟩
    by_cases hx : e.1 = x.1
    · exact fun hc => hok ⟨x, hpc, hc, hx ▸ List.mem_map_of_mem he⟩
    · exact (h e he (hold hx)).2

omit [DecidableEq P] in
/-- **An access of `ExecuteOne`**. -/
theorem Told.consumer (h : Told s) {c : ExecutePc} (hc : s.consumer = some c) :
    Told { s with mem := (executeStep s.mem c).1, consumer := rest (executeStep s.mem c).2 } := by
  cases c with
  | loadStopped =>
    intro e he hret
    refine ⟨(h e he hret).1, ?_⟩
    show rest (if s.mem.stopped then _ else _) ≠ _
    split <;> exact nofun
  | pop =>
    cases hq : s.mem.queue with
    | nil =>
      intro e he
      simp only [executeStep, hq, List.not_mem_nil] at he
    | cons x q =>
      have hpop : executeStep s.mem .pop = ({ s.mem with queue := q }, .inr (some x)) := by simp only [executeStep, hq]
      rw [hpop]
      intro e he hret
      exact ⟨(h e (hq ▸ List.mem_cons_of_mem x he) hret).1, nofun⟩
  | clearPending =>
    intro e he hret
    exact absurd hc (h e he hret).2

/-- **One step** keeps the numbers of the calls apart. -/
theorem Tags.step {t : Shared P T} {l : Label P T} (h : Tags s) (hst : step s l = some t) : Tags t := by
  cases l with
  | submit p task =>
    obtain ⟨hp, hst⟩ := Option.ite_none_right_eq_some.mp hst
    cases hst
    exact h.submit (Option.isNone_iff_eq_none.mp hp) task
  | producer p =>
    obtain ⟨pc, hpc, rfl⟩ := Option.map_eq_some_iff.mp hst
    cases pc with
    | loadStopped x =>
      refine h.producer hpc (fun e he => .inl he) fun pc' hpc' => ?_
      simp only [submitStep] at hpc'
      split at hpc'
      · cases hpc'
      · cases hpc'
        exact ⟨rfl, fun _ => ⟨rfl, rfl⟩⟩
    | push x =>
      refine h.producer hpc (fun e he => ?_) fun pc' hpc' => ?_
      · exact (List.mem_append.mp he).imp_right List.mem_singleton.mp
      · cases hpc'
        exact ⟨rfl, nofun⟩
    | setPending x => exact h.producer hpc (fun e he => .inl he) nofun
  | executeOne =>
    obtain ⟨-, hst⟩ := Option.ite_none_right_eq_some.mp hst
    cases hst
    exact h.shrink (fun e he => he) _
  | consumer =>
    obtain ⟨c, -, rfl⟩ := Option.map_eq_some_iff.mp hst
    refine h.shrink (fun e he => ?_) _
    cases c with
    | loadStopped | clearPending => exact he
    | pop =>
      simp only [executeStep] at he
      split at he
      · exact he
      · rename_i hq
        rw [hq]
        exact List.mem_cons_of_mem _ he
  | stop =>
    cases hst
    exact ⟨h.queued, h.called, h.apart, h.unpushed⟩

/-- **One step** that does not overtake the consumer. -/
theorem Told.step {t : Shared P T} {l : Label P T} (h : Told s) (ht : Tags s) (hok : ¬Overtaken s l)
    (hst : step s l = some t) : Told t := by
  cases l with
  | submit p task =>
    obtain ⟨hp, hst⟩ := Option.ite_none_right_eq_some.mp hst
    cases hst
    intro e he hret
    refine h e he fun p' pc hpc => hret p' pc ?_
    show Function.update s.submit p _ p' = _
    rwa [Function.update_of_ne]
    rintro rfl
    rw [hpc] at hp
    cases hp
  | producer p =>
    obtain ⟨pc, hpc, rfl⟩ := Option.map_eq_some_iff.mp hst
    exact h.producer ht hpc hok
  | executeOne =>
    obtain ⟨-, hst⟩ := Option.ite_none_right_eq_some.mp hst
    cases hst
    exact fun e he hret => ⟨(h e he hret).1, nofun⟩
  | consumer =>
    obtain ⟨c, hc, rfl⟩ := Option.map_eq_some_iff.mp hst
    exact h.consumer hc
  | stop =>
    cases hst
    exact h

end Invariant

theorem reachable_tags {s : Shared P T} (hs : Reachable (system P T) s) : Tags s := by
  refine hs.invariant ?_ fun s t l h _ hst => h.step hst
  rintro s rfl
  exact ⟨nofun, nofun, nofun, nofun⟩

theorem reach_told {s : Shared P T} (hs : Reach (system P T) (fun s l => ¬Overtaken s l) s) : Told s := by
  refine hs.invariant_of (fun s hs => reachable_tags hs.reachable) ?_ fun s t l ht h hok hst => h.step ht hok hst
  rintro s rfl
  exact nofun

/-- **`HasPending`** is true while a returned task is queued, in every run in which no `Submit` overtakes the consumer;
after one that does, the consumer's next access hides its task. -/
theorem none_hidden {s : Shared P T} (hs : Reach (system P T) (fun s l => ¬Overtaken s l) s) :
    NoneHidden s ∧ ∀ p t, Overtaken s (.producer p) → step s (.producer p) = some t →
      ∃ u, step t .consumer = some u ∧ ¬NoneHidden u := by
  constructor
  · exact fun e he hret => (reach_told hs e he hret).1
  · rintro p t ⟨x, hpc, hc, hx⟩ hst
    have htags := reachable_tags hs.reachable
    obtain ⟨e, he, hex⟩ := List.mem_map.mp hx
    have ht : t = { s with mem := { s.mem with pending := true }, submit := Function.update s.submit p none } := by
      obtain ⟨pc, hpc', rfl⟩ := Option.map_eq_some_iff.mp hst
      rw [hpc] at hpc'
      cases hpc'
      rfl
    subst ht
    refine ⟨_, Option.map_eq_some_iff.mpr ⟨_, hc, rfl⟩, fun hnone => ?_⟩
    have hret : ∀ p' pc, Function.update s.submit p none p' = some pc → pc.entry.1 ≠ e.1 := by
      intro p' pc hpc' heq
      by_cases hpp : p' = p
      · rw [hpp, Function.update_self] at hpc'
        cases hpc'
      · rw [Function.update_of_ne hpp] at hpc'
        exact hpp (htags.apart p' p pc _ hpc' hpc (heq.trans hex))
    exact absurd (hnone e he hret) Bool.false_ne_true

theorem none_hidden_submit : ∃ s : Shared Unit ℕ, s.mem.queue = [(0, some 0)] ∧ NoneHidden s := by
  let run : List (Label Unit ℕ) := [.submit () (some 0), .producer (), .producer (), .producer ()]
  have hrun : (exec (system Unit ℕ) .new run).any fun s => s.mem.queue == [(0, some 0)] := by decide +kernel
  obtain ⟨s, hs, hend⟩ := (Option.any_eq_true _ _).mp hrun
  have hok : execOk (system Unit ℕ) (fun s _ => s.consumer = none) .new run = true := by decide +kernel
  have hidle : ∀ (s : Shared Unit ℕ) l, s.consumer = none → ¬Overtaken s l := by
    intro s l hnone hl
    cases l with
    | producer p =>
      obtain ⟨e, -, hc, -⟩ := hl
      cases hnone.symm.trans hc
    | _ => exact hl
  exact ⟨s, eq_of_beq hend, (none_hidden (reach_exec hidle (.init rfl) hs hok)).1⟩

/-- The consumer finds nothing, a `Submit` runs, and then the consumer clears the flag. -/
def hideRun : List (Label Unit ℕ) :=
  [.executeOne, .consumer, .consumer, .submit () (some 0), .producer (), .producer (), .producer (), .consumer]

theorem hides : ∃ s : Shared Unit ℕ, Reachable (system Unit ℕ) s ∧ ¬NoneHidden s := by
  have hrun : (exec (system Unit ℕ) .new hideRun).any fun s =>
      s.mem.queue == [(0, some 0)] && s.mem.pending == false && (s.submit ()).isNone := by decide +kernel
  obtain ⟨s, hs, hend⟩ := (Option.any_eq_true _ _).mp hrun
  simp only [Bool.and_eq_true, beq_iff_eq, Option.isNone_iff_eq_none] at hend
  obtain ⟨⟨hq, hpending⟩, hsubmit⟩ := hend
  refine ⟨s, reachable_exec (.init rfl) hs, fun h => ?_⟩
  have hret : s.Returned (0, some 0) := fun p pc hpc => by cases hsubmit.symm.trans hpc
  exact absurd (h (0, some 0) (hq ▸ List.mem_singleton_self _) hret) (by rw [hpending]; exact Bool.false_ne_true)

end Cothread.ExecutionQueue
