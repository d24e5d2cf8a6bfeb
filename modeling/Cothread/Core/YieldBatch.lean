import Cothread.Core.Basic
import Cothread.Queue.StealDeque

/-!
# The batch of tasks that have yielded

`local_batch_` is an array of `BATCH_SIZE` entries. `YieldCurrent` writes the running task to the entry
`batch_count_++`, `MaybeFlushBatch` moves a full batch to the local queue, and `PickTask` takes from the batch, which
it refills from the local queue when it is empty. The model records the index of every access to the array. Between two
operations the batch is not full: seven entries are left of eight that `PopMultiple` pops, and eight are flushed
(`Held.short`, which `Held.yieldCurrent` and `Held.pickTask` keep).

- `Held s ys xs`: the batch holds `ys` and the local queue `xs`;
- what the operations do to them (`Held.enqueue`, `Held.maybeFlushBatch`, `Held.refill`, `Held.takeBatch`);
- in every run the accesses are inside the array, and no task gets lost or is stored twice (`batch_kept`).
-/

namespace Cothread.YieldBatch

open Run
open WorkStealing (CAPACITY Holds)

def BATCH_SIZE : Int := 8

def EINVAL : Int := 22

/-- A worker. `local_batch_` is addressed by any `int`, and `accesses` lists the indices used so far. -/
structure State (T : Type*) where
  localBatch : Int → Option T
  batchCount : Int
  localQueue : WorkStealing.Queue T
  currentTask : Option T
  taskState : T → TaskState
  accesses : List Int

variable {T : Type*}

/-- `local_batch_[i]`, read. -/
def State.read (s : State T) (i : Int) : State T × Option T :=
  ({ s with accesses := s.accesses ++ [i] }, s.localBatch i)

/-- `local_batch_[i] = task`. -/
def State.write (s : State T) (i : Int) (task : T) : State T :=
  { s with localBatch := Function.update s.localBatch i (some task), accesses := s.accesses ++ [i] }

/-! ## `YieldCurrent` -/

/-- `local_queue_.Push(local_batch_[i])`. -/
def State.pushEntry (s : State T) (i : Int) : State T :=
  { (s.read i).1 with localQueue := s.localQueue.push (s.read i).2 }

/-- The loop of `MaybeFlushBatch` from `i` on, with `n` turns left to `batch_count_`. -/
def State.flushFrom (s : State T) (i : Int) : ℕ → State T
  | 0 => s
  | n + 1 => (s.pushEntry i).flushFrom (i + 1) n

/-- `MaybeFlushBatch()`. -/
def State.maybeFlushBatch (s : State T) : State T :=
  if s.batchCount ≥ BATCH_SIZE then { s.flushFrom 0 s.batchCount.toNat with batchCount := 0 } else s

section

variable [DecidableEq T]

/-- `current_task_->state.store(READY)` and `local_batch_[batch_count_++] = current_task_`. -/
def State.enqueue (s : State T) (task : T) : State T :=
  { s.write s.batchCount task with
    batchCount := s.batchCount + 1
    taskState := Function.update s.taskState task .ready }

/-- `SuspendCurrent()`, which goes back to the loop of `Run()`: there `current_task_ = nullptr`. -/
def State.suspendCurrent (s : State T) : State T := { s with currentTask := none }

/-- `YieldCurrent()`; no answer while the task is in the batch. -/
def State.yieldCurrent (s : State T) : State T × Option Int :=
  match s.currentTask with
  | none => (s, some EINVAL)
  | some task =>
    if s.batchCount = 0 ∧ s.localQueue.empty then (s, some 0)
    else ((s.enqueue task).maybeFlushBatch.suspendCurrent, none)

end

/-! ## `PickTask` -/

/-- `return local_batch_[--batch_count_]`. -/
def State.takeBatch (s : State T) : State T × Option T :=
  State.read { s with batchCount := s.batchCount - 1 } (s.batchCount - 1)

/-- The loop of `PopMultiple(local_batch_, max_count)` with `n` turns left to `max_count`: the state and `count`. -/
def State.popMultiple (s : State T) (count : Int) : ℕ → State T × Int
  | 0 => (s, count)
  | n + 1 => match s.localQueue.pop with
    | (q, none) => ({ s with localQueue := q }, count)
    | (q, some task) => (State.write { s with localQueue := q } count task).popMultiple (count + 1) n

/-- `PickTask()`; `elsewhere` is what it finds in the global queue or in the queues of other workers. -/
def State.pickTask (s : State T) (elsewhere : Option T) : State T × Option T :=
  if s.batchCount > 0 then s.takeBatch
  else
    let r := s.popMultiple 0 BATCH_SIZE.toNat
    if r.2 > 0 then State.takeBatch { r.1 with batchCount := r.2 } else (r.1, elsewhere)

/-! ## Runs -/

inductive Label (T : Type*)
  | pick (elsewhere : Option T)  -- the loop of `Run()` calls `PickTask` and runs the task
  | yield  -- the running bthread calls `YieldCurrent`
  | leave (state : TaskState)  -- the running task blocks or finishes
  | push (task : T)  -- `Push` onto the local queue
  | steal  -- `Steal` from the local queue
  deriving DecidableEq

section

variable [DecidableEq T]

/-- `current_task_ = task; task->state.store(RUNNING)`. -/
def State.run (s : State T) (task : T) : State T :=
  { s with currentTask := some task, taskState := Function.update s.taskState task .running }

/-- One operation, executed atomically. -/
def step (s : State T) : Label T → Option (State T)
  | .pick elsewhere =>
    if s.currentTask.isNone then
      match s.pickTask elsewhere with
      | (s, none) => some s
      | (s, some task) => some (s.run task)
    else none
  | .yield => some s.yieldCurrent.1
  | .leave state =>
    s.currentTask.map fun task =>
      { s with currentTask := none, taskState := Function.update s.taskState task state }
  | .push task => some { s with localQueue := s.localQueue.push (some task) }
  | .steal => some { s with localQueue := s.localQueue.steal.1 }

/-- The worker of a new scheduler; the entries of the batch are not initialised. -/
def system (T : Type*) [DecidableEq T] : System (State T) (Label T) where
  init s := s.batchCount = 0 ∧ s.localQueue = .new ∧ s.currentTask = none ∧ s.accesses = []
  step := step

end

/-- At most `CAPACITY - 1 - BATCH_SIZE` tasks are in the local queue. -/
def State.Roomy (s : State T) : Prop := (s.localQueue.window.length : Int) ≤ CAPACITY - 1 - BATCH_SIZE

/-- A push and a yield find room in the local queue; the other operations do not need any. -/
def roomy (s : State T) : Label T → Prop
  | .push _ => s.Roomy
  | .yield => s.Roomy
  | _ => True

instance : ∀ (s : State T) (l : Label T), Decidable (roomy s l)
  | s, .push _ => inferInstanceAs (Decidable ((s.localQueue.window.length : Int) ≤ _))
  | s, .yield => inferInstanceAs (Decidable ((s.localQueue.window.length : Int) ≤ _))
  | _, .pick _ => .isTrue trivial
  | _, .leave _ => .isTrue trivial
  | _, .steal => .isTrue trivial

/-- `local_batch_[i], …, local_batch_[i + n - 1]`. -/
def State.entries (s : State T) (i n : ℕ) : List (Option T) := (List.range' i n).map fun j : ℕ => s.localBatch j

/-- What the batch and the local queue hold. -/
def State.held (s : State T) : List (Option T) := s.entries 0 s.batchCount.toNat ++ s.localQueue.window

/-- Every access so far was to an entry of the array. -/
def State.InBounds (s : State T) : Prop := ∀ i ∈ s.accesses, 0 ≤ i ∧ i < BATCH_SIZE

/-- The batch holds `ys` and the local queue `xs`. -/
structure Held (s : State T) (ys xs : List T) : Prop where
  count : s.batchCount = ys.length
  batch : s.entries 0 ys.length = ys.map some
  queue : Holds s.localQueue xs
  inBounds : s.InBounds

/-- The invariant of runs: a batch that is not full. -/
def Inv (s : State T) : Prop := ∃ ys xs, Held s ys xs ∧ ys.length < 8

variable {s : State T} {i n k : ℕ} {j : Int} {task x : T} {ys zs xs : List T}

/-! ## The array -/

theorem entries_succ (s : State T) (i n : ℕ) :
    s.entries i (n + 1) = s.localBatch i :: s.entries (i + 1) n := by
  rw [State.entries, List.range'_succ, List.map_cons]
  rfl

theorem entries_concat (s : State T) (i n : ℕ) :
    s.entries i (n + 1) = s.entries i n ++ [s.localBatch (i + n : ℕ)] := by
  rw [State.entries, List.range'_concat, List.map_append, Nat.one_mul]
  rfl

/-- A write behind the entries. -/
theorem entries_write (s : State T) (task : T) : (s.write (i + n : ℕ) task).entries i n = s.entries i n := by
  refine List.map_congr_left fun k hk => Function.update_of_ne ?_ _ _
  have hlt := (List.mem_range'_1.mp hk).2
  omega

/-- A write of the next entry. -/
theorem entries_write_next (h : s.entries 0 ys.length = ys.map some) (task : T) :
    (s.write ys.length task).entries 0 (ys ++ [task]).length = (ys ++ [task]).map some := by
  have hold := entries_write (i := 0) (n := ys.length) s task
  rw [Nat.zero_add] at hold
  rw [List.length_append, List.length_singleton, entries_concat, Nat.zero_add, hold, h, List.map_append]
  exact congrArg (ys.map some ++ [·]) (Function.update_self ..)

/-- One more access. -/
theorem State.InBounds.access {s' : State T} (h : s.InBounds) (ha : s'.accesses = s.accesses ++ [j]) (h0 : 0 ≤ j)
    (h8 : j < BATCH_SIZE) : s'.InBounds := by
  intro i hi
  rw [ha] at hi
  obtain hi | hi := List.mem_append.mp hi
  · exact h i hi
  · obtain rfl := List.mem_singleton.mp hi
    exact ⟨h0, h8⟩

/-- What the worker holds, as lists. -/
theorem Held.held_eq (h : Held s ys xs) : s.held = (ys ++ xs).map some := by
  rw [State.held, h.count, Int.toNat_natCast, h.batch, h.queue.window, List.map_append]

theorem Held.roomy_iff (h : Held s ys xs) : s.Roomy ↔ xs.length + 8 < CAPACITY := by
  rw [State.Roomy, h.queue.window, List.length_map]
  unfold CAPACITY BATCH_SIZE
  omega

/-- The last task of the batch, and the others. -/
theorem top_perm (ys xs : List T) (x : T) : (ys ++ [x] ++ xs).Perm (x :: (ys ++ xs)) := by
  rw [List.append_assoc, List.singleton_append]
  exact List.perm_middle

/-! ## `MaybeFlushBatch` and `YieldCurrent` -/

/-- **The loop of `MaybeFlushBatch`** pushes the rest of the batch. -/
theorem flushFrom_holds (hb : s.entries i zs.length = zs.map some) (hq : Holds s.localQueue xs) (hin : s.InBounds)
    (hle : i + zs.length ≤ 8) (hroom : xs.length + zs.length < CAPACITY) :
    Holds (s.flushFrom i zs.length).localQueue (xs ++ zs) ∧ (s.flushFrom i zs.length).InBounds := by
  induction zs generalizing s i xs with
  | nil =>
    rw [List.append_nil]
    exact ⟨hq, hin⟩
  | cons z zs ih =>
    rw [List.length_cons] at hb hle hroom
    rw [entries_succ, List.map_cons, List.cons.injEq] at hb
    have hpush : Holds (s.pushEntry i).localQueue (xs ++ [z]) := by
      show Holds (s.localQueue.push (s.localBatch i)) _
      rw [hb.1]
      exact hq.push (by omega)
    have hbounds : (s.pushEntry i).InBounds := hin.access rfl (by omega) (by unfold BATCH_SIZE; omega)
    have hrest := ih (s := s.pushEntry i) (i := i + 1) hb.2 hpush hbounds (by omega)
      (by rw [List.length_append, List.length_singleton]; omega)
    rw [List.append_assoc, List.singleton_append] at hrest
    exact hrest

/-- **`MaybeFlushBatch`** leaves a batch that is not full, and moves tasks only. -/
theorem Held.maybeFlushBatch (h : Held s ys xs) (hle : ys.length ≤ 8) (hroom : xs.length + 8 < CAPACITY) :
    ∃ ys' xs', Held s.maybeFlushBatch ys' xs' ∧ ys'.length < 8 ∧ (ys' ++ xs').Perm (ys ++ xs) := by
  unfold State.maybeFlushBatch
  split_ifs with hfull
  · rw [h.count, Int.toNat_natCast]
    obtain ⟨hq, hin⟩ := flushFrom_holds h.batch h.queue h.inBounds (by omega) (by omega)
    refine ⟨[], xs ++ ys, ⟨rfl, rfl, hq, hin⟩, Nat.succ_pos 7, ?_⟩
    rw [List.nil_append]
    exact List.perm_append_comm
  · have hlt := h.count
    unfold BATCH_SIZE at hfull
    exact ⟨ys, xs, h, by omega, .refl _⟩

section

variable [DecidableEq T]

/-- The task that yields is written behind the batch. -/
theorem Held.enqueue (h : Held s ys xs) (hlt : ys.length < 8) (task : T) : Held (s.enqueue task) (ys ++ [task]) xs := by
  have hcount := h.count
  refine ⟨?_, ?_, h.queue, h.inBounds.access rfl (by omega) (by unfold BATCH_SIZE; omega)⟩
  · rw [List.length_append, List.length_singleton, Int.natCast_add, ← hcount]
    rfl
  · have hwrite := entries_write_next h.batch task
    rw [← hcount] at hwrite
    exact hwrite

/-- **`YieldCurrent`** on its queuing path adds the running task. -/
theorem Held.queued (h : Held s ys xs) (hlt : ys.length < 8) (hroom : xs.length + 8 < CAPACITY) (task : T) :
    ∃ ys' xs', Held (s.enqueue task).maybeFlushBatch ys' xs' ∧ ys'.length < 8 ∧
      (ys' ++ xs').Perm (task :: (ys ++ xs)) := by
  have hle : (ys ++ [task]).length ≤ 8 := by
    rw [List.length_append, List.length_singleton]
    omega
  obtain ⟨ys', xs', hheld, hshort, hperm⟩ := (h.enqueue hlt task).maybeFlushBatch hle hroom
  exact ⟨ys', xs', hheld, hshort, hperm.trans (top_perm ys xs task)⟩

end

/-! ## `PickTask` -/

/-- **The top of the batch** is taken. -/
theorem Held.takeBatch (h : Held s (ys ++ [x]) xs) (hle : ys.length < 8) :
    s.takeBatch.2 = some x ∧ Held s.takeBatch.1 ys xs := by
  have hcount : s.batchCount - 1 = ys.length := by
    rw [h.count, List.length_append, List.length_singleton]
    omega
  have hbatch := h.batch
  rw [List.length_append, List.length_singleton, entries_concat, Nat.zero_add, List.map_append] at hbatch
  obtain ⟨hys, hx⟩ := List.append_inj' hbatch rfl
  constructor
  · show s.localBatch (s.batchCount - 1) = some x
    rw [hcount]
    exact List.head_eq_of_cons_eq hx
  · exact ⟨hcount, hys, h.queue, h.inBounds.access rfl (by omega) (by unfold BATCH_SIZE; omega)⟩

/-- **`PopMultiple`** writes the tasks that it pops behind those that it has popped. -/
theorem popMultiple_holds (n : ℕ) (hb : s.entries 0 ys.length = ys.map some) (hq : Holds s.localQueue xs)
    (hin : s.InBounds) (hle : ys.length + n ≤ 8) :
    ∃ zs rest, (s.popMultiple ys.length n).2 = ((ys ++ zs).length : ℕ) ∧
      (s.popMultiple ys.length n).1.entries 0 (ys ++ zs).length = (ys ++ zs).map some ∧
      Holds (s.popMultiple ys.length n).1.localQueue rest ∧ (s.popMultiple ys.length n).1.InBounds ∧
      (zs ++ rest).Perm xs ∧ zs.length ≤ n ∧ (zs = [] → n = 0 ∨ xs = []) := by
  induction n generalizing s ys xs with
  | zero =>
    refine ⟨[], xs, ?_, ?_, hq, hin, .refl _, Nat.le_refl _, fun _ => .inl rfl⟩
    · rw [List.append_nil]
      rfl
    · rw [List.append_nil]
      exact hb
  | succ n ih =>
    obtain rfl | ⟨rest, x, rfl⟩ := List.eq_nil_or_concat' xs
    · refine ⟨[], [], ?_⟩
      rw [State.popMultiple, hq.pop_nil, List.append_nil]
      exact ⟨rfl, hb, hq, hin, .refl _, Nat.zero_le _, fun _ => .inr rfl⟩
    · obtain ⟨hx, hrest⟩ := hq.pop_snoc
      have hpop : s.localQueue.pop = (s.localQueue.pop.1, some x) := Prod.ext rfl hx
      let t : State T := State.write { s with localQueue := s.localQueue.pop.1 } ys.length x
      have hin' : t.InBounds := hin.access rfl (by omega) (by unfold BATCH_SIZE; omega)
      have hb' : t.entries 0 (ys ++ [x]).length = (ys ++ [x]).map some :=
        entries_write_next (s := { s with localQueue := s.localQueue.pop.1 }) hb x
      have hlen : ((ys.length : ℕ) : Int) + 1 = ((ys ++ [x]).length : ℕ) := by
        rw [List.length_append, List.length_singleton]
        rfl
      have hturn : s.popMultiple ys.length (n + 1) = t.popMultiple ((ys ++ [x]).length : ℕ) n := by
        rw [State.popMultiple, hpop, ← hlen]
      obtain ⟨zs, rest', hcount, hentries, hholds, hbounds, hperm, hshort, -⟩ := ih hb' hrest hin'
        (by rw [List.length_append, List.length_singleton]; omega)
      rw [List.append_assoc, List.singleton_append] at hcount hentries
      rw [hturn]
      refine ⟨x :: zs, rest', hcount, hentries, hholds, hbounds, ?_, Nat.succ_le_succ hshort, nofun⟩
      exact .trans (.cons x hperm) (List.perm_append_singleton x rest).symm

/-- `PopMultiple` leaves `batch_count_` alone. -/
theorem popMultiple_batchCount (s : State T) (count : Int) (n : ℕ) :
    (s.popMultiple count n).1.batchCount = s.batchCount := by
  induction n generalizing s count with
  | zero => rfl
  | succ n ih =>
    unfold State.popMultiple
    split
    · rfl
    · rw [ih]
      rfl

/-- **The refill** moves up to `BATCH_SIZE` tasks from the local queue into an empty batch. -/
theorem Held.refill (h : Held s [] xs) : ∃ zs rest,
    Held { (s.popMultiple 0 BATCH_SIZE.toNat).1 with batchCount := (s.popMultiple 0 BATCH_SIZE.toNat).2 } zs rest ∧
      (zs ++ rest).Perm xs ∧ zs.length ≤ 8 ∧ (zs = [] → xs = []) := by
  have hbatch : s.entries 0 ([] : List T).length = ([] : List T).map some := h.batch
  obtain ⟨zs, rest, hcount, hentries, hholds, hbounds, hperm, hshort, hnil⟩ :=
    popMultiple_holds BATCH_SIZE.toNat hbatch h.queue h.inBounds (Nat.le_refl 8)
  rw [List.nil_append] at hcount hentries
  exact ⟨zs, rest, ⟨hcount, hentries, hholds, hbounds⟩, hperm, hshort, fun hz => (hnil hz).resolve_left (by decide)⟩

/-- **`PickTask`** takes the top of the batch, which it refills when it is empty; with nothing to refill it from, it
looks elsewhere. -/
theorem Held.pickTask (h : Held s ys xs) (hlt : ys.length < 8) (elsewhere : Option T) :
    (ys ++ xs = [] ∧ (s.pickTask elsewhere).2 = elsewhere ∧ Held (s.pickTask elsewhere).1 [] []) ∨
      ∃ x ys' xs', (s.pickTask elsewhere).2 = some x ∧ Held (s.pickTask elsewhere).1 ys' xs' ∧ ys'.length < 8 ∧
        (ys ++ xs).Perm (x :: (ys' ++ xs')) := by
  have hcount := h.count
  obtain rfl | ⟨ys, x, rfl⟩ := List.eq_nil_or_concat' ys
  · obtain ⟨zs, rest, hrefill, hperm, hshort, hnil⟩ := h.refill
    have hpopped : (s.popMultiple 0 BATCH_SIZE.toNat).2 = zs.length := hrefill.count
    have hempty : ¬s.batchCount > 0 := by
      rw [hcount]
      exact Int.lt_irrefl 0
    obtain rfl | ⟨zs, x, rfl⟩ := List.eq_nil_or_concat' zs
    · left
      obtain rfl := hnil rfl
      obtain rfl : rest = [] := hperm.eq_nil
      have hpick : s.pickTask elsewhere = ((s.popMultiple 0 BATCH_SIZE.toNat).1, elsewhere) := by
        rw [State.pickTask, if_neg hempty]
        exact if_neg (Int.not_lt.mpr (Int.le_of_eq hpopped))
      rw [hpick]
      exact ⟨rfl, rfl, (popMultiple_batchCount ..).trans hcount, hrefill.batch, hrefill.queue, hrefill.inBounds⟩
    · right
      rw [List.length_append, List.length_singleton] at hpopped hshort
      rw [State.pickTask, if_neg hempty]
      simp only [if_pos (show (s.popMultiple 0 BATCH_SIZE.toNat).2 > 0 by omega)]
      obtain ⟨hx, hheld⟩ := hrefill.takeBatch hshort
      exact ⟨x, zs, rest, hx, hheld, hshort, hperm.symm.trans (top_perm zs rest x)⟩
  · right
    rw [List.length_append, List.length_singleton] at hlt hcount
    obtain ⟨hx, hheld⟩ := h.takeBatch (by omega)
    rw [State.pickTask, if_pos (by omega)]
    exact ⟨x, ys, xs, hx, hheld, by omega, top_perm ys xs x⟩

/-! ## Runs -/

section

variable [DecidableEq T]

/-- **`YieldCurrent`** keeps the invariant. -/
theorem Held.yieldCurrent (h : Held s ys xs) (hlt : ys.length < 8) (hroom : s.Roomy) : Inv s.yieldCurrent.1 := by
  unfold State.yieldCurrent
  split
  · exact ⟨ys, xs, h, hlt⟩
  · rename_i task _
    split_ifs
    · exact ⟨ys, xs, h, hlt⟩
    · obtain ⟨ys', xs', hheld, hshort, -⟩ := h.queued hlt (h.roomy_iff.mp hroom) task
      exact ⟨ys', xs', ⟨hheld.count, hheld.batch, hheld.queue, hheld.inBounds⟩, hshort⟩

/-- **Every operation** keeps the invariant. -/
theorem Inv.step {t : State T} {l : Label T} (h : Inv s) (hok : roomy s l) (hst : step s l = some t) : Inv t := by
  obtain ⟨ys, xs, hheld, hlt⟩ := h
  cases l with
  | pick elsewhere =>
    obtain ⟨-, hst⟩ := Option.ite_none_right_eq_some.mp hst
    have hpicked : Inv (s.pickTask elsewhere).1 := by
      obtain ⟨-, -, h⟩ | ⟨x, ys', xs', -, h, hlt', -⟩ := hheld.pickTask hlt elsewhere
      · exact ⟨[], [], h, Nat.succ_pos 7⟩
      · exact ⟨ys', xs', h, hlt'⟩
    split at hst
    · rename_i u hu
      cases hst
      rw [hu] at hpicked
      exact hpicked
    · rename_i u task hu
      cases hst
      rw [hu] at hpicked
      obtain ⟨ys', xs', h, hlt'⟩ := hpicked
      exact ⟨ys', xs', ⟨h.count, h.batch, h.queue, h.inBounds⟩, hlt'⟩
  | yield =>
    cases hst
    exact hheld.yieldCurrent hlt hok
  | leave state =>
    obtain ⟨task, -, rfl⟩ := Option.map_eq_some_iff.mp hst
    exact ⟨ys, xs, ⟨hheld.count, hheld.batch, hheld.queue, hheld.inBounds⟩, hlt⟩
  | push task =>
    cases hst
    have hroom := hheld.roomy_iff.mp hok
    exact ⟨ys, xs ++ [task], ⟨hheld.count, hheld.batch, hheld.queue.push (by omega), hheld.inBounds⟩, hlt⟩
  | steal =>
    cases hst
    exact ⟨ys, xs.tail, ⟨hheld.count, hheld.batch, hheld.queue.steal.2, hheld.inBounds⟩, hlt⟩

/-- The invariant holds in every run. -/
theorem inv_of_reach (h : Reach (system T) roomy s) : Inv s := by
  refine h.invariant ?_ fun s t l hi hok hst => hi.step hok hst
  rintro s ⟨hcount, hqueue, -, haccesses⟩
  refine ⟨[], [], ⟨hcount, rfl, ?_, ?_⟩, Nat.succ_pos 7⟩
  · rw [hqueue]
    exact WorkStealing.holds_new
  · intro i hi
    rw [haccesses] at hi
    cases hi

/-- What the operations do to the tasks in the batch and in the local queue. -/
structure Kept (s : State T) : Prop where
  /-- `YieldCurrent` on its queuing path adds the running task. -/
  yielded : ∀ task, s.Roomy → s.currentTask = some task → ¬(s.batchCount = 0 ∧ s.localQueue.empty) →
    s.yieldCurrent.1.held.Perm (some task :: s.held)
  /-- `MaybeFlushBatch` adds and removes nothing. -/
  flushed : ∀ task, s.Roomy → s.currentTask = some task →
    (s.enqueue task).maybeFlushBatch.held.Perm (s.enqueue task).held
  /-- `PickTask` removes the task that it returns, unless there was none and it looked elsewhere. -/
  picked : ∀ elsewhere, (s.held = [] ∧ (s.pickTask elsewhere).1.held = [] ∧ (s.pickTask elsewhere).2 = elsewhere) ∨
    ∃ x, (s.pickTask elsewhere).2 = some x ∧ s.held.Perm (some x :: (s.pickTask elsewhere).1.held)

theorem Held.kept (h : Held s ys xs) (hlt : ys.length < 8) : Kept s where
  yielded task hroom hcur hqueuing := by
    obtain ⟨ys', xs', hheld, -, hperm⟩ := h.queued hlt (h.roomy_iff.mp hroom) task
    have hyield : s.yieldCurrent = ((s.enqueue task).maybeFlushBatch.suspendCurrent, none) := by
      unfold State.yieldCurrent
      simp only [hcur, if_neg hqueuing]
    have hsame : s.yieldCurrent.1.held = (s.enqueue task).maybeFlushBatch.held := by
      rw [hyield]
      rfl
    rw [hsame, hheld.held_eq, h.held_eq]
    exact hperm.map some
  flushed task hroom _ := by
    have henqueued := h.enqueue hlt task
    have hle : (ys ++ [task]).length ≤ 8 := by
      rw [List.length_append, List.length_singleton]
      omega
    obtain ⟨ys', xs', hheld, -, hperm⟩ := henqueued.maybeFlushBatch hle (h.roomy_iff.mp hroom)
    rw [hheld.held_eq, henqueued.held_eq]
    exact hperm.map some
  picked elsewhere := by
    obtain ⟨hnil, hsome, hheld⟩ | ⟨x, ys', xs', hsome, hheld, -, hperm⟩ := h.pickTask hlt elsewhere
    · refine Or.inl ⟨?_, hheld.held_eq, hsome⟩
      rw [h.held_eq, hnil]
      rfl
    · refine Or.inr ⟨x, hsome, ?_⟩
      rw [h.held_eq, hheld.held_eq]
      exact hperm.map some

/-- **The batch stays within its array and loses nothing**, in every run in which pushes and yields find room in the
local queue. -/
theorem batch_kept (h : Reach (system T) roomy s) :
    (0 ≤ s.batchCount ∧ s.batchCount < BATCH_SIZE) ∧ (∀ i ∈ s.accesses, 0 ≤ i ∧ i < BATCH_SIZE) ∧ Kept s := by
  obtain ⟨ys, xs, hheld, hlt⟩ := inv_of_reach h
  refine ⟨?_, hheld.inBounds, hheld.kept hlt⟩
  rw [hheld.count]
  unfold BATCH_SIZE
  omega

end

/-- A full batch is refilled, the task that runs yields into its last entry, and the batch is flushed and refilled. -/
theorem batch_kept_refilled : ∃ s : State ℕ, s.currentTask = some 9 ∧ s.batchCount = 7 ∧ s.accesses.length = 27 ∧
    (0 ≤ s.batchCount ∧ s.batchCount < BATCH_SIZE) ∧ (∀ i ∈ s.accesses, 0 ≤ i ∧ i < BATCH_SIZE) ∧ Kept s := by
  let s0 : State ℕ := ⟨fun _ => none, 0, .new, none, fun _ => .ready, []⟩
  let ls : List (Label ℕ) := (List.range' 1 9).map .push ++ [.pick none, .yield, .pick none]
  have hrun : (exec (system ℕ) s0 ls).any (fun s => decide
      (s.currentTask = some 9 ∧ s.batchCount = 7 ∧ s.accesses.length = 27)) = true := by decide +kernel
  have hok : execOk (system ℕ) roomy s0 ls = true := by decide +kernel
  obtain ⟨s, hs, hcur, hcount, haccesses⟩ := of_exec_any hrun
  have hinit : (system ℕ).init s0 := ⟨rfl, rfl, rfl, rfl⟩
  exact ⟨s, hcur, hcount, haccesses, batch_kept (reach_exec (fun _ _ h => h) (.init hinit) hs hok)⟩

end Cothread.YieldBatch
