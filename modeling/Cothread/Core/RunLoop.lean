import Cothread.Core.WaitForTask

/-!
# `Worker::Run` after `Worker::Stop`

`Run` looks for tasks until its worker is stopped, and then for at most 100 more, so that tasks woken by `Shutdown` come
to their end. Whatever `PickTask` and the queues answer, however often the worker is woken, and wherever it is when
`Stop` sets the flag, also on its way into `FutexWait`: the worker begins at most 101 tasks more, and returns after at
most 309 steps, of which the end of a `FutexWait` is one and a task that it runs is one (`run_returns`). So `JoinThread`
returns when the tasks give their workers back.

A step is one access to the fields of the worker, or a call: `PickTask`, `RegisterIdleWorker`, the tests of the queues,
`HandleTaskAfterRun`, a task.
-/

namespace Cothread.RunLoop

open Run
open WaitForTask (MAX_SPINS SPIN_CHECK_INTERVAL)

/-- The tasks that are picked after the loop, at most. -/
def MAX_DRAIN : ℕ := 100

/-- The tasks after which the loop asks once more whether it is stopped. -/
def STOP_CHECK_INTERVAL : ℕ := 10

/-- What a worker does next. -/
inductive Pc
  -- the loop of `Run`
  | loop  -- `while (!IsStopped())`
  | pick  -- `PickTask()`
  | pickedNone  -- `if (IsStopped()) break;`
  | waited  -- `if (IsStopped()) break; continue;`
  | running  -- the task gives the worker back, and `task_count++`
  | tenth  -- `if (IsStopped())`, when `task_count` is reset
  | handleLast  -- `HandleTaskAfterRun(completed_task); break;`
  | handle  -- `HandleTaskAfterRun(completed_task)`
  -- `WaitForTask`
  | test (spins : ℕ)  -- `while (stop_flag_.load() == 0)`
  | check (spins : ℕ)  -- the queues are empty, at the start of the loop
  | spinCheck (spins : ℕ)  -- the queues are empty, during the spin
  | register  -- `is_idle_.store(true)`, `RegisterIdleWorker(id_)`
  | loadCount  -- `wake_count_.load()`
  | recheck (expected : Int)  -- the queues are empty, and `wake_pending_` is not set
  | wait (expected : Int)  -- `FutexWait` compares `wake_count_`
  | asleep (expected : Int)  -- until `FutexWake`, the timeout or a signal
  -- after the loop
  | drain (count : ℕ)  -- `PickTask()`, when `drain_count < 100`
  | drainRunning (count : ℕ)
  | drainHandle (count : ℕ)  -- `HandleTaskAfterRun(current_task_)`
  | returned
  deriving DecidableEq

structure Worker where
  pc : Pc
  taskCount : ℕ  -- `task_count`
  stopped : Bool  -- `stop_flag_`
  wakeCount : Int  -- `wake_count_`
  begun : ℕ  -- the tasks begun since `stop_flag_` is set

def Worker.start : Worker := ⟨.loop, 0, false, 0, 0⟩

namespace Worker

def goto (x : Worker) (pc : Pc) : Worker := { x with pc := pc }

/-- A task is begun. -/
def beginTask (x : Worker) (pc : Pc) : Worker :=
  { x with pc := pc, begun := if x.stopped then x.begun + 1 else x.begun }

/-- What follows when the queues are empty. -/
def spun (spins : ℕ) : Pc :=
  if spins < MAX_SPINS then
    if (spins + 1) % SPIN_CHECK_INTERVAL = 0 then .spinCheck (spins + 1) else .test (spins + 1)
  else .register

/-- One step; `found` is the answer of `PickTask`, that a queue is not empty, or that `wake_pending_` is set. -/
def next (x : Worker) (found : Bool) : Option Worker :=
  match x.pc with
  | .loop => some (x.goto (if x.stopped then .drain 0 else .pick))
  | .pick => some (if found then x.beginTask .running else x.goto .pickedNone)
  | .pickedNone => some (x.goto (if x.stopped then .drain 0 else .test 0))
  | .waited => some (x.goto (if x.stopped then .drain 0 else .loop))
  | .running => some
      (if STOP_CHECK_INTERVAL ≤ x.taskCount + 1 then { x with pc := .tenth, taskCount := 0 }
      else { x with pc := .handle, taskCount := x.taskCount + 1 })
  | .tenth => some (x.goto (if x.stopped then .handleLast else .handle))
  | .handleLast => some (x.goto (.drain 0))
  | .handle => some (x.goto .loop)
  | .test spins => some (x.goto (if x.stopped then .waited else .check spins))
  | .check spins => some (x.goto (if found then .waited else spun spins))
  | .spinCheck spins => some (x.goto (if found then .waited else .test spins))
  | .register => some (x.goto .loadCount)
  | .loadCount => some (x.goto (.recheck x.wakeCount))
  | .recheck expected => some (x.goto (if found then .test 0 else .wait expected))
  | .wait expected => some (x.goto (if x.wakeCount = expected then .asleep expected else .test 0))
  | .asleep _ => some (x.goto (.test 0))
  | .drain count => some
      (if count < MAX_DRAIN ∧ found = true then x.beginTask (.drainRunning count) else x.goto .returned)
  | .drainRunning count => some (x.goto (.drainHandle count))
  | .drainHandle count => some (x.goto (.drain (count + 1)))
  | .returned => none

/-- `stop_flag_.store(1)`. -/
def stop (x : Worker) : Worker := { x with stopped := true }

/-- `wake_count_.fetch_add(1)`, in `WakeUp` and in `Stop`. -/
def bump (x : Worker) : Worker := { x with wakeCount := wrap32 (x.wakeCount + 1) }

end Worker

inductive Label (W : Type*)
  | worker (w : W) (found : Bool)
  | stop (w : W)
  | bump (w : W)
  deriving DecidableEq

/-- The step is one of the worker. -/
def Label.isOwn {W : Type*} [DecidableEq W] (w : W) : Label W → Bool
  | .worker v _ => v = w
  | _ => false

/-- One step of the workers `s`. -/
def step {W : Type*} [DecidableEq W] (s : W → Worker) : Label W → Option (W → Worker)
  | .worker w found => ((s w).next found).map fun x => Function.update s w x
  | .stop w => some (Function.update s w (s w).stop)
  | .bump w => some (Function.update s w (s w).bump)

/-- Any workers. -/
def workers (W : Type*) [DecidableEq W] : System (W → Worker) (Label W) where
  init s := s = fun _ => .start
  step := step

/-- How many steps a stopped worker is from `returned`, at most. -/
def Pc.rank : Pc → ℕ
  | .returned => 0
  | .drain count => 3 * (MAX_DRAIN - count) + 1
  | .drainHandle count => 3 * (MAX_DRAIN - count) - 1
  | .drainRunning count => 3 * (MAX_DRAIN - count)
  | .loop | .pickedNone | .waited | .handleLast => 302
  | .handle | .tenth | .test _ => 303
  | .running | .spinCheck _ | .asleep _ => 304
  | .pick | .wait _ => 305
  | .recheck _ => 306
  | .loadCount => 307
  | .register => 308
  | .check _ => 309

/-- How many tasks a stopped worker is going to begin, at most. -/
def Pc.rest : Pc → ℕ
  | .returned => 0
  | .drain count => MAX_DRAIN - count
  | .drainRunning count | .drainHandle count => MAX_DRAIN - 1 - count
  | .pick => 101
  | _ => 100

/-- A task that is run after the loop is one of the 100, and the tasks begun since the flag is set are counted. -/
structure Inv (x : Worker) : Prop where
  drains : ∀ count, x.pc = .drainRunning count ∨ x.pc = .drainHandle count → count < MAX_DRAIN
  before : x.stopped = false → x.begun = 0
  begun : x.begun + x.pc.rest ≤ 101

section Steps

variable {x y : Worker} {found : Bool}

theorem Pc.rank_le (pc : Pc) : pc.rank ≤ 309 := by
  cases pc <;> simp only [rank, MAX_DRAIN] <;> omega

theorem Pc.rest_le (pc : Pc) : pc.rest ≤ 101 := by
  cases pc <;> simp only [rest, MAX_DRAIN] <;> omega

theorem rank_spun (spins : ℕ) : (Worker.spun spins).rank < 309 := by
  unfold Worker.spun
  split_ifs <;> simp [Pc.rank]

theorem rest_spun (spins : ℕ) : (Worker.spun spins).rest = 100 := by
  unfold Worker.spun
  split_ifs <;> rfl

/-- **A step of a stopped worker** brings it nearer to its end; a task that it begins is one less. -/
theorem stopped_next (h : Inv x) (hstop : x.stopped = true) (hst : x.next found = some y) :
    y.stopped = true ∧ y.pc.rank < x.pc.rank ∧ y.begun + y.pc.rest ≤ x.begun + x.pc.rest := by
  have hdrains := h.drains
  cases hpc : x.pc with
  | loop | pickedNone | waited | tenth | test spins =>
    simp only [Worker.next, hpc, hstop] at hst
    cases hst
    simp [Worker.goto, hstop, Pc.rank, Pc.rest, MAX_DRAIN]
  | handleLast | handle | register | loadCount | asleep expected =>
    simp only [Worker.next, hpc] at hst
    cases hst
    simp [Worker.goto, hstop, Pc.rank, Pc.rest, MAX_DRAIN]
  | pick =>
    simp only [Worker.next, hpc] at hst
    cases found <;> cases hst
    · simp [Worker.goto, hstop, Pc.rank, Pc.rest]
    · refine ⟨hstop, by simp [Worker.beginTask, Pc.rank], ?_⟩
      simp only [Worker.beginTask, hstop, ↓reduceIte, Pc.rest]
      omega
  | running =>
    simp only [Worker.next, hpc] at hst
    split_ifs at hst <;> cases hst <;> simp [hstop, Pc.rank, Pc.rest]
  | check spins =>
    simp only [Worker.next, hpc] at hst
    cases found <;> cases hst
    · exact ⟨hstop, rank_spun spins, Nat.add_le_add_left (rest_spun spins).le _⟩
    · simp [Worker.goto, hstop, Pc.rank, Pc.rest]
  | spinCheck spins | recheck expected =>
    simp only [Worker.next, hpc] at hst
    cases found <;> cases hst <;> simp [Worker.goto, hstop, Pc.rank, Pc.rest]
  | wait expected =>
    simp only [Worker.next, hpc] at hst
    split_ifs at hst <;> cases hst <;> simp [Worker.goto, hstop, Pc.rank, Pc.rest]
  | drain count =>
    simp only [Worker.next, hpc] at hst
    split_ifs at hst with hc
    · cases hst
      simp only [MAX_DRAIN] at hc
      refine ⟨hstop, by simp [Worker.beginTask, Pc.rank, MAX_DRAIN], ?_⟩
      simp only [Worker.beginTask, hstop, ↓reduceIte, Pc.rest, MAX_DRAIN]
      omega
    · cases hst
      simp [Worker.goto, hstop, Pc.rank, Pc.rest]
  | drainRunning count | drainHandle count =>
    have hc := hdrains count (by simp [hpc])
    simp only [Worker.next, hpc] at hst
    cases hst
    simp only [MAX_DRAIN] at hc
    refine ⟨hstop, ?_, ?_⟩ <;> simp only [Worker.goto, Pc.rank, Pc.rest, MAX_DRAIN] <;> omega
  | returned =>
    simp only [Worker.next, hpc] at hst
    cases hst

/-- A step neither sets the flag, nor counts a task before it is set. -/
theorem next_stopped (hst : x.next found = some y) :
    y.stopped = x.stopped ∧ (x.stopped = false → y.begun = x.begun) := by
  cases hpc : x.pc with
  | pick | drain count =>
    simp only [Worker.next, hpc] at hst
    split_ifs at hst <;> cases hst <;> exact ⟨rfl, fun hstop => by simp [Worker.goto, Worker.beginTask, hstop]⟩
  | running =>
    simp only [Worker.next, hpc] at hst
    split_ifs at hst <;> cases hst <;> exact ⟨rfl, fun _ => rfl⟩
  | returned =>
    simp only [Worker.next, hpc] at hst
    cases hst
  | _ =>
    simp only [Worker.next, hpc] at hst
    cases hst
    exact ⟨rfl, fun _ => rfl⟩

/-- A task that is run after the loop is one of the 100. -/
theorem next_drains (h : Inv x) (hst : x.next found = some y) (count : ℕ)
    (hy : y.pc = .drainRunning count ∨ y.pc = .drainHandle count) : count < MAX_DRAIN := by
  cases hpc : x.pc with
  | drain k =>
    simp only [Worker.next, hpc] at hst
    split_ifs at hst with hk
    · cases hst
      simp only [Worker.beginTask, Pc.drainRunning.injEq, reduceCtorEq, or_false] at hy
      exact hy ▸ hk.1
    · cases hst
      simp [Worker.goto] at hy
  | drainRunning k =>
    simp only [Worker.next, hpc] at hst
    cases hst
    simp only [Worker.goto, reduceCtorEq, Pc.drainHandle.injEq, false_or] at hy
    exact hy ▸ h.drains k (.inl hpc)
  | check spins =>
    simp only [Worker.next, hpc, Worker.spun] at hst
    split_ifs at hst <;> cases hst <;> simp [Worker.goto] at hy
  | _ =>
    simp only [Worker.next, hpc] at hst
    try split_ifs at hst
    all_goals
      cases hst
      try simp [Worker.goto, Worker.beginTask] at hy

/-- **What one step of a worker preserves.** -/
theorem Inv.next (h : Inv x) (hst : x.next found = some y) : Inv y := by
  obtain ⟨hstopped, hbegun⟩ := next_stopped hst
  constructor
  case drains => exact next_drains h hst
  case before =>
    intro hstop
    rw [hbegun (hstopped ▸ hstop), h.before (hstopped ▸ hstop)]
  case begun =>
    cases hstop : x.stopped with
    | true => exact (stopped_next h hstop hst).2.2.trans h.begun
    | false =>
      rw [hbegun hstop, h.before hstop, Nat.zero_add]
      exact y.pc.rest_le

/-- A worker that has not returned can go on. -/
theorem next_isSome (hx : x.pc ≠ .returned) (found : Bool) : (x.next found).isSome := by
  cases hpc : x.pc with
  | returned => exact absurd hpc hx
  | _ => simp only [Worker.next, hpc, Option.isSome_some]

end Steps

section Runs

variable {W : Type*} [DecidableEq W] {s t : W → Worker} {w : W} {l : Label W} {ls : List (Label W)}

/-- **What one step preserves.** -/
theorem inv_step (h : ∀ w, Inv (s w)) (hst : step s l = some t) (w : W) : Inv (t w) := by
  cases l with
  | worker v found =>
    obtain ⟨y, hy, rfl⟩ := Option.map_eq_some_iff.mp hst
    rw [Function.update_apply]
    split_ifs
    · exact (h v).next hy
    · exact h w
  | stop v =>
    cases hst
    rw [Function.update_apply]
    split_ifs
    · exact ⟨(h v).drains, nofun, (h v).begun⟩
    · exact h w
  | bump v =>
    cases hst
    rw [Function.update_apply]
    split_ifs
    · exact ⟨(h v).drains, (h v).before, (h v).begun⟩
    · exact h w

theorem reachable_inv (hs : Reachable (workers W) s) (w : W) : Inv (s w) := by
  have h : ∀ w, Inv (s w) := by
    refine hs.invariant (I := fun s => ∀ w, Inv (s w)) ?_ fun s t l h _ hst => inv_step (s := s) (t := t) h hst
    rintro _ rfl w
    exact ⟨by simp [Worker.start], fun _ => rfl, by simp [Worker.start, Pc.rest]⟩
  exact h w

/-- **One step**, of the worker that is stopped or of anybody. -/
theorem rank_step (h : ∀ w, Inv (s w)) (hstop : (s w).stopped = true) (hst : step s l = some t) :
    (t w).stopped = true ∧ (t w).pc.rank + (if l.isOwn w then 1 else 0) ≤ (s w).pc.rank := by
  cases l with
  | worker v found =>
    obtain ⟨y, hy, rfl⟩ := Option.map_eq_some_iff.mp hst
    by_cases hv : v = w
    · subst hv
      obtain ⟨hy', hrank, -⟩ := stopped_next (h v) hstop hy
      simpa [Label.isOwn, hy', Nat.add_one_le_iff] using hrank
    · simp [Label.isOwn, hv, Ne.symm hv, hstop]
  | stop v | bump v =>
    cases hst
    by_cases hv : w = v
    · subst hv
      simp [Label.isOwn, Worker.stop, Worker.bump, hstop]
    · simp [Label.isOwn, hv, hstop]

/-- **The run lemma**: the steps of a stopped worker are counted off its rank. -/
theorem rank_exec (h : ∀ w, Inv (s w)) (hstop : (s w).stopped = true) (hrun : exec (workers W) s ls = some t) :
    (t w).pc.rank + ls.countP (Label.isOwn w) ≤ (s w).pc.rank := by
  induction ls generalizing s with
  | nil =>
    cases hrun
    simp
  | cons l ls ih =>
    obtain ⟨u, hu, hrun⟩ := Option.bind_eq_some_iff.mp hrun
    obtain ⟨hustop, hstep⟩ := rank_step h hstop hu
    have hrest := ih (inv_step h hu) hustop hrun
    rw [List.countP_cons]
    omega

/-- **A stopped worker returns**: it takes at most 309 steps and begins at most 101 tasks after its flag is set, and
while it has not returned it can go on, whatever it finds. -/
theorem run_returns (hs : Reachable (workers W) s) (hstop : (s w).stopped = true)
    (hrun : exec (workers W) s ls = some t) :
    ls.countP (Label.isOwn w) ≤ 309 ∧ (t w).begun ≤ 101 ∧
      ((t w).pc ≠ .returned → ∀ found, ((workers W).step t (.worker w found)).isSome) := by
  have hrank := rank_exec (reachable_inv hs) hstop hrun
  have hbegun := (reachable_inv (reachable_exec hs hrun) w).begun
  refine ⟨?_, by omega, fun hpc found => ?_⟩
  · have hle := (s w).pc.rank_le
    omega
  · simpa [workers, step] using next_isSome hpc found

/-- The flag is set while the worker is in `PickTask`, which finds a task, as do the 100 calls after the loop. -/
theorem run_returns_full : ∃ (s t : Unit → Worker) (ls : List (Label Unit)), exec (workers Unit) s ls = some t ∧
    (s ()).begun = 0 ∧ (t ()).begun = 101 ∧ (t ()).pc = .returned ∧ ls.countP (Label.isOwn ()) ≤ 309 := by
  have hs : exec (workers Unit) (fun _ => .start) [.worker () true, .stop ()] = some fun _ => ⟨.pick, 0, true, 0, 0⟩ :=
    congrArg some (funext fun _ => rfl)
  have hfull : (exec (workers Unit) (fun _ => ⟨.pick, 0, true, 0, 0⟩) (List.replicate 305 (.worker () true))).any
      (fun t => decide ((t ()).begun = 101 ∧ (t ()).pc = .returned)) = true := by decide +kernel
  obtain ⟨t, ht, hbegun, hpc⟩ := of_exec_any hfull
  exact ⟨_, t, _, ht, rfl, hbegun, hpc, (run_returns (reachable_exec (.init rfl) hs) rfl ht).1⟩

end Runs

end Cothread.RunLoop
