import Cothread.Lib.Run
import Cothread.Lib.Count

/-!
# `Scheduler::Init` waits for its workers

`Init` waits on `workers_ready_cv_` until `workers_ready_` has come to the number of workers. `WorkerReady` increments
`workers_ready_` and notifies without `workers_ready_mutex_`: the last of the `n` notifications may fall between the
test of `Init` and its block, and then nobody wakes it (`missed`). Unless it does, `Init` is not blocked once all
workers are ready (`not_missed`), and returns (`init_returns`).
-/

namespace Cothread.WorkersReady

open Run Count

/-- The next access of `Init`. -/
inductive InitPc
  | lock  -- `std::unique_lock lock(workers_ready_mutex_)`
  | test  -- `workers_ready_.load() >= n`
  | block  -- release the mutex and block
  | blocked
  | relock  -- take the mutex after a notification
  | returned
  deriving DecidableEq

/-- The next access of a worker in `WorkerReady`. -/
inductive WorkerPc
  | increment  -- `workers_ready_.fetch_add(1)`
  | notify  -- `workers_ready_cv_.notify_one()`
  | ready
  deriving DecidableEq

/-- `workers_ready_` is at most `n`, which is an `int`: it does not overflow. -/
structure State (n : ℕ) where
  workersReady : Int
  locked : Bool  -- `workers_ready_mutex_`
  init : InitPc
  worker : Fin n → WorkerPc

inductive Label (n : ℕ)
  | init
  | worker (w : Fin n)
  deriving DecidableEq

variable {n : ℕ}

/-- `Init` has started the workers. -/
def State.start : State n := ⟨0, false, .lock, fun _ => .increment⟩

/-- An access of `Init`; `none` when it is blocked or has returned, or must wait for the mutex. -/
def State.initStep (s : State n) : Option (State n) :=
  match s.init with
  | .lock | .relock => if s.locked then none else some { s with locked := true, init := .test }
  | .test => some
      (if n ≤ s.workersReady then { s with locked := false, init := .returned } else { s with init := .block })
  | .block => some { s with locked := false, init := .blocked }
  | .blocked | .returned => none

/-- `notify_one` wakes `Init` if it is blocked. -/
def InitPc.notified : InitPc → InitPc
  | .blocked => .relock
  | pc => pc

/-- An access of a worker. -/
def State.workerStep (s : State n) (w : Fin n) : Option (State n) :=
  match s.worker w with
  | .increment => some
      { s with workersReady := s.workersReady + 1, worker := Function.update s.worker w .notify }
  | .notify => some { s with init := s.init.notified, worker := Function.update s.worker w .ready }
  | .ready => none

/-- One step. -/
def step (s : State n) : Label n → Option (State n)
  | .init => s.initStep
  | .worker w => s.workerStep w

/-- `Init` and `n` workers. -/
def system (n : ℕ) : System (State n) (Label n) where
  init s := s = .start
  step := step

/-- **`Init` has missed its workers**: it is blocked, and all calls of `WorkerReady` have returned. -/
def Missed (s : State n) : Prop := s.init = .blocked ∧ ∀ w, s.worker w = .ready

/-- The last notification comes after the failed test of `Init` and before its block. -/
def Early (s : State n) : Label n → Prop
  | .worker w => s.worker w = .notify ∧ s.init = .block ∧ ∀ w', w' ≠ w → s.worker w' = .ready
  | .init => False

/-! ## The invariant -/

/-- `workers_ready_` counts the workers that have incremented it; `Init` holds the mutex from its lock to its block;
when all workers are ready, it neither blocks nor is about to. -/
structure Inv (s : State n) : Prop where
  counts : Counts (fun w => s.worker w ≠ .increment) s.workersReady
  locked : s.locked = true ↔ s.init = .test ∨ s.init = .block
  awake : (∀ w, s.worker w = .ready) → s.init ≠ .block ∧ s.init ≠ .blocked

variable {s t : State n}

/-- When all workers are ready, `workers_ready_` is `n`. -/
theorem Inv.full (h : Inv s) (hall : ∀ w, s.worker w = .ready) : s.workersReady = n :=
  h.counts.unique (.all fun w => by rw [hall w]; exact nofun)

/-- **An access of `Init`**. -/
theorem Inv.initStep (h : Inv s) (hst : s.initStep = some t) : Inv t := by
  obtain ⟨hcounts, hlocked, hawake⟩ := h
  unfold State.initStep at hst
  split at hst
  case h_1 | h_2 =>
    obtain ⟨-, hst⟩ := Option.ite_none_left_eq_some.mp hst
    cases hst
    exact ⟨hcounts, by simp, by simp⟩
  case h_3 =>
    cases hst
    split
    · exact ⟨hcounts, by simp, by simp⟩
    · rename_i htest hlow
      refine ⟨hcounts, by simpa [htest] using hlocked, fun hall => absurd ?_ hlow⟩
      exact Int.le_of_eq (Inv.full ⟨hcounts, hlocked, hawake⟩ hall).symm
  case h_4 =>
    rename_i hblock
    cases hst
    exact ⟨hcounts, by simp, fun hall => absurd hblock (hawake hall).1⟩
  case h_5 | h_6 => cases hst

/-- **An access of a worker**. -/
theorem Inv.workerStep {w : Fin n} (h : Inv s) (hok : ¬Early s (.worker w)) (hst : s.workerStep w = some t) :
    Inv t := by
  obtain ⟨hcounts, hlocked, hawake⟩ := h
  unfold State.workerStep at hst
  split at hst
  case h_1 hpc =>
    cases hst
    refine ⟨hcounts.insert (j := w) (by simpa using hpc) fun i => ?_, hlocked, fun hall => absurd (hall w) (by simp)⟩
    by_cases hi : i = w
    · simp [hi]
    · simp [hi]
  case h_2 hpc =>
    cases hst
    refine ⟨hcounts.congr fun i => ?_, ?_, fun hall => ?_⟩
    · by_cases hi : i = w
      · simp [hi, hpc]
      · simp [hi]
    · show s.locked = true ↔ s.init.notified = .test ∨ s.init.notified = .block
      rw [hlocked]
      cases s.init <;> simp [InitPc.notified]
    · -- the last notification finds `Init` before its test, after its return or blocked
      have hothers : ∀ w', w' ≠ w → s.worker w' = .ready := fun w' hne => by
        have hw' : Function.update s.worker w .ready w' = .ready := hall w'
        rwa [Function.update_of_ne hne] at hw'
      have hblock : s.init ≠ .block := fun hb => hok ⟨hpc, hb, hothers⟩
      show s.init.notified ≠ .block ∧ s.init.notified ≠ .blocked
      cases hinit : s.init with
      | block => exact absurd hinit hblock
      | _ => exact ⟨nofun, nofun⟩
  case h_3 => cases hst

theorem reach_inv (hs : Reach (system n) (fun s l => ¬Early s l) s) : Inv s := by
  refine hs.invariant ?_ fun s t l h hok hst => ?_
  · rintro s rfl
    refine ⟨.zero fun w => by simp [State.start], by simp [State.start], fun _ => by simp [State.start]⟩
  · cases l with
    | init => exact h.initStep hst
    | worker w => exact h.workerStep hok hst

/-! ## The result -/

/-- **`Init` does not miss its workers** in any run in which the last notification does not come between its test and
its block; when it does, the next access of `Init` blocks it for good. -/
theorem not_missed (hs : Reach (system n) (fun s l => ¬Early s l) s) :
    ¬Missed s ∧ ∀ w t, Early s (.worker w) → step s (.worker w) = some t → ∃ u, step t .init = some u ∧ Missed u := by
  constructor
  · exact fun hm => ((reach_inv hs).awake hm.2).2 hm.1
  · rintro w t ⟨hpc, hblock, hothers⟩ hst
    have ht : t = { s with worker := Function.update s.worker w .ready } := by
      simpa [step, State.workerStep, hpc, hblock, InitPc.notified] using hst.symm
    subst ht
    refine ⟨_, by simp [step, State.initStep, hblock]; rfl, rfl, fun w' => ?_⟩
    show Function.update s.worker w .ready w' = .ready
    by_cases hw : w' = w
    · rw [hw, Function.update_self]
    · rw [Function.update_of_ne hw, hothers w' hw]

/-- **`Init` returns**, by its own accesses, once all workers are ready. -/
theorem init_returns (hs : Reach (system n) (fun s l => ¬Early s l) s) (hall : ∀ w, s.worker w = .ready) :
    ∃ k t, exec (system n) s (List.replicate k .init) = some t ∧ t.init = .returned := by
  have hinv := reach_inv hs
  have hfull := hinv.full hall
  -- from its test
  have htest : ∀ u : State n, u.workersReady = n → u.init = .test →
      (system n).step u .init = some { u with locked := false, init := .returned } := by
    intro u hu hpc
    simp [system, step, State.initStep, hpc, hu]
  have hlock : s.init = .lock ∨ s.init = .relock →
      ∃ k t, exec (system n) s (List.replicate k .init) = some t ∧ t.init = .returned := by
    intro hpc
    have hfree : s.locked = false := by
      rw [← Bool.not_eq_true, hinv.locked]
      obtain h | h := hpc <;> simp [h]
    have hst : (system n).step s .init = some { s with locked := true, init := .test } := by
      obtain h | h := hpc <;> simp [system, step, State.initStep, h, hfree]
    have hnext := htest { s with locked := true, init := .test } hfull rfl
    refine ⟨2, { s with locked := false, init := .returned }, ?_, rfl⟩
    rw [List.replicate_succ, exec_cons, hst, Option.bind_some, List.replicate_one, exec_cons, hnext]
    rfl
  cases hpc : s.init with
  | lock => exact hlock (.inl hpc)
  | relock => exact hlock (.inr hpc)
  | test =>
    refine ⟨1, { s with locked := false, init := .returned }, ?_, rfl⟩
    rw [List.replicate_one, exec_cons, htest s hfull hpc]
    rfl
  | block => exact absurd hpc (hinv.awake hall).1
  | blocked => exact absurd hpc (hinv.awake hall).2
  | returned => exact ⟨0, s, rfl, hpc⟩

/-- One worker, which is ready before `Init` tests. -/
theorem not_missed_one : ∃ s : State 1, (∀ w, s.worker w = .ready) ∧ ¬Missed s := by
  let run : List (Label 1) := [.init, .worker 0, .worker 0, .init]
  have hrun : (exec (system 1) .start run).any fun s => decide (∀ w, s.worker w = .ready) := by decide +kernel
  obtain ⟨s, hs, hend⟩ := of_exec_any hrun
  have hok : execOk (system 1) (fun s _ => s.init ≠ .block) .start run = true := by decide +kernel
  have hearly : ∀ (s : State 1) l, s.init ≠ .block → ¬Early s l := by
    intro s l hne hl
    cases l with
    | init => exact hl
    | worker w => exact hne hl.2.1
  exact ⟨s, hend, (not_missed (reach_exec hearly (.init rfl) hs hok)).1⟩

/-- One worker, whose notification comes between the test of `Init` and its block. -/
theorem missed : ∃ s : State 1, Reachable (system 1) s ∧ Missed s := by
  have hrun : (exec (system 1) .start [.init, .init, .worker 0, .worker 0, .init]).any fun s =>
      decide (s.init = .blocked ∧ ∀ w, s.worker w = .ready) := by decide +kernel
  obtain ⟨s, hs, hmissed⟩ := of_exec_any hrun
  exact ⟨s, reachable_exec (.init rfl) hs, hmissed⟩

end Cothread.WorkersReady
