import Cothread.Lib.CallOnce

/-!
# `bthread_once`

`bthread_once(once, init_routine)` calls `init_routine` through a flag that is `static` in the function: it does not
look at `once`, and there is one flag for all controls.

- **one routine for all controls** (`bthreadOnce_one_routine`): of all routines that are passed, for whatever controls,
  one at most ever returns, and every call that returns does so after it;
- **a nested call is for ever** (`bthreadOnce_nested`): after a routine has called `bthread_once`, for whatever control,
  no call returns, in any thread.
-/

namespace Cothread.Once

open Run

/-- A call: the control `once`, and `init_routine`. -/
structure Call (C F : Type*) where
  once : C
  initRoutine : F
  deriving DecidableEq

/-- `bthread_once` in any threads: `std::call_once(flag, init_routine)`, whatever the control. -/
def bthreadOnce (T C F : Type*) [DecidableEq T] : System (CallOnce.State T (Call C F)) (CallOnce.Label T (Call C F)) :=
  CallOnce.system T (Call C F)

variable {T C F : Type*} [DecidableEq T] {s u : CallOnce.State T (Call C F)}

/-- **One routine for all controls**: in every state of every run one routine at most has returned; the others have
thrown, but for one that is being run while none has returned; and a call has returned only if a routine has. -/
theorem bthreadOnce_one_routine (hs : Reachable (bthreadOnce T C F) s) :
    s.finished.length ≤ 1 ∧ (∃ rest, s.begun = s.thrown ++ rest ∧ rest.length ≤ 1 ∧ s.finished <+: rest) ∧
      (s.returned ≠ [] → s.finished ≠ []) := by
  have hbooks := (CallOnce.reachable_inv hs).books
  unfold CallOnce.State.Books at hbooks
  cases hflag : s.flag with
  | fresh =>
    rw [hflag] at hbooks
    obtain ⟨hbegun, hfinished, hreturned⟩ := hbooks
    exact ⟨by simp [hfinished], ⟨[], by simp [hbegun], by simp, by simp [hfinished]⟩, fun hne => absurd hreturned hne⟩
  | running t =>
    rw [hflag] at hbooks
    obtain ⟨⟨r, hbegun, -⟩, hfinished, hreturned⟩ := hbooks
    exact ⟨by simp [hfinished], ⟨[r], hbegun, by simp, by simp [hfinished]⟩, fun hne => absurd hreturned hne⟩
  | done =>
    rw [hflag] at hbooks
    obtain ⟨r, hbegun, hfinished⟩ := hbooks
    exact ⟨by simp [hfinished], ⟨[r], hbegun, by simp, by simp [hfinished]⟩, fun _ => by simp [hfinished]⟩

/-- Two threads initialize two things: the second call returns, and its routine is never run. -/
theorem bthreadOnce_one_routine_two_controls : ∃ s : CallOnce.State Bool (Call ℕ ℕ),
    s.returned = [⟨1, 10⟩, ⟨2, 20⟩] ∧ s.finished = [⟨1, 10⟩] ∧ s.finished.length ≤ 1 := by
  have hrun : (exec (bthreadOnce Bool ℕ ℕ) (.start Bool (Call ℕ ℕ)) [.call true ⟨1, 10⟩, .call false ⟨2, 20⟩,
      .enter true, .finish true, .enter false]).any (fun s =>
        decide (s.returned = [⟨1, 10⟩, ⟨2, 20⟩] ∧ s.finished = [⟨1, 10⟩])) = true := by decide
  obtain ⟨s, hs, hreturned, hfinished⟩ := of_exec_any hrun
  exact ⟨s, hreturned, hfinished, (bthreadOnce_one_routine (reachable_exec (.init rfl) hs)).1⟩

/-- **A nested call is for ever**: when the thread that runs a routine has called `bthread_once` again, then in every
later state of every run it is in that call, no routine has been begun or has returned since, and no call has. -/
theorem bthreadOnce_nested {t : T} {r r' : Call C F} {k : List (CallOnce.Frame (Call C F))}
    {ls : List (CallOnce.Label T (Call C F))} (hs : Reachable (bthreadOnce T C F) s)
    (hnested : s.stack t = .enters r' :: .runs r :: k) (hrun : exec (bthreadOnce T C F) s ls = some u) :
    u.stack t = s.stack t ∧ u.begun = s.begun ∧ u.finished = s.finished ∧ u.returned = s.returned := by
  have hstuck := (CallOnce.reachable_inv hs).stuck hnested
  obtain ⟨hu, hbegun, hfinished, hreturned⟩ := hstuck.exec hs hrun
  exact ⟨hu.2.trans hstuck.2.symm, hbegun, hfinished, hreturned⟩

/-- The routine for one thing initializes another; then a second thread comes, and waits too. -/
theorem bthreadOnce_nested_other_control : ∃ u : CallOnce.State Bool (Call ℕ ℕ),
    u.stack true = [.enters ⟨2, 20⟩, .runs ⟨1, 10⟩] ∧ u.stack false = [.enters ⟨3, 30⟩] ∧ u.returned = [] := by
  have hrun : (exec (bthreadOnce Bool ℕ ℕ) (.start Bool (Call ℕ ℕ)) [.call true ⟨1, 10⟩, .enter true,
      .call true ⟨2, 20⟩]).any (fun s => decide (s.stack true = [.enters ⟨2, 20⟩, .runs ⟨1, 10⟩] ∧
        (exec (bthreadOnce Bool ℕ ℕ) s [.call false ⟨3, 30⟩]).any (fun u =>
          decide (u.stack false = [.enters ⟨3, 30⟩])) = true ∧ s.returned = [])) = true := by decide
  obtain ⟨s, hs, hnested, hcall, hnone⟩ := of_exec_any hrun
  obtain ⟨u, hu, hother⟩ := of_exec_any hcall
  obtain ⟨hstack, -, -, hreturned⟩ := bthreadOnce_nested (reachable_exec (.init rfl) hs) hnested hu
  exact ⟨u, hstack.trans hnested, hother, hreturned.trans hnone⟩

end Cothread.Once
