import Cothread.Lib.Run

/-!
# `call_once`

Threads that call routines through one flag. The first call to come takes the flag and runs its routine, the others wait
until the routine has returned, and then return without running theirs. A routine that throws gives the flag back. A
routine may itself call through the flag.

- at any time, one routine at most is running, and the routines begun are those that have thrown, and one more at most
  (`Inv`);
- **one routine at most returns** (`reachable_inv`);
- **a call in the routine is for ever** (`Stuck.exec`): after it no call returns, in any thread.
-/

namespace CallOnce

open Run

/-- The flag, with the thread that runs its routine. -/
inductive Flag (T : Type*)
  | fresh
  | running (t : T)
  | done
  deriving DecidableEq

/-- A call that a thread is in. -/
inductive Frame (R : Type*)
  | enters (r : R)
  | runs (r : R)
  deriving DecidableEq

structure State (T R : Type*) where
  flag : Flag T
  stack : T → List (Frame R)  -- the calls that a thread is in, the innermost first
  begun : List R  -- the routines that have been begun
  thrown : List R  -- those that have thrown
  finished : List R  -- those that have returned
  returned : List R  -- the routines of the calls that have returned

inductive Label (T R : Type*)
  | call (t : T) (r : R)
  | enter (t : T)
  | finish (t : T)
  | throw (t : T)
  deriving DecidableEq

/-- Nobody has called. -/
def State.start (T R : Type*) : State T R := ⟨.fresh, fun _ => [], [], [], [], []⟩

variable {T R : Type*} [DecidableEq T]

def State.setStack (s : State T R) (t : T) (k : List (Frame R)) : State T R :=
  { s with stack := Function.update s.stack t k }

/-- One step: a thread outside, or in a routine, calls; a call takes the flag or finds the routine done, and waits
otherwise; a routine returns, or throws. -/
def step (s : State T R) : Label T R → Option (State T R)
  | .call t r =>
    match s.stack t with
    | .enters _ :: _ => none
    | k => some (s.setStack t (.enters r :: k))
  | .enter t =>
    match s.stack t with
    | .enters r :: k =>
      match s.flag with
      | .fresh => some { s.setStack t (.runs r :: k) with flag := .running t, begun := s.begun ++ [r] }
      | .running _ => none
      | .done => some { s.setStack t k with returned := s.returned ++ [r] }
    | _ => none
  | .finish t =>
    match s.stack t with
    | .runs r :: k => some
        { s.setStack t k with flag := .done, finished := s.finished ++ [r], returned := s.returned ++ [r] }
    | _ => none
  | .throw t =>
    match s.stack t with
    | .runs r :: k => some { s.setStack t k with flag := .fresh, thrown := s.thrown ++ [r] }
    | _ => none

@[simp] theorem stack_setStack_self (s : State T R) (t : T) (k : List (Frame R)) : (s.setStack t k).stack t = k :=
  Function.update_self ..

theorem stack_setStack_of_ne (s : State T R) {t v : T} (k : List (Frame R)) (h : v ≠ t) :
    (s.setStack t k).stack v = s.stack v :=
  Function.update_of_ne h ..

variable (T R) in
/-- Calls through one flag. -/
def system : System (State T R) (Label T R) where
  init s := s = .start T R
  step := step

/-! ## The invariant -/

/-- The calls that the flag lets a thread be in. -/
def Flag.Allows (f : Flag T) (t : T) : List (Frame R) → Prop
  | [] | [.enters _] => f ≠ .running t
  | [.runs _] | [.enters _, .runs _] => f = .running t
  | _ => False

/-- What has happened to the routines. -/
def State.Books (s : State T R) : Prop :=
  match s.flag with
  | .fresh => s.begun = s.thrown ∧ s.finished = [] ∧ s.returned = []
  | .running t => (∃ r, s.begun = s.thrown ++ [r] ∧ .runs r ∈ s.stack t) ∧ s.finished = [] ∧ s.returned = []
  | .done => ∃ r, s.begun = s.thrown ++ [r] ∧ s.finished = [r]

structure Inv (s : State T R) : Prop where
  allows : ∀ t, s.flag.Allows t (s.stack t)
  books : s.Books

variable {f f' : Flag T} {s u : State T R} {t v : T} {r : R} {k : List (Frame R)} {l : Label T R}

omit [DecidableEq T] in
/-- The calls of a thread that does not have the flag. -/
theorem Flag.Allows.congr (h : f.Allows v k) (hf : f ≠ .running v) (hf' : f' ≠ .running v) : f'.Allows v k := by
  match k with
  | [] | [.enters _] => exact hf'
  | [.runs _] | [.enters _, .runs _] => exact absurd h hf

omit [DecidableEq T] in
/-- A thread in a routine has the flag, and its only other call is one in the routine. -/
theorem Flag.Allows.of_runs (h : f.Allows t (.runs r :: k)) : f = .running t ∧ k = [] := by
  match k with
  | [] => exact ⟨h, rfl⟩

/-- A thread goes on, and gets the flag or gives it back. -/
theorem allows_setStack (h : ∀ v, s.flag.Allows v (s.stack v)) (hf : ∀ v, v ≠ t → s.flag ≠ .running v)
    (hf' : ∀ v, v ≠ t → f ≠ .running v) (hk : f.Allows t k) (v : T) : f.Allows v ((s.setStack t k).stack v) := by
  by_cases hv : v = t
  · rw [hv, stack_setStack_self]
    exact hk
  · rw [stack_setStack_of_ne s k hv]
    exact (h v).congr (hf v hv) (hf' v hv)

/-- **A call**. -/
theorem Inv.call (h : Inv s) (hk : s.stack t = k) (hnot : ∀ r k', k ≠ .enters r :: k') :
    Inv (s.setStack t (.enters r :: k)) := by
  have hmine := h.allows t
  rw [hk] at hmine
  constructor
  case allows =>
    intro v
    by_cases hv : v = t
    · rw [hv, stack_setStack_self]
      match k with
      | [] => exact hmine
      | [.runs _] => exact hmine
      | .enters r :: k' => exact absurd rfl (hnot r k')
    · rw [stack_setStack_of_ne s _ hv]
      exact h.allows v
  case books =>
    have hbooks := h.books
    unfold State.Books at hbooks ⊢
    have hsame : (s.setStack t (.enters r :: k)).flag = s.flag := rfl
    rw [hsame]
    cases hflag : s.flag with
    | fresh | done =>
      rw [hflag] at hbooks
      exact hbooks
    | running v =>
      rw [hflag] at hbooks
      obtain ⟨⟨r', hbegun, hmem⟩, hrest⟩ := hbooks
      refine ⟨⟨r', hbegun, ?_⟩, hrest⟩
      by_cases hv : v = t
      · subst hv
        rw [stack_setStack_self]
        exact List.mem_cons_of_mem _ (hk ▸ hmem)
      · rw [stack_setStack_of_ne s _ hv]
        exact hmem

theorem Inv.step (h : Inv s) (hst : step s l = some u) : Inv u := by
  have hbooks := h.books
  cases l with
  | call t r =>
    simp only [CallOnce.step] at hst
    split at hst
    · cases hst
    · next k hk =>
      cases hst
      exact h.call rfl hk
  | enter t =>
    have hmine := h.allows t
    simp only [CallOnce.step] at hst
    split at hst
    · next r k hk =>
      rw [hk] at hmine
      split at hst
      · next hflag =>
        -- it takes the flag
        cases hst
        rw [hflag] at hmine
        obtain rfl : k = [] := by
          match k with
          | [] => rfl
          | [.runs _] => cases hmine
        refine ⟨allows_setStack h.allows (by simp [hflag]) (fun v hv => by simpa using Ne.symm hv) rfl, ?_⟩
        unfold State.Books at hbooks
        rw [hflag] at hbooks
        obtain ⟨hbegun, hrest⟩ := hbooks
        have hstack : .runs r ∈ (s.setStack t [.runs r]).stack t := by simp
        exact ⟨⟨r, congrArg (· ++ [r]) hbegun, hstack⟩, hrest⟩
      · cases hst
      · next hflag =>
        cases hst
        rw [hflag] at hmine
        obtain rfl : k = [] := by
          match k with
          | [] => rfl
          | [.runs _] => cases hmine
        constructor
        case allows =>
          have hflag' : ({ s.setStack t [] with returned := s.returned ++ [r] } : State T R).flag = .done := hflag
          rw [hflag']
          exact allows_setStack h.allows (by simp [hflag]) (by simp) (by simp [Flag.Allows])
        case books =>
          unfold State.Books at hbooks ⊢
          rw [hflag] at hbooks
          simp only [State.setStack, hflag]
          exact hbooks
    · cases hst
  | finish t | throw t =>
    have hmine := h.allows t
    simp only [CallOnce.step] at hst
    split at hst
    · next r k hk =>
      cases hst
      rw [hk] at hmine
      obtain ⟨hflag, rfl⟩ := hmine.of_runs
      refine ⟨allows_setStack h.allows (fun v hv => ?_) (by simp) (by simp [Flag.Allows]), ?_⟩
      · simpa [hflag] using Ne.symm hv
      unfold State.Books at hbooks
      rw [hflag] at hbooks
      obtain ⟨⟨r', hbegun, hmem⟩, hfinished, hreturned⟩ := hbooks
      obtain rfl : r' = r := by simpa [hk] using hmem
      simp [State.Books, State.setStack, hbegun, hfinished, hreturned]
    · cases hst

/-- **The invariant of every run.** -/
theorem reachable_inv (hs : Reachable (system T R) s) : Inv s := by
  refine hs.invariant (fun s h => ?_) fun s u l h _ hst => h.step hst
  cases h
  exact ⟨fun t => by simp [State.start, Flag.Allows], rfl, rfl, rfl⟩

/-! ## A call in the routine -/

/-- The thread has called in the routine that it runs. -/
def Stuck (s : State T R) (t : T) (r r' : R) : Prop := s.flag = .running t ∧ s.stack t = [.enters r', .runs r]

omit [DecidableEq T] in
theorem Inv.stuck {r' : R} (h : Inv s) (hstack : s.stack t = .enters r' :: .runs r :: k) : Stuck s t r r' := by
  have hmine := h.allows t
  rw [hstack] at hmine
  match k with
  | [] => exact ⟨hmine, hstack⟩

/-- It waits for itself, and all others for it. -/
theorem Stuck.step {r' : R} (h : Stuck s t r r') (hinv : Inv s) (hst : step s l = some u) :
    Stuck u t r r' ∧ u.begun = s.begun ∧ u.finished = s.finished ∧ u.returned = s.returned := by
  obtain ⟨hflag, hstack⟩ := h
  cases l with
  | call v q =>
    simp only [CallOnce.step] at hst
    split at hst
    · cases hst
    · next k hk =>
      cases hst
      have hv : t ≠ v := by
        rintro rfl
        exact hk _ _ hstack
      exact ⟨⟨hflag, (stack_setStack_of_ne s _ hv).trans hstack⟩, rfl, rfl, rfl⟩
  | enter v =>
    simp only [CallOnce.step, hflag] at hst
    split at hst <;> cases hst
  | finish v | throw v =>
    simp only [CallOnce.step] at hst
    split at hst
    · next q k hk =>
      have hmine := hinv.allows v
      rw [hk] at hmine
      have hv : t = v := Flag.running.inj (hflag.symm.trans hmine.of_runs.1)
      rw [← hv, hstack] at hk
      cases hk
    · cases hst

/-- **The run lemma**: no call returns. -/
theorem Stuck.exec {r' : R} {ls : List (Label T R)} (h : Stuck s t r r') (hs : Reachable (system T R) s)
    (hrun : exec (system T R) s ls = some u) :
    Stuck u t r r' ∧ u.begun = s.begun ∧ u.finished = s.finished ∧ u.returned = s.returned := by
  refine exec_invariant (I := fun u => Stuck u t r r' ∧ u.begun = s.begun ∧ u.finished = s.finished ∧
    u.returned = s.returned) (fun u v l hu h hst => ?_) hs ⟨h, rfl, rfl, rfl⟩ hrun
  obtain ⟨hstuck, hbegun, hfinished, hreturned⟩ := h
  obtain ⟨hv, hbegun', hfinished', hreturned'⟩ := hstuck.step (reachable_inv hu) hst
  exact ⟨hv, hbegun'.trans hbegun, hfinished'.trans hfinished, hreturned'.trans hreturned⟩

end CallOnce
