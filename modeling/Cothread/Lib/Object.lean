import Mathlib.Data.List.Basic

/-!
# Objects: calls made of accesses, and sequences of calls

- A call in progress is the access it performs next. An access leads to the next one or to the call's answer;
  `Ends access m c m' r`: with nothing in between, the accesses from `c` on lead to the answer `r`.
- An object answers calls one at a time: `step s o` is the state after the call `o` and its answer, or `none` when the
  call is not allowed, or does not return. `run` gives the state after a sequence of calls and their answers.
- An object refines another one (`Refines`) when it answers every call that the other one answers in a related state,
  with the same answer, and goes on in a related state; then it does so in all sequences of calls (`Refines.run`).
- A function with a loop in it is given fuel. `Returns f r`: with enough fuel, `f` returns `r`. An object whose calls
  have loops refines another one (`RefinesInTime`) when its calls return the answers, and then so do all sequences of
  calls (`RefinesInTime.run`).
-/

namespace Object

universe u v w x

/-! ## Calls -/

section Calls

variable {M : Type u} {Pc : Type v} {R : Type w}

/-- The accesses of a call, one after the other: the memory and the answer that they lead to. -/
inductive Ends (access : M → Pc → M × (Pc ⊕ R)) : M → Pc ⊕ R → M → R → Prop
  | answer {m : M} {r : R} : Ends access m (.inr r) m r
  | access {m m' : M} {pc : Pc} {r : R} :
    Ends access (access m pc).1 (access m pc).2 m' r → Ends access m (.inl pc) m' r

variable {access : M → Pc → M × (Pc ⊕ R)} {m m₁ m' : M} {pc : Pc} {c : Pc ⊕ R} {r : R}

/-- What an access leads to. -/
theorem Ends.next (h : access m pc = (m₁, c)) (hc : Ends access m₁ c m' r) : Ends access m (.inl pc) m' r := by
  apply Ends.access
  rw [h]
  exact hc

/-- The last access. -/
theorem Ends.last (h : access m pc = (m', .inr r)) : Ends access m (.inl pc) m' r := .next h .answer

end Calls

/-! ## Sequences of calls -/

section Runs

variable {S : Type u} {A : Type x} {O : Type v} {R : Type w}

/-- The state after the calls `ops`, and the answers to them. -/
def run (step : S → O → Option (S × R)) (s : S) : List O → Option (S × List R)
  | [] => some (s, [])
  | o :: ops => (step s o).bind fun p => (run step p.1 ops).map fun q => (q.1, p.2 :: q.2)

variable {step : S → O → Option (S × R)} {spec : A → O → Option (A × R)}

/-- The first call, and the others. -/
theorem run_cons {s s' : S} {o : O} {ops : List O} {rs : List R} (h : run step s (o :: ops) = some (s', rs)) :
    ∃ s₁ r rs', step s o = some (s₁, r) ∧ run step s₁ ops = some (s', rs') ∧ rs = r :: rs' := by
  obtain ⟨⟨s₁, r⟩, hstep, hrun⟩ := Option.bind_eq_some_iff.mp h
  obtain ⟨⟨s₂, rs'⟩, hrest, heq⟩ := Option.map_eq_some_iff.mp hrun
  cases heq
  exact ⟨s₁, r, rs', hstep, hrest, rfl⟩

/-- A call that the abstract object answers is answered in the same way. -/
def Refines (step : S → O → Option (S × R)) (spec : A → O → Option (A × R)) (rel : S → A → Prop) : Prop :=
  ∀ s a o a' r, rel s a → spec a o = some (a', r) → ∃ s', step s o = some (s', r) ∧ rel s' a'

/-- **The refinement rule**: the answers are those of the abstract object. -/
theorem Refines.run {rel : S → A → Prop} (h : Refines step spec rel) {ops : List O} {s : S} {a a' : A} {rs : List R}
    (hrel : rel s a) (hspec : run spec a ops = some (a', rs)) :
    ∃ s', Object.run step s ops = some (s', rs) ∧ rel s' a' := by
  induction ops generalizing s a rs with
  | nil =>
    cases hspec
    exact ⟨s, rfl, hrel⟩
  | cons o ops ih =>
    obtain ⟨a₁, r, rs', ho, hops, rfl⟩ := run_cons hspec
    obtain ⟨s₁, hs₁, hrel₁⟩ := h s a o a₁ r hrel ho
    obtain ⟨s', hs', hrel'⟩ := ih hrel₁ hops
    refine ⟨s', ?_, hrel'⟩
    rw [Object.run, hs₁, Option.bind_some, hs', Option.map_some]

end Runs

/-! ## Fuel -/

section Fuel

variable {R : Type u} {Q : Type v} {f g : ℕ → Option R} {r : R}

/-- With enough fuel, `f` returns `r`. -/
def Returns (f : ℕ → Option R) (r : R) : Prop := ∃ n, ∀ fuel, n ≤ fuel → f fuel = some r

/-- What needs no fuel. -/
theorem Returns.pure (r : R) : Returns (fun _ => some r) r := ⟨0, fun _ _ => rfl⟩

/-- The last turn. -/
theorem Returns.last (h : ∀ fuel, f (fuel + 1) = some r) : Returns f r := by
  refine ⟨1, fun fuel hfuel => ?_⟩
  obtain ⟨n, rfl⟩ := Nat.exists_eq_add_of_le' hfuel
  exact h n

/-- One turn, and then the others. -/
theorem Returns.turn (hg : Returns g r) (h : ∀ fuel, f (fuel + 1) = g fuel) : Returns f r := by
  obtain ⟨n, hn⟩ := hg
  refine ⟨n + 1, fun fuel hfuel => ?_⟩
  obtain ⟨k, rfl⟩ := Nat.exists_eq_add_of_le' (Nat.le_of_add_left_le hfuel)
  rw [h]
  exact hn k (Nat.le_of_add_le_add_right hfuel)

/-- One call after the other. -/
theorem Returns.bind {q : Q} {k : R → ℕ → Option Q} (hf : Returns f r) (hk : Returns (k r) q) :
    Returns (fun fuel => (f fuel).bind fun a => k a fuel) q := by
  obtain ⟨n, hn⟩ := hf
  obtain ⟨n', hn'⟩ := hk
  refine ⟨max n n', fun fuel hfuel => ?_⟩
  have hle : n ≤ fuel := Nat.le_trans (Nat.le_max_left n n') hfuel
  have hle' : n' ≤ fuel := Nat.le_trans (Nat.le_max_right n n') hfuel
  show (f fuel).bind (fun a => k a fuel) = some q
  rw [hn fuel hle, Option.bind_some, hn' fuel hle']

theorem Returns.map {q : R → Q} (hf : Returns f r) : Returns (fun fuel => (f fuel).map q) (q r) := by
  obtain ⟨n, hn⟩ := hf
  refine ⟨n, fun fuel hfuel => ?_⟩
  simp only [hn fuel hfuel, Option.map_some]

end Fuel

section RunsInTime

variable {S : Type u} {A : Type x} {O : Type v} {R : Type w}
variable {step : ℕ → S → O → Option (S × R)} {spec : A → O → Option (A × R)}

/-- With enough fuel, a call that the abstract object answers is answered in the same way. -/
def RefinesInTime (step : ℕ → S → O → Option (S × R)) (spec : A → O → Option (A × R)) (rel : S → A → Prop) : Prop :=
  ∀ s a o a' r, rel s a → spec a o = some (a', r) → ∃ s', Returns (step · s o) (s', r) ∧ rel s' a'

/-- **The refinement rule, with fuel**: every sequence of calls returns the answers of the abstract object. -/
theorem RefinesInTime.run {rel : S → A → Prop} (h : RefinesInTime step spec rel) {ops : List O} {s : S} {a a' : A}
    {rs : List R} (hrel : rel s a) (hspec : run spec a ops = some (a', rs)) :
    ∃ s', Returns (fun fuel => Object.run (step fuel) s ops) (s', rs) ∧ rel s' a' := by
  induction ops generalizing s a rs with
  | nil =>
    cases hspec
    exact ⟨s, .pure _, hrel⟩
  | cons o ops ih =>
    obtain ⟨a₁, r, rs', ho, hops, rfl⟩ := run_cons hspec
    obtain ⟨s₁, hs₁, hrel₁⟩ := h s a o a₁ r hrel ho
    obtain ⟨s', hs', hrel'⟩ := ih hrel₁ hops
    let rest (p : S × R) (fuel : ℕ) := (Object.run (step fuel) p.1 ops).map fun q => (q.1, p.2 :: q.2)
    have hrest : Returns (rest (s₁, r)) (s', r :: rs') := hs'.map
    exact ⟨s', hs₁.bind hrest, hrel'⟩

end RunsInTime

end Object
