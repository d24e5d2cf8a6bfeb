import Mathlib.Logic.Function.Basic
import Mathlib.Data.List.Basic

/-!
# Runs of a labelled transition system

A system has initial states and a partial step function: `step s l` is the state after the step labelled `l`, or
`none` when that step is not enabled in `s`.

- `Reach M ok s`: a run from an initial state, every step of which meets `ok` in the state it is taken from, ends in
  `s`; `Reachable M s` puts no condition on the steps;
- the invariant rule (`Reach.invariant`) and its relative form (`Reach.invariant_of`), in which the step lemma may use
  what is already known of reachable states;
- execution of a list of labels (`exec`), which gives runs (`reach_exec`, `reachable_exec`) to tested states
  (`of_exec_any`), and the invariant rule for it (`exec_invariant`);
- a record of what the steps of a run have done (`System.recording`), beside a system that does not keep one; the
  record of all steps (`System.traced`), and the first step at which a run fails (`traced_iff`);
- a system with some of its labels only (`System.restrict`) or some of its states only (`System.within`);
- simulations (`Sim`), which carry reachability from one system to another (`Sim.reachable`).
-/

namespace Run

universe u v u' v'

/-- A labelled transition system with a partial step function. -/
structure System (S : Type u) (L : Type v) where
  init : S → Prop
  step : S → L → Option S

variable {S : Type u} {L : Type v} {S' : Type u'} {L' : Type v'}

/-- The states at the end of runs whose steps all meet `ok` in the state they are taken from. -/
inductive Reach (M : System S L) (ok : S → L → Prop) : S → Prop
  | init {s : S} : M.init s → Reach M ok s
  | step {s t : S} {l : L} : Reach M ok s → ok s l → M.step s l = some t → Reach M ok t

/-- The states at the end of any run. -/
abbrev Reachable (M : System S L) : S → Prop := Reach M fun _ _ => True

variable {M : System S L} {N : System S' L'} {ok ok' : S → L → Prop}

/-- A weaker condition allows more runs. -/
theorem Reach.mono (h : ∀ s l, ok s l → ok' s l) {s : S} (hs : Reach M ok s) : Reach M ok' s := by
  induction hs with
  | init h0 => exact .init h0
  | step _ hok hst ih => exact .step ih (h _ _ hok) hst

/-- A run under a condition is a run. -/
theorem Reach.reachable {s : S} (hs : Reach M ok s) : Reachable M s := hs.mono fun _ _ _ => trivial

/-- **The invariant rule.** -/
theorem Reach.invariant {I : S → Prop} (h0 : ∀ s, M.init s → I s)
    (hstep : ∀ s t l, I s → ok s l → M.step s l = some t → I t) {s : S} (hs : Reach M ok s) : I s := by
  induction hs with
  | init h => exact h0 _ h
  | step _ hok hst ih => exact hstep _ _ _ ih hok hst

/-- **The invariant rule**, relative to a fact `J` about reachable states. -/
theorem Reach.invariant_of {I J : S → Prop} (hJ : ∀ s, Reach M ok s → J s) (h0 : ∀ s, M.init s → I s)
    (hstep : ∀ s t l, J s → I s → ok s l → M.step s l = some t → I t) {s : S} (hs : Reach M ok s) : I s := by
  induction hs with
  | init h => exact h0 _ h
  | step hr hok hst ih => exact hstep _ _ _ (hJ _ hr) ih hok hst

/-! ## Execution of a list of labels -/

/-- The state after the steps `ls`, or `none` when one of them is not enabled. -/
def exec (M : System S L) (s : S) : List L → Option S
  | [] => some s
  | l :: ls => (M.step s l).bind fun t => exec M t ls

@[simp] theorem exec_nil (s : S) : exec M s [] = some s := rfl

@[simp] theorem exec_cons (s : S) (l : L) (ls : List L) :
    exec M s (l :: ls) = (M.step s l).bind fun t => exec M t ls := rfl

theorem exec_append (s : S) (ls ks : List L) :
    exec M s (ls ++ ks) = (exec M s ls).bind fun t => exec M t ks := by
  induction ls generalizing s with
  | nil => rfl
  | cons l ls ih =>
    simp only [List.cons_append, exec_cons, Option.bind_assoc]
    congr 1
    funext t
    exact ih t

/-- Two executions one after the other. -/
theorem exec_trans {s t u : S} {ls ks : List L} (h : exec M s ls = some t) (k : exec M t ks = some u) :
    exec M s (ls ++ ks) = some u := by
  rw [exec_append, h]
  exact k

/-- An execution continues a run. -/
theorem reachable_exec {s t : S} {ls : List L} (hs : Reachable M s) (h : exec M s ls = some t) : Reachable M t := by
  induction ls generalizing s with
  | nil => cases h; exact hs
  | cons l ls ih =>
    obtain ⟨u, hu, hr⟩ := Option.bind_eq_some_iff.mp h
    exact ih (.step hs trivial hu) hr

/-- **The invariant rule** for what comes after a state of a run. -/
theorem exec_invariant {I : S → Prop} (hstep : ∀ s t l, Reachable M s → I s → M.step s l = some t → I t) {s t : S}
    {ls : List L} (hs : Reachable M s) (hI : I s) (h : exec M s ls = some t) : I t := by
  induction ls generalizing s with
  | nil =>
    cases h
    exact hI
  | cons l ls ih =>
    obtain ⟨u, hu, hr⟩ := Option.bind_eq_some_iff.mp h
    exact ih (.step hs trivial hu) (hstep s u l hs hI hu) hr

/-- An execution whose last state is tested. -/
theorem of_exec_any {p : S → Prop} [DecidablePred p] {s : S} {ls : List L}
    (h : (exec M s ls).any (fun t => decide (p t)) = true) : ∃ t, exec M s ls = some t ∧ p t := by
  obtain ⟨t, ht, hp⟩ := (Option.any_eq_true _ _).mp h
  exact ⟨t, ht, of_decide_eq_true hp⟩

/-- Whether all steps of an execution meet a decidable condition. -/
def execOk (M : System S L) (ok : S → L → Prop) [∀ s l, Decidable (ok s l)] (s : S) : List L → Bool
  | [] => true
  | l :: ls => decide (ok s l) && (M.step s l).all fun t => execOk M ok t ls

/-- An execution whose steps meet a decidable condition continues a run under a weaker one. -/
theorem reach_exec [∀ s l, Decidable (ok' s l)] (himp : ∀ s l, ok' s l → ok s l) {s t : S} {ls : List L}
    (hs : Reach M ok s) (h : exec M s ls = some t) (hok : execOk M ok' s ls = true) : Reach M ok t := by
  induction ls generalizing s with
  | nil => cases h; exact hs
  | cons l ls ih =>
    obtain ⟨u, hu, hr⟩ := Option.bind_eq_some_iff.mp h
    simp only [execOk, hu, Option.all_some, Bool.and_eq_true, decide_eq_true_eq] at hok
    exact ih (.step hs (himp _ _ hok.1) hu) hr hok.2

/-! ## Records -/

/-- The system beside a record, to which every step adds. -/
def System.recording {H : Type*} (M : System S L) (h0 : H) (note : S → L → H → H) : System (S × H) L where
  init p := M.init p.1 ∧ p.2 = h0
  step p l := (M.step p.1 l).map fun t => (t, note p.1 l p.2)

/-- The system beside the steps of its run: the states they were taken from, and their labels. -/
def System.traced (M : System S L) : System (S × List (S × L)) L := M.recording [] fun s l h => h ++ [(s, l)]

/-- **Where a run first fails**: when the steps that meet `ok` keep an invariant under which a step does `F` exactly
when it meets `ok`, all the steps of a run do `F` exactly when they all meet `ok`. -/
theorem traced_iff {F : S → L → Prop} {I : S → Prop} (h0 : ∀ s, M.init s → I s)
    (hstep : ∀ s t l, I s → ok s l → M.step s l = some t → I t)
    (hiff : ∀ s t l, I s → M.step s l = some t → (F s l ↔ ok s l)) {s : S} {h : List (S × L)}
    (hs : Reachable M.traced (s, h)) : (∀ x ∈ h, F x.1 x.2) ↔ ∀ x ∈ h, ok x.1 x.2 := by
  -- up to the first step that does not meet `ok`, the invariant holds
  have hcases : I s ∧ (∀ x ∈ h, F x.1 x.2) ∧ (∀ x ∈ h, ok x.1 x.2) ∨
      (∃ x ∈ h, ¬F x.1 x.2) ∧ ∃ x ∈ h, ¬ok x.1 x.2 := by
    refine hs.invariant (I := fun y => I y.1 ∧ (∀ x ∈ y.2, F x.1 x.2) ∧ (∀ x ∈ y.2, ok x.1 x.2) ∨
      (∃ x ∈ y.2, ¬F x.1 x.2) ∧ ∃ x ∈ y.2, ¬ok x.1 x.2) ?_ ?_
    · rintro ⟨s, h⟩ ⟨hs, rfl⟩
      exact .inl ⟨h0 s hs, nofun, nofun⟩
    · rintro ⟨s, h⟩ t l hc - hst
      obtain ⟨t', ht', rfl⟩ := Option.map_eq_some_iff.mp hst
      obtain ⟨hi, hF, hok⟩ | ⟨⟨x, hx, hF⟩, y, hy, hok⟩ := hc
      · have hl := hiff s t' l hi ht'
        by_cases hgood : ok s l
        · refine .inl ⟨hstep s t' l hi hgood ht', fun x hx => ?_, fun x hx => ?_⟩ <;>
            obtain hx | hx := List.mem_append.mp hx
          · exact hF x hx
          · exact List.mem_singleton.mp hx ▸ hl.mpr hgood
          · exact hok x hx
          · exact List.mem_singleton.mp hx ▸ hgood
        · have hlast : (s, l) ∈ h ++ [(s, l)] := List.mem_append_right h List.mem_cons_self
          exact .inr ⟨⟨_, hlast, fun hF => hgood (hl.mp hF)⟩, _, hlast, hgood⟩
      · exact .inr ⟨⟨x, List.mem_append_left _ hx, hF⟩, y, List.mem_append_left _ hy, hok⟩
  obtain ⟨-, hF, hok⟩ | ⟨⟨x, hx, hF⟩, y, hy, hok⟩ := hcases
  · exact iff_of_true hF hok
  · exact iff_of_false (fun h => hF (h x hx)) fun h => hok (h y hy)

/-! ## Restriction -/

/-- The system with the labels in `P` only. -/
def System.restrict (M : System S L) (P : L → Prop) [DecidablePred P] : System S L where
  init := M.init
  step s l := if P l then M.step s l else none

/-- A run of the restriction is a run that takes no other labels. -/
theorem Reach.of_restrict {P : L → Prop} [DecidablePred P] {s : S} (hs : Reach (M.restrict P) ok s) :
    Reach M (fun s l => P l ∧ ok s l) s := by
  induction hs with
  | init h0 => exact .init h0
  | step _ hok hst ih =>
    obtain ⟨hP, hst⟩ := Option.ite_none_right_eq_some.mp hst
    exact .step ih ⟨hP, hok⟩ hst

/-- The system, stopped before it leaves `P`. -/
def System.within (M : System S L) (P : S → Prop) [DecidablePred P] : System S L where
  init := M.init
  step s l := (M.step s l).filter fun t => P t

theorem System.step_within {P : S → Prop} [DecidablePred P] {s t : S} {l : L} :
    (M.within P).step s l = some t ↔ M.step s l = some t ∧ P t := by
  rw [System.within, Option.filter_eq_some_iff, decide_eq_true_eq]

/-! ## Simulation -/

/-- Every step of `M` between related states is answered by an execution of `N`. -/
structure Sim (M : System S L) (N : System S' L') (R : S → S' → Prop) : Prop where
  init : ∀ s, M.init s → ∃ s', N.init s' ∧ R s s'
  step : ∀ s t l s', R s s' → M.step s l = some t → ∃ ls t', exec N s' ls = some t' ∧ R t t'

/-- Every state of a run of `M` is related to a state of a run of `N`. -/
theorem Sim.reachable {R : S → S' → Prop} (h : Sim M N R) {s : S} (hs : Reach M ok s) :
    ∃ s', Reachable N s' ∧ R s s' := by
  induction hs with
  | init h0 =>
    obtain ⟨s', h1, h2⟩ := h.init _ h0
    exact ⟨s', .init h1, h2⟩
  | step _ _ hst ih =>
    obtain ⟨s', h1, h2⟩ := ih
    obtain ⟨ls, t', h3, h4⟩ := h.step _ _ _ _ h2 hst
    exact ⟨t', reachable_exec h1 h3, h4⟩

end Run
