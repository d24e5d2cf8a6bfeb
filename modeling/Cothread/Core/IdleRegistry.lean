import Cothread.Lib.Chain
import Cothread.Lib.Run

/-!
# The idle-worker registry of `Scheduler`

`idle_head_` and `idle_next_` are a stack of workers, with one link for each worker. `WaitForTask` registers its worker
before every futex wait, also when an earlier wait has timed out or was skipped and nobody has popped the worker since.
A worker that registers while it is on the stack closes the stack to a cycle (`not_proper_again`), and loses the workers
above it when it is the first (`lost_behind_cycle`). While no worker registers when it is on the stack, the stack stays
a list of all registered workers (`stays_proper`).
-/

namespace Cothread.Idle

open Run Chain

/-- `idle_head_` and `idle_next_`; `none` is the id -1. -/
structure Registry (W : Type*) where
  head : Option W
  next : W → Option W

variable {W : Type*}

/-- `RegisterIdleWorker`. -/
def Registry.registerIdleWorker [DecidableEq W] (r : Registry W) (w : W) : Registry W :=
  { head := some w, next := Function.update r.next w r.head }

/-- `PopIdleWorker`. -/
def Registry.popIdleWorker (r : Registry W) : Registry W × Option W :=
  match r.head with
  | none => (r, none)
  | some w => ({ r with head := r.next w }, some w)

/-- The results of `n` calls of `PopIdleWorker`. -/
def Registry.pops : ℕ → Registry W → List (Option W)
  | 0, _ => []
  | n + 1, r => r.popIdleWorker.2 :: Registry.pops n r.popIdleWorker.1

/-- The registry, and the workers that have registered since they were last popped. -/
structure State (W : Type*) where
  registry : Registry W
  waiting : W → Bool

inductive Label (W : Type*)
  | register (w : W)
  | pop
  deriving DecidableEq

/-- One call. -/
def step [DecidableEq W] (s : State W) : Label W → Option (State W)
  | .register w => some ⟨s.registry.registerIdleWorker w, Function.update s.waiting w true⟩
  | .pop => some ⟨s.registry.popIdleWorker.1,
      match s.registry.popIdleWorker.2 with
      | none => s.waiting
      | some w => Function.update s.waiting w false⟩

/-- Any calls, on a registry without workers. -/
def system (W : Type*) [DecidableEq W] : System (State W) (Label W) where
  init s := s.registry.head = none ∧ ∀ w, s.waiting w = false
  step := step

/-- **A proper list**: the chain from `idle_head_` ends without repeating a worker, and the workers that have registered
since they were last popped are on it; repeated calls of `PopIdleWorker` return its workers and then -1. -/
def Proper (s : State W) : Prop :=
  ∃ q : List W, q.Nodup ∧ Path s.registry.next s.registry.head q ∧ (∀ w, s.waiting w = true → w ∈ q) ∧
    s.registry.pops (q.length + 1) = q.map some ++ [none]

/-- A worker registers while it is on the chain. -/
def Again (s : State W) : Label W → Prop
  | .register w => Reaches s.registry.next s.registry.head w
  | .pop => False

/-- Repeated pops return the workers of the chain. -/
theorem pops_path : ∀ {q : List W} {r : Registry W}, Path r.next r.head q →
    r.pops (q.length + 1) = q.map some ++ [none]
  | [], r, h => by
    have hh : r.head = none := h
    simp [Registry.pops, Registry.popIdleWorker, hh]
  | w :: q, r, h => by
    have hpop : r.popIdleWorker = ({ r with head := r.next w }, some w) := by
      simp only [Registry.popIdleWorker, h.1]
    rw [List.length_cons, Registry.pops, hpop, pops_path (r := { r with head := r.next w }) h.2]
    rfl

theorem proper_iff {s : State W} : Proper s ↔
    ∃ q : List W, q.Nodup ∧ Path s.registry.next s.registry.head q ∧ ∀ w, s.waiting w = true → w ∈ q :=
  ⟨fun ⟨q, hnd, hp, hw, _⟩ => ⟨q, hnd, hp, hw⟩, fun ⟨q, hnd, hp, hw⟩ => ⟨q, hnd, hp, hw, pops_path hp⟩⟩

section Steps

variable [DecidableEq W]

/-- **What one call preserves.** -/
theorem proper_step {s t : State W} {l : Label W} (h : Proper s) (hok : ¬Again s l) (hst : step s l = some t) :
    Proper t := by
  obtain ⟨q, hnd, hp, hw⟩ := proper_iff.mp h
  refine proper_iff.mpr ?_
  cases l with
  | register w =>
    cases hst
    have hwq : w ∉ q := fun hm => hok (hp.reaches_iff.mpr hm)
    refine ⟨w :: q, List.nodup_cons.mpr ⟨hwq, hnd⟩, hp.push hwq, fun v hv => ?_⟩
    · by_cases hvw : v = w
      · exact hvw ▸ List.mem_cons_self
      · exact List.mem_cons_of_mem w (hw v (by simpa [hvw] using hv))
  | pop =>
    cases q with
    | nil =>
      have hhead : s.registry.head = none := hp
      simp only [step, Registry.popIdleWorker, hhead, Option.some.injEq] at hst
      subst hst
      exact ⟨[], hnd, hp, hw⟩
    | cons w q =>
      simp only [step, Registry.popIdleWorker, hp.1, Option.some.injEq] at hst
      subst hst
      refine ⟨q, (List.nodup_cons.mp hnd).2, hp.2, fun v hv => ?_⟩
      have hvw : v ≠ w := by
        rintro rfl
        simp at hv
      exact (List.mem_cons.mp (hw v (by simpa [hvw] using hv))).resolve_left hvw

/-- **A worker that registers while it is on the chain** closes the chain to a cycle. -/
theorem not_proper_again {s t : State W} {l : Label W} (h : Proper s) (hag : Again s l) (hst : step s l = some t) :
    ¬Proper t := by
  cases l with
  | pop => exact absurd hag not_false
  | register w =>
    cases hst
    obtain ⟨q, hnd, hp, -⟩ := proper_iff.mp h
    intro ht
    obtain ⟨q', hnd', hp', -⟩ := proper_iff.mp ht
    obtain ⟨l, r, rfl⟩ := List.append_of_mem (hp.reaches_iff.mp hag)
    -- the chain leads from `w` through the workers above it back to `w`
    have hseg : Seg (Function.update s.registry.next w s.registry.head) (some w) (w :: l) (some w) := by
      refine ⟨rfl, ?_⟩
      rw [Function.update_self]
      refine (path_append.mp hp).1.congr fun x hx => Function.update_of_ne ?_ _ _
      rintro rfl
      exact (List.nodup_append.mp hnd).2.2 x hx x List.mem_cons_self rfl
    obtain ⟨t, rfl, hpt⟩ := hp'.split hseg
    have hwt : w ∈ t := List.mem_of_head? hpt.head.symm
    exact (List.nodup_append.mp hnd').2.2 w List.mem_cons_self w hwt rfl

/-- **The registry stays a proper list** in a run in which no worker registers while it is on the chain, and the first
call that does so ends that. -/
theorem stays_proper : (∀ s : State W, Reach (system W) (fun s l => ¬Again s l) s → Proper s) ∧
    ∀ (s t : State W) (l : Label W), Proper s → step s l = some t → (Proper t ↔ ¬Again s l) := by
  refine ⟨fun s hs => hs.invariant (fun s h0 => ?_) fun s t l h hok hst => proper_step h hok hst, fun s t l h hst => ?_⟩
  · refine proper_iff.mpr ⟨[], List.nodup_nil, h0.1, fun w hw => ?_⟩
    rw [h0.2 w] at hw
    cases hw
  · exact ⟨fun ht hag => not_proper_again h hag hst ht, fun hok => proper_step h hok hst⟩

end Steps

/-- A worker is registered while at most one is, and that is another one. -/
def registersBeforeLast (s : State Bool) : Label Bool → Bool
  | .register w => s.registry.head != some w && s.registry.head.all fun v => (s.registry.next v).isNone
  | .pop => true

/-- Two workers register, the second is popped, and it registers again. -/
theorem stays_proper_two : ∃ s : State Bool, s.registry.head = some true ∧ s.waiting false = true ∧ Proper s ∧
    ∀ t, step s .pop = some t → (Proper t ↔ ¬Again s .pop) := by
  have himp : ∀ s l, registersBeforeLast s l = true → ¬Again s l := by
    intro s l h hag
    cases l with
    | pop => exact hag
    | register w =>
      obtain ⟨hne, hall⟩ := Bool.and_eq_true_iff.mp h
      change Reaches s.registry.next s.registry.head w at hag
      generalize s.registry.head = p at hne hall hag
      cases hag with
      | here => simp at hne
      | there hr =>
        rw [Option.isNone_iff_eq_none.mp hall] at hr
        cases hr
  have hp := stays_proper.1 _ (reach_exec himp (.init ⟨rfl, fun _ => rfl⟩) (show exec (system Bool)
    ⟨⟨none, fun _ => none⟩, fun _ => false⟩ [.register false, .register true, .pop, .register true] = some _ from rfl)
    (by decide))
  exact ⟨_, rfl, rfl, hp, fun t => stays_proper.2 _ t _ hp⟩

/-- A worker that links to itself is returned for ever. -/
theorem pops_cycle {r : Registry W} {w : W} (hh : r.head = some w) (hn : r.next w = some w) (n : ℕ) :
    r.pops n = List.replicate n (some w) := by
  have hpop : r.popIdleWorker = (r, some w) := by
    obtain ⟨head, next⟩ := r
    cases hh
    simp only [Registry.popIdleWorker]
    rw [show next w = some w from hn]
  induction n with
  | zero => rfl
  | succ n ih => rw [Registry.pops, List.replicate_succ, hpop, ih]

/-- **Workers lost behind a cycle**: worker 1 waits, then worker 0; the wait of worker 0 times out, and it waits
again. `PopIdleWorker` returns worker 0 for ever. -/
theorem lost_behind_cycle : ∃ s : State Bool, Reachable (system Bool) s ∧ ¬Proper s ∧ s.waiting true = true ∧
    ∀ n, s.registry.pops n = List.replicate n (some false) := by
  have hreach : Reachable (system Bool) _ := reachable_exec (.init ⟨rfl, fun _ => rfl⟩) (show exec (system Bool)
    ⟨⟨none, fun _ => none⟩, fun _ => false⟩ [.register true, .register false, .register false] = some _ from rfl)
  refine ⟨_, hreach, ?_, rfl, pops_cycle rfl rfl⟩
  rintro ⟨q, -, -, -, hpops⟩
  rw [pops_cycle (w := false) rfl rfl] at hpops
  have hmem : none ∈ List.replicate (q.length + 1) (some false) := by
    rw [hpops]
    simp
  cases List.eq_of_mem_replicate hmem

end Cothread.Idle
