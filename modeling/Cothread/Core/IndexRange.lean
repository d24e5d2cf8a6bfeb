import Cothread.Core.Basic
import Cothread.Lib.Run

/-!
# Worker and shard indices

The worker count goes from `bthread_set_worker_count` through `Init` into three arrays of 256 entries: `StartWorkers`
writes `workers_atomic_`, `RegisterIdleWorker` writes `idle_next_`, `Push` and `Pop` use `shards_`. Nothing on this way
looks at the upper bound that `GetWorker` checks (`out_of_range_many`). `Push` reduces `round_robin_`, a 32-bit `int`,
with `%`: after 2^31 calls the remainder is negative or zero (`cursor_iff`). The indices used so far are in range if and
only if there are at most 256 workers, and the cursor has not overflowed onto a number of shards that does not divide
its values (`inRange_iff`).
-/

namespace Cothread.IndexRange

open Run

def MAX_WORKERS : Int := 256

def MAX_SHARDS : Int := 256

/-- An access to one of the arrays. -/
inductive Access
  | workersAtomic (i : Int)  -- `StartWorkers`: `workers_atomic_[i].store(w)`
  | idleNext (i : Int)  -- `RegisterIdleWorker`: `idle_next_[i].store(old_head)`
  | shard (i : Int)  -- `Push` and `Pop`: `shards_[i]`
  deriving DecidableEq

structure State where
  configuredCount : Int
  initialized : Bool
  workerCount : Int  -- `worker_count_` of the scheduler, and of its global queue
  roundRobin : Int
  pushes : ℕ  -- how often `Push` has been called
  accesses : List Access

inductive Label
  | setWorkerCount (count : Int)  -- `bthread_set_worker_count(count)`
  | init (hardware : ℕ)  -- `Init()`, with what `hardware_concurrency` returns
  | registerIdleWorker (workerId : ℕ)
  | push
  | pop (workerId : Int) (turns : ℕ)  -- `Pop(worker_id)`, with the turns of its loop
  deriving DecidableEq

def State.start : State := ⟨0, false, 0, 0, 0, []⟩

/-- The worker count of `Init`. -/
def initCount (configured : Int) (hardware : ℕ) : Int :=
  if configured ≤ 0 then (if hardware = 0 then 4 else hardware) else configured

/-- `0, …, n - 1`. -/
def indices (n : ℕ) : List Int := (List.range n).map Nat.cast

/-- The shards that `Pop(worker_id)` looks into, with `n` shards: the worker's own, and those of its loop. -/
def popIndices (n workerId : Int) (turns : ℕ) : List Int :=
  (if 0 ≤ workerId ∧ workerId < n then [workerId] else []) ++ (indices turns).filter (· ≠ workerId)

def step (s : State) : Label → Option State
  | .setWorkerCount count => some (if count ≤ 0 ∨ 0 < s.workerCount then s else { s with configuredCount := count })
  | .init hardware =>
    let n := initCount s.configuredCount hardware
    if s.initialized then none
    else some { s with
      initialized := true
      workerCount := n
      accesses := s.accesses ++ (indices n.toNat).map .workersAtomic }
  | .registerIdleWorker workerId =>
    if workerId < s.workerCount then some { s with accesses := s.accesses ++ [.idleNext workerId] } else none
  | .push =>
    if s.initialized then
      some { s with
        roundRobin := wrap32 (s.roundRobin + 1)
        pushes := s.pushes + 1
        accesses := s.accesses ++ [.shard (s.roundRobin.tmod s.workerCount)] }
    else none
  | .pop workerId turns =>
    if turns ≤ s.workerCount then
      some { s with accesses := s.accesses ++ (popIndices s.workerCount workerId turns).map .shard }
    else none

/-- Any calls, in any order. -/
def system : System State Label where
  init s := s = .start
  step := step

/-- The index is one of the array, and one of a shard in use. -/
def Access.InRange (n : Int) : Access → Prop
  | .workersAtomic i | .idleNext i => 0 ≤ i ∧ i < MAX_WORKERS
  | .shard i => 0 ≤ i ∧ i < n ∧ i < MAX_SHARDS

/-- **In range**: all accesses so far. -/
def InRange (s : State) : Prop := ∀ a ∈ s.accesses, a.InRange s.workerCount

/-! ## The cursor -/

/-- The `Push` after `k` others uses a shard. -/
def Cursor (n : Int) (k : ℕ) : Prop := 0 ≤ wrap32 k ∨ n ∣ wrap32 k

/-- The remainder of `%` is a shard, unless it is negative. -/
theorem tmod_inRange {n i : Int} (hn : 0 < n) : 0 ≤ i.tmod n ∧ i.tmod n < n ↔ 0 ≤ i ∨ n ∣ i := by
  have hlt : i.tmod n < n := Int.tmod_lt_of_pos i hn
  constructor
  · rintro ⟨hle, -⟩
    by_cases hi : 0 ≤ i
    · exact Or.inl hi
    · refine Or.inr (Int.dvd_of_tmod_eq_zero ?_)
      have hneg := Int.tmod_nonneg n (show 0 ≤ -i by omega)
      rw [Int.neg_tmod] at hneg
      omega
  · rintro (hi | hi)
    · exact ⟨Int.tmod_nonneg n hi, hlt⟩
    · rw [Int.tmod_eq_zero_of_dvd hi]
      omega

/-- **The cursor** stays on the shards until it overflows, and then only while it is divisible. -/
theorem cursor_iff {n : Int} (hn : 0 ≤ n) (p : ℕ) :
    (∀ k < p, Cursor n k) ↔ n = 1 ∨ p ≤ 2 ^ 31 ∨ p = 2 ^ 31 + 1 ∧ n ∣ 2 ^ 31 := by
  have hsmall (k : ℕ) (hk : k < 2 ^ 31) : wrap32 k = k := wrap32_eq (by omega) (by omega)
  have hfirst : wrap32 ((2 ^ 31 : ℕ) : Int) = -2 ^ 31 := by decide
  have hsecond : wrap32 ((2 ^ 31 + 1 : ℕ) : Int) = -2 ^ 31 + 1 := by decide
  constructor
  · intro h
    by_cases hp : p ≤ 2 ^ 31
    · exact Or.inr (Or.inl hp)
    · -- the first negative value of the cursor
      have hdvd : n ∣ 2 ^ 31 := by
        obtain hle | hdvd := h (2 ^ 31) (by omega)
        · rw [hfirst] at hle
          exact absurd hle (by decide)
        · rw [hfirst] at hdvd
          exact (Int.dvd_neg).mp hdvd
      by_cases hp' : p = 2 ^ 31 + 1
      · exact Or.inr (Or.inr ⟨hp', hdvd⟩)
      · -- the second one: `n` divides both
        left
        obtain hle | hdvd' := h (2 ^ 31 + 1) (by omega)
        · rw [hsecond] at hle
          exact absurd hle (by decide)
        · rw [hsecond] at hdvd'
          have hone : n ∣ 1 := by
            have hsum := Int.dvd_add hdvd hdvd'
            exact hsum
          exact Int.eq_one_of_dvd_one hn hone
  · rintro (rfl | hp | ⟨rfl, hdvd⟩) k hk
    · exact Or.inr (Int.one_dvd _)
    · left
      rw [hsmall k (by omega)]
      exact Int.natCast_nonneg k
    · by_cases hlast : k = 2 ^ 31
      · right
        rw [hlast, hfirst]
        exact Int.dvd_neg.mpr hdvd
      · left
        rw [hsmall k (by omega)]
        exact Int.natCast_nonneg k

/-! ## The indices -/

theorem mem_indices {n : ℕ} {i : Int} : i ∈ indices n ↔ 0 ≤ i ∧ i < n := by
  simp only [indices, List.mem_map, List.mem_range]
  constructor
  · rintro ⟨k, hk, rfl⟩
    omega
  · intro hi
    exact ⟨i.toNat, by omega, by omega⟩

/-- `Pop` looks into shards in use only. -/
theorem mem_popIndices {n w i : Int} {turns : ℕ} (hturns : turns ≤ n) (hi : i ∈ popIndices n w turns) :
    0 ≤ i ∧ i < n := by
  unfold popIndices at hi
  obtain hi | hi := List.mem_append.mp hi
  · by_cases hw : 0 ≤ w ∧ w < n
    · rw [if_pos hw] at hi
      rw [List.mem_singleton.mp hi]
      exact hw
    · rw [if_neg hw] at hi
      cases hi
  · have hmem := mem_indices.mp (List.mem_of_mem_filter hi)
    omega

/-- `StartWorkers` stays inside the array when there are not too many workers. -/
theorem startWorkers_inRange {n : Int} (hn : 0 < n) :
    (∀ a ∈ (indices n.toNat).map Access.workersAtomic, a.InRange n) ↔ n ≤ 256 := by
  constructor
  · intro h
    by_cases hle : n ≤ 256
    · exact hle
    · have hmem : (256 : Int) ∈ indices n.toNat := mem_indices.mpr (by omega)
      exact absurd (h _ (List.mem_map_of_mem hmem)).2 (by decide)
  · intro hle a ha
    obtain ⟨i, hi, rfl⟩ := List.mem_map.mp ha
    have hrange := mem_indices.mp hi
    show 0 ≤ i ∧ i < 256
    omega

theorem initCount_pos (configured : Int) (hardware : ℕ) : 0 < initCount configured hardware := by
  unfold initCount
  split
  · split
    · decide
    · omega
  · omega

/-- **Which accesses are in range** after any calls. -/
structure Inv (s : State) : Prop where
  fresh : s.initialized = false → s.workerCount = 0 ∧ s.pushes = 0 ∧ s.accesses = []
  started : s.initialized = true → 0 < s.workerCount
  robin : s.roundRobin = wrap32 s.pushes
  range : InRange s ↔ s.workerCount ≤ 256 ∧ ∀ k < s.pushes, Cursor s.workerCount k

variable {s s' : State} {l : Label}

/-- More accesses. -/
theorem inRange_append {news : List Access} (hcount : s'.workerCount = s.workerCount)
    (haccesses : s'.accesses = s.accesses ++ news) :
    InRange s' ↔ InRange s ∧ ∀ a ∈ news, a.InRange s.workerCount := by
  unfold InRange
  rw [hcount, haccesses]
  simp only [List.mem_append, or_imp, forall_and]

/-- Accesses that are in range when there are not too many workers. -/
theorem Inv.extend (h : Inv s) {news : List Access} (hnone : s.workerCount = 0 → news = [])
    (hnews : s.workerCount ≤ 256 → ∀ a ∈ news, a.InRange s.workerCount) :
    Inv { s with accesses := s.accesses ++ news } := by
  refine ⟨fun hfresh => ?_, h.started, h.robin, ?_⟩
  · obtain ⟨hcount, hpushes, haccesses⟩ := h.fresh hfresh
    exact ⟨hcount, hpushes, by rw [haccesses, hnone hcount, List.append_nil]⟩
  have happend : InRange { s with accesses := s.accesses ++ news } ↔
      InRange s ∧ ∀ a ∈ news, a.InRange s.workerCount := inRange_append rfl rfl
  rw [happend, h.range]
  exact ⟨fun hrange => hrange.1, fun hrange => ⟨hrange, hnews hrange.1⟩⟩

/-- **One call**. -/
theorem Inv.step (h : Inv s) (hst : step s l = some s') : Inv s' := by
  cases l with
  | setWorkerCount count =>
    cases hst
    split
    · exact h
    · exact ⟨h.fresh, h.started, h.robin, h.range⟩
  | init hardware =>
    obtain ⟨hfresh, hst⟩ := Option.ite_none_left_eq_some.mp hst
    cases hst
    obtain ⟨hcount, hpushes, haccesses⟩ := h.fresh (Bool.eq_false_iff.mpr hfresh)
    have hpos := initCount_pos s.configuredCount hardware
    refine ⟨nofun, fun _ => hpos, h.robin, ?_⟩
    unfold InRange
    simp only [haccesses, hpushes, List.nil_append, Nat.not_lt_zero, false_implies, implies_true, and_true]
    exact startWorkers_inRange hpos
  | registerIdleWorker workerId =>
    obtain ⟨hworker, hst⟩ := Option.ite_none_right_eq_some.mp hst
    cases hst
    refine h.extend (fun hcount => by omega) fun hle a ha => ?_
    rw [List.mem_singleton.mp ha]
    show 0 ≤ (workerId : Int) ∧ (workerId : Int) < 256
    omega
  | push =>
    obtain ⟨hstarted, hst⟩ := Option.ite_none_right_eq_some.mp hst
    cases hst
    have hpos := h.started hstarted
    refine ⟨fun hfresh => absurd (hstarted.symm.trans hfresh) (by decide), h.started, ?_, ?_⟩
    · show wrap32 (s.roundRobin + 1) = wrap32 ((s.pushes + 1 : ℕ) : Int)
      rw [h.robin, wrap32_add]
      rfl
    · have happend : InRange { s with
          roundRobin := wrap32 (s.roundRobin + 1)
          pushes := s.pushes + 1
          accesses := s.accesses ++ [.shard (s.roundRobin.tmod s.workerCount)] } ↔
          InRange s ∧ ∀ a ∈ [Access.shard (s.roundRobin.tmod s.workerCount)], a.InRange s.workerCount :=
        inRange_append rfl rfl
      rw [happend, h.range]
      have hnew : s.workerCount ≤ 256 →
          ((∀ a ∈ [Access.shard (s.roundRobin.tmod s.workerCount)], a.InRange s.workerCount) ↔
            Cursor s.workerCount s.pushes) := by
        intro hle
        rw [List.forall_mem_singleton, h.robin]
        refine Iff.trans ?_ (tmod_inRange hpos)
        show (_ ∧ _ ∧ _ < 256) ↔ _
        omega
      show (s.workerCount ≤ 256 ∧ _) ∧ _ ↔ s.workerCount ≤ 256 ∧ ∀ k < s.pushes + 1, Cursor s.workerCount k
      rw [Nat.forall_lt_succ_right, and_assoc]
      refine and_congr_right fun hle => and_congr_right fun _ => hnew hle
  | pop workerId turns =>
    obtain ⟨hturns, hst⟩ := Option.ite_none_right_eq_some.mp hst
    cases hst
    refine h.extend (fun hcount => ?_) fun hle a ha => ?_
    · refine List.eq_nil_iff_forall_not_mem.mpr fun a ha => ?_
      obtain ⟨i, hi, -⟩ := List.mem_map.mp ha
      have hmem := mem_popIndices hturns hi
      omega
    · obtain ⟨i, hi, rfl⟩ := List.mem_map.mp ha
      have hmem := mem_popIndices hturns hi
      show 0 ≤ i ∧ i < s.workerCount ∧ i < 256
      omega

theorem inv_reachable (hr : Reachable system s) : Inv s := by
  refine hr.invariant ?_ fun _ _ _ h _ hst => h.step hst
  rintro _ rfl
  have hnone : InRange .start := fun a ha => nomatch ha
  have hfew : State.start.workerCount ≤ 256 := by decide
  have hzero : wrap32 ((0 : ℕ) : Int) = 0 := by decide
  refine ⟨fun _ => ⟨rfl, rfl, rfl⟩, nofun, hzero.symm, iff_of_true hnone ⟨hfew, fun k hk => ?_⟩⟩
  exact absurd hk (Nat.not_lt_zero k)

/-- Any number of `Push` calls with any number of workers. -/
theorem reachable_pushes {count : Int} (hcount : 0 < count) (p : ℕ) :
    ∃ s, Reachable system s ∧ s.initialized = true ∧ s.workerCount = count ∧ s.pushes = p := by
  induction p with
  | zero =>
    have hset : step .start (.setWorkerCount count) = some { State.start with configuredCount := count } := by
      have hok : ¬(count ≤ 0 ∨ 0 < State.start.workerCount) := not_or.mpr ⟨by omega, by decide⟩
      simp only [step, if_neg hok]
    have hinit : initCount count 0 = count := if_neg (by omega)
    have hr : Reachable system { State.start with configuredCount := count } :=
      Reach.step (l := .setWorkerCount count) (.init rfl) trivial hset
    have hst : step { State.start with configuredCount := count } (.init 0) = some
        ⟨count, true, initCount count 0, 0, 0, (indices (initCount count 0).toNat).map .workersAtomic⟩ := rfl
    exact ⟨_, hr.step (l := .init 0) trivial hst, rfl, hinit, rfl⟩
  | succ p ih =>
    obtain ⟨s, hr, hstarted, hworkers, hpushes⟩ := ih
    have hst : step s .push = some { s with
        roundRobin := wrap32 (s.roundRobin + 1)
        pushes := s.pushes + 1
        accesses := s.accesses ++ [.shard (s.roundRobin.tmod s.workerCount)] } := if_pos hstarted
    exact ⟨_, hr.step (l := .push) trivial hst, hstarted, hworkers, congrArg Nat.succ hpushes⟩

/-- **The overflow**: call number 2^31 + 1 uses a negative index, unless the number of workers divides 2^31. -/
theorem out_of_range_late {count : Int} (hcount : 0 < count) (hdvd : ¬count ∣ 2 ^ 31) :
    ∃ s, Reachable system s ∧ s.workerCount = count ∧ s.pushes = 2 ^ 31 + 1 ∧ ¬InRange s := by
  obtain ⟨s, hr, -, hworkers, hpushes⟩ := reachable_pushes hcount (2 ^ 31 + 1)
  refine ⟨s, hr, hworkers, hpushes, fun hrange => ?_⟩
  have hcursor := ((inv_reachable hr).range.mp hrange).2
  rw [hworkers, hpushes] at hcursor
  obtain rfl | hle | ⟨-, h⟩ := (cursor_iff (Int.le_of_lt hcount) _).mp hcursor
  · exact hdvd (Int.one_dvd _)
  · exact absurd hle (by decide)
  · exact hdvd h

/-- **The indices are in range** if and only if there are at most 256 workers and the cursor of `Push` has not
overflowed onto negative remainders: there is one worker, or at most 2^31 calls, or one more and a number of workers
that divides 2^31. -/
theorem inRange_iff (hr : Reachable system s) :
    InRange s ↔ s.workerCount ≤ 256 ∧
      (s.workerCount = 1 ∨ s.pushes ≤ 2 ^ 31 ∨ s.pushes = 2 ^ 31 + 1 ∧ s.workerCount ∣ 2 ^ 31) := by
  have h := inv_reachable hr
  have hcount : 0 ≤ s.workerCount := by
    cases hinit : s.initialized with
    | false => exact Int.le_of_eq (h.fresh hinit).1.symm
    | true => exact Int.le_of_lt (h.started hinit)
  rw [h.range, cursor_iff hcount]

/-- `workers_atomic_[256]` is written with 257 workers. -/
theorem out_of_range_many : ¬∀ s, Reachable system s → InRange s := by
  intro hall
  have hrun : (exec system .start [.setWorkerCount 257, .init 0]).any
      (fun s => decide (Access.workersAtomic 256 ∈ s.accesses)) = true := by decide +kernel
  obtain ⟨s, hs, hmem⟩ := of_exec_any hrun
  have hrange := hall s (reachable_exec (.init rfl) hs) _ hmem
  exact absurd hrange.2 (by decide)

theorem inRange_iff_three : ∃ s, Reachable system s ∧ s.workerCount = 3 ∧ InRange s := by
  have hrun : (exec system .start [.setWorkerCount 3, .init 0, .push, .registerIdleWorker 2, .pop 1 3]).any
      (fun s => decide (s.workerCount = 3 ∧ s.pushes = 1)) = true := by decide +kernel
  obtain ⟨s, hs, hcount, hpushes⟩ := of_exec_any hrun
  have hr := reachable_exec (M := system) (.init rfl) hs
  refine ⟨s, hr, hcount, (inRange_iff hr).mpr ⟨?_, Or.inr (Or.inl ?_)⟩⟩
  · rw [hcount]
    decide
  · rw [hpushes]
    decide

end Cothread.IndexRange
