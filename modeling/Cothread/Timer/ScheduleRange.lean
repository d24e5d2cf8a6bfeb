import Cothread.Core.Basic
import Cothread.Lib.Run

/-!
# The arithmetic of `TimerThread::Schedule`

A `Schedule` after any number of others, with any timers pending. The id and the shard come from `next_id_` and
`shard_assign_`, 32-bit ints that overflow after 2^31 calls and come back to an old value after 2^32; the deadline is
the sum of the clock and the delay, in 64-bit arithmetic, and the delay in microseconds is a product that is not
checked. The id is one that `bthread_timer_cancel` accepts and no pending timer has, the shard is one in use, and the
deadline is not before now and does not go down as the delay goes up, if and only if the cursor is in its first half,
no timer that is a multiple of 2^32 calls older is pending, and the deadline is less than 2^63 (`schedule_iff`).
-/

namespace Cothread.ScheduleRange

open Run

def MAX_SHARDS : Int := 256

/-- `timespec`, as `bthread_timer_add` is given it. -/
structure Delay where
  sec : ℕ
  nsec : ℕ
  valid : nsec < 1000000000

/-- The delay in nanoseconds. -/
def Delay.nanos (d : Delay) : ℕ := d.sec * 1000000000 + d.nsec

/-- `deadline_us`. -/
def deadlineUs (now : Int) (d : Delay) : Int :=
  let delayUs := wrap64 (wrap64 (d.sec * 1000000) + (d.nsec : Int).tdiv 1000)
  wrap64 (now + delayUs)

/-- An entry in a heap, with the number of `Schedule` calls before its own. -/
structure Timer where
  id : Int
  shard : Int
  deadline : Int
  call : ℕ
  deriving DecidableEq

structure State where
  workerCount : Int
  nextId : Int
  shardAssign : Int
  calls : ℕ
  pending : List Timer

/-- `Init(worker_count)`. -/
def State.start (workerCount : Int) : State :=
  let n := min workerCount MAX_SHARDS
  ⟨if n ≤ 0 then 1 else n, 0, 0, 0, []⟩

/-- The timer of a `Schedule` at the time `now`. -/
def State.newTimer (s : State) (now : Int) (d : Delay) : Timer where
  id := s.nextId
  shard := s.shardAssign.tmod s.workerCount
  deadline := deadlineUs now d
  call := s.calls

/-- `Schedule(callback, arg, delay)`. -/
def State.schedule (s : State) (now : Int) (d : Delay) : State :=
  { s with
    nextId := wrap32 (s.nextId + 1)
    shardAssign := wrap32 (s.shardAssign + 1)
    calls := s.calls + 1
    pending := s.newTimer now d :: s.pending }

inductive Label
  | schedule (now : Int) (d : Delay)
  | take (e : Timer)  -- `ProcessShard` takes a timer from its heap

def step (s : State) : Label → Option State
  | .schedule now d => some (s.schedule now d)
  | .take e => if e ∈ s.pending then some { s with pending := s.pending.erase e } else none

/-- Any calls, after `Init` with any worker count. -/
def system : System State Label where
  init s := ∃ workerCount, s = .start workerCount
  step := step

/-- **What is expected of a call**: of its shard, its id, which `bthread_timer_cancel` accepts, and its deadline, also
in comparison to those of shorter delays. -/
structure Sound (s : State) (now : Int) (d : Delay) : Prop where
  shard : 0 ≤ (s.newTimer now d).shard ∧ (s.newTimer now d).shard < s.workerCount
  id : 0 ≤ (s.newTimer now d).id
  unique : ∀ e ∈ s.pending, e.id ≠ (s.newTimer now d).id
  notBefore : now ≤ (s.newTimer now d).deadline
  monotone : ∀ d₁ d₂ : Delay, d₁.nanos ≤ d₂.nanos → d₂.nanos ≤ d.nanos → deadlineUs now d₁ ≤ deadlineUs now d₂

/-! ## The deadline -/

/-- The delay in microseconds. -/
def Delay.micros (d : Delay) : ℕ := d.sec * 1000000 + d.nsec / 1000

/-- Only the sum counts. -/
theorem deadlineUs_eq (now : Int) (d : Delay) : deadlineUs now d = wrap64 (now + d.micros) := by
  have hdiv : (d.nsec : Int).tdiv 1000 = (d.nsec / 1000 : ℕ) := (Int.ofNat_tdiv d.nsec 1000).symm
  have hmul : ((d.sec * 1000000 : ℕ) : Int) = d.sec * 1000000 := Int.natCast_mul ..
  simp only [deadlineUs, wrap64, Int.bmod_add_bmod, Int.add_bmod_bmod, hdiv, Delay.micros, Int.natCast_add, hmul]

theorem micros_eq (d : Delay) : d.micros = d.nanos / 1000 := by
  unfold Delay.micros Delay.nanos
  omega

theorem micros_mono {d₁ d₂ : Delay} (h : d₁.nanos ≤ d₂.nanos) : d₁.micros ≤ d₂.micros := by
  rw [micros_eq, micros_eq]
  exact Nat.div_le_div_right h

/-- Every number of microseconds is one of a delay, which is no longer than any other with as many. -/
theorem exists_delay (m : ℕ) : ∃ d : Delay, d.micros = m ∧ ∀ d' : Delay, m ≤ d'.micros → d.nanos ≤ d'.nanos := by
  refine ⟨⟨m / 1000000, m % 1000000 * 1000, by omega⟩, ?_, fun d' h => ?_⟩
  · show m / 1000000 * 1000000 + m % 1000000 * 1000 / 1000 = m
    omega
  · have h' := d'.valid
    unfold Delay.micros at h
    show m / 1000000 * 1000000000 + m % 1000000 * 1000 ≤ d'.sec * 1000000000 + d'.nsec
    omega

/-- **The deadline** is as expected unless it overflows. -/
theorem deadline_iff {now : Int} (hle : -2 ^ 63 ≤ now) (hlt : now < 2 ^ 63) (d : Delay) :
    (now ≤ deadlineUs now d ∧ ∀ d₁ d₂ : Delay, d₁.nanos ≤ d₂.nanos → d₂.nanos ≤ d.nanos →
      deadlineUs now d₁ ≤ deadlineUs now d₂) ↔ now + d.micros < 2 ^ 63 := by
  have hfits (d' : Delay) (h : now + d'.micros < 2 ^ 63) : deadlineUs now d' = now + d'.micros := by
    rw [deadlineUs_eq]
    exact wrap64_eq (by omega) h
  constructor
  · rintro ⟨-, hmono⟩
    by_contra hover
    -- the longest delay that does not overflow, and the next one
    obtain ⟨d₁, hmicros₁, hleast₁⟩ := exists_delay (2 ^ 63 - now - 1).toNat
    obtain ⟨d₂, hmicros₂, hleast₂⟩ := exists_delay (2 ^ 63 - now).toNat
    have hlast : deadlineUs now d₁ = 9223372036854775807 := by
      rw [hfits d₁ (by omega)]
      omega
    have hwrap : deadlineUs now d₂ = -9223372036854775808 := by
      have hsum : now + d₂.micros = 9223372036854775808 := by omega
      rw [deadlineUs_eq, hsum]
      decide
    have hbad := hmono d₁ d₂ (hleast₁ d₂ (by omega)) (hleast₂ d (by omega))
    rw [hlast, hwrap] at hbad
    omega
  · intro h
    refine ⟨?_, fun d₁ d₂ h₁ h₂ => ?_⟩
    · rw [hfits d h]
      omega
    · have hm₁ := micros_mono h₁
      have hm₂ := micros_mono h₂
      rw [hfits d₁ (by omega), hfits d₂ (by omega)]
      omega

/-! ## The counters -/

/-- A counter after `k` increments is not negative in the first half of its cycle. -/
theorem counter_nonneg_iff (k : ℕ) : 0 ≤ wrap32 k ↔ k % 2 ^ 32 < 2 ^ 31 := by
  have hle := Int.le_bmod (x := (k : Int)) (m := 2 ^ 32) (by decide)
  have hlt := Int.bmod_lt (x := (k : Int)) (m := 2 ^ 32) (by decide)
  have hmod := Int.bmod_emod (x := (k : Int)) (m := 2 ^ 32)
  unfold wrap32
  omega

/-- A counter comes back to its value after 2^32 increments. -/
theorem counter_eq_iff (j k : ℕ) : wrap32 j = wrap32 k ↔ j % 2 ^ 32 = k % 2 ^ 32 := by
  have hj := Int.bmod_emod (x := (j : Int)) (m := 2 ^ 32)
  have hk := Int.bmod_emod (x := (k : Int)) (m := 2 ^ 32)
  unfold wrap32
  constructor
  · intro h
    rw [h] at hj
    omega
  · intro h
    have hmod : (j : Int) % ((2 ^ 32 : ℕ) : Int) = (k : Int) % ((2 ^ 32 : ℕ) : Int) := by omega
    rw [← Int.emod_bmod j, hmod, Int.emod_bmod]

/-- **The counters** count the calls. -/
structure Inv (s : State) : Prop where
  shards : 0 < s.workerCount
  id : s.nextId = wrap32 s.calls
  assign : s.shardAssign = wrap32 s.calls
  pending : ∀ e ∈ s.pending, e.id = wrap32 e.call

variable {s s' : State} {l : Label}

theorem inv_start (workerCount : Int) : Inv (.start workerCount) := by
  have hzero : (0 : Int) = wrap32 ((0 : ℕ) : Int) := by decide
  refine ⟨?_, hzero, hzero, fun e he => absurd he List.not_mem_nil⟩
  show 0 < if min workerCount MAX_SHARDS ≤ 0 then (1 : Int) else min workerCount MAX_SHARDS
  split
  · decide
  · omega

/-- **One call**. -/
theorem Inv.step (h : Inv s) (hst : step s l = some s') : Inv s' := by
  cases l with
  | schedule now d =>
    cases hst
    refine ⟨h.shards, ?_, ?_, fun e he => ?_⟩
    · show wrap32 (s.nextId + 1) = wrap32 (s.calls + 1 : ℕ)
      rw [h.id, wrap32_add]
      rfl
    · show wrap32 (s.shardAssign + 1) = wrap32 (s.calls + 1 : ℕ)
      rw [h.assign, wrap32_add]
      rfl
    · obtain rfl | he := List.mem_cons.mp he
      · exact h.id
      · exact h.pending e he
  | take e =>
    obtain ⟨he, hst⟩ := Option.ite_none_right_eq_some.mp hst
    cases hst
    exact ⟨h.shards, h.id, h.assign, fun e' he' => h.pending e' (List.mem_of_mem_erase he')⟩

theorem inv_reachable (hr : Reachable system s) : Inv s := by
  refine hr.invariant ?_ fun _ _ _ h _ hst => h.step hst
  rintro _ ⟨workerCount, rfl⟩
  exact inv_start workerCount

/-- Any number of calls. -/
theorem reachable_calls (workerCount : Int) (p : ℕ) : ∃ s, Reachable system s ∧ s.calls = p := by
  induction p with
  | zero => exact ⟨_, .init ⟨workerCount, rfl⟩, rfl⟩
  | succ p ih =>
    obtain ⟨s, hr, hcalls⟩ := ih
    have hst : step s (.schedule 0 ⟨0, 0, by decide⟩) = some (s.schedule 0 ⟨0, 0, by decide⟩) := rfl
    exact ⟨_, hr.step (l := .schedule 0 ⟨0, 0, by decide⟩) trivial hst, congrArg Nat.succ hcalls⟩

/-- **The overflow**: in the second half of its cycle `next_id_` gives ids that `bthread_timer_cancel` refuses. -/
theorem negative_id (hr : Reachable system s) (hcalls : 2 ^ 31 ≤ s.calls % 2 ^ 32) (now : Int) (d : Delay) :
    (s.newTimer now d).id < 0 := by
  have hid : (s.newTimer now d).id = wrap32 s.calls := (inv_reachable hr).id
  rw [hid]
  by_contra hnonneg
  have hlt := (counter_nonneg_iff s.calls).mp (Int.not_lt.mp hnonneg)
  omega

/-- **`Schedule` is sound** if and only if fewer than 2^31 calls of this cycle of 2^32 have been made, no timer of the
same number in an earlier cycle is pending, and the deadline is less than 2^63. -/
theorem schedule_iff (hr : Reachable system s) {now : Int} (hle : -2 ^ 63 ≤ now) (hlt : now < 2 ^ 63) (d : Delay) :
    Sound s now d ↔ s.calls % 2 ^ 32 < 2 ^ 31 ∧ (∀ e ∈ s.pending, e.call % 2 ^ 32 ≠ s.calls % 2 ^ 32) ∧
      now + d.micros < 2 ^ 63 := by
  have h := inv_reachable hr
  have hid : (s.newTimer now d).id = wrap32 s.calls := h.id
  have hpending : (∀ e ∈ s.pending, e.id ≠ (s.newTimer now d).id) ↔
      ∀ e ∈ s.pending, e.call % 2 ^ 32 ≠ s.calls % 2 ^ 32 := by
    refine forall₂_congr fun e he => not_congr ?_
    rw [hid, h.pending e he, counter_eq_iff]
  rw [← counter_nonneg_iff, ← hpending, ← deadline_iff hle hlt d, ← hid]
  constructor
  · intro hs
    exact ⟨hs.id, hs.unique, hs.notBefore, hs.monotone⟩
  · rintro ⟨hnonneg, hunique, hnotBefore, hmono⟩
    refine ⟨⟨Int.tmod_nonneg _ ?_, Int.tmod_lt_of_pos _ h.shards⟩, hnonneg, hunique, hnotBefore, hmono⟩
    rw [h.assign, ← hid]
    exact hnonneg

/-- A delay of 2^63 microseconds and more: the deadline is in the past. -/
theorem overflowing_delay : ¬∀ s, Reachable system s → ∀ (now : Int) (d : Delay), Sound s now d := by
  intro hall
  have hs := hall (.start 4) (.init ⟨4, rfl⟩) 1000000 ⟨9223372036854, 0, by decide⟩
  exact absurd hs.notBefore (by decide)

theorem schedule_iff_second : Sound (State.schedule (.start 4) 5 ⟨1, 0, by decide⟩) 7 ⟨0, 2500, by decide⟩ := by
  have hr : Reachable system (State.schedule (.start 4) 5 ⟨1, 0, by decide⟩) :=
    Reach.step (l := .schedule 5 ⟨1, 0, by decide⟩) (.init ⟨4, rfl⟩) trivial rfl
  refine (schedule_iff hr (by decide) (by decide) _).mpr ⟨by decide, fun e he => ?_, by decide⟩
  rw [List.mem_singleton.mp he]
  decide

end Cothread.ScheduleRange
