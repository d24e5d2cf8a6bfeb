import Mathlib.Data.Int.DivMod
import Mathlib.Algebra.Group.Int.Defs
import Mathlib.Algebra.Group.Nat.Defs

/-!
# Words and task states

The 32-bit `int` of generations and counters, the 64-bit one of times, and the states of a task.
-/

namespace Cothread

/-- A 32-bit `int` after an addition. -/
def wrap32 (i : Int) : Int := i.bmod (2 ^ 32)

/-- A generation that is incremented changes. -/
theorem wrap32_succ_ne (i : Int) : wrap32 (i + 1) ≠ i := by
  unfold wrap32
  intro h
  have hdvd := Int.bmod_emod (x := i + 1) (m := 2 ^ 32)
  omega

theorem wrap32_lt (i : Int) : wrap32 i < 2 ^ 31 := by
  have h := Int.bmod_lt (x := i) (m := 2 ^ 32) (by decide)
  unfold wrap32
  omega

theorem wrap32_eq {i : Int} (hle : -2 ^ 31 ≤ i) (hlt : i < 2 ^ 31) : wrap32 i = i :=
  Int.bmod_eq_of_le (by omega) (by omega)

/-- Wrapping once is enough. -/
theorem wrap32_add (i j : Int) : wrap32 (wrap32 i + j) = wrap32 (i + j) := Int.bmod_add_bmod

/-- A counter that has gone on without getting negative has not overflowed. -/
theorem of_wrap32_nonneg {i : Int} (hle : i ≤ 2 ^ 31) (h : 0 ≤ wrap32 i) : i < 2 ^ 31 := by
  refine Int.lt_iff_le_and_ne.mpr ⟨hle, ?_⟩
  rintro rfl
  exact absurd h (by decide)

/-- Only an overflow at the upper end makes a value smaller. -/
theorem le_wrap32 {i : Int} (h : i < 2 ^ 31) : i ≤ wrap32 i := by
  have hle := Int.le_bmod (x := i) (m := 2 ^ 32) (by decide)
  have hmod := Int.bmod_emod (x := i) (m := 2 ^ 32)
  unfold wrap32
  omega

/-- A 64-bit integer after an operation. -/
def wrap64 (i : Int) : Int := i.bmod 18446744073709551616

theorem wrap64_eq {i : Int} (hle : -2 ^ 63 ≤ i) (hlt : i < 2 ^ 63) : wrap64 i = i :=
  Int.bmod_eq_of_le (by omega) (by omega)

/-- Only an overflow at the lower end makes a value larger. -/
theorem wrap64_le {i : Int} (h : -2 ^ 63 ≤ i) : wrap64 i ≤ i := by
  have hlt := Int.bmod_lt (x := i) (m := 18446744073709551616) (by decide)
  have hmod := Int.bmod_emod (x := i) (m := 18446744073709551616)
  unfold wrap64
  omega

/-- `TaskState`. -/
inductive TaskState
  | ready
  | running
  | suspended
  | finished
  deriving DecidableEq

end Cothread
