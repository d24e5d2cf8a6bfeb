import Mathlib.Data.Nat.Bitwise

/-!
# Rounding down with a mask

A mask and its complement divide the bits of a word among them (`toNat_and_add_and_not`), so clearing the low `k` bits
rounds down to a multiple of `2 ^ k` (`toNat_and_not_low`).
-/

namespace Mask

variable {w : ℕ}

/-- A word is the sum of what a mask keeps and what it clears. -/
theorem toNat_and_add_and_not (x m : BitVec w) : (x &&& m).toNat + (x &&& ~~~m).toNat = x.toNat := by
  have hdisj : (x &&& m) &&& (x &&& ~~~m) = 0#w := by
    ext i hi
    simp only [BitVec.getElem_and, BitVec.getElem_not, BitVec.getElem_zero]
    cases m[i] <;> simp
  have hjoin : (x &&& m) ||| (x &&& ~~~m) = x := by
    ext i hi
    simp only [BitVec.getElem_or, BitVec.getElem_and, BitVec.getElem_not]
    cases m[i] <;> simp
  rw [← BitVec.toNat_add_of_and_eq_zero hdisj, BitVec.add_eq_or_of_and_eq_zero _ _ hdisj, hjoin]

/-- **Rounding down**: the low `k` bits are cleared. -/
theorem toNat_and_not_low (x : BitVec w) {m : BitVec w} {k : ℕ} (hm : m.toNat = 2 ^ k - 1) :
    (x &&& ~~~m).toNat = x.toNat - x.toNat % 2 ^ k := by
  have hsum := toNat_and_add_and_not x m
  have hlow : (x &&& m).toNat = x.toNat % 2 ^ k := by
    rw [BitVec.toNat_and, hm, Nat.and_two_pow_sub_one_eq_mod]
  omega

end Mask
