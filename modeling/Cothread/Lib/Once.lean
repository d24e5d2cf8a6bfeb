import Mathlib.Algebra.BigOperators.Group.Finset.Basic
import Mathlib.Algebra.Order.BigOperators.Group.Finset

/-!
# At most one, over all places

`Once c`: the counts that `c` gives to places add up to at most one. It is how a program that hands a thing from place
to place keeps it from being in two of them: a step that only moves counts between finitely many places keeps it
(`Once.spread`, `Once.move`), and so does a step that puts the thing somewhere when it was nowhere (`Once.insert`).
-/

namespace Places

variable {L : Type*}

/-- The counts of all places add up to at most one. -/
def Once (c : L → ℕ) : Prop := ∀ K : Finset L, ∑ a ∈ K, c a ≤ 1

variable {c d : L → ℕ} {a b : L}

theorem Once.le_one (h : Once c) (a : L) : c a ≤ 1 := by simpa using h {a}

/-- **Uniqueness**: what is counted is in one place. -/
theorem Once.unique (h : Once c) (ha : 0 < c a) (hb : 0 < c b) : a = b := by
  classical
  by_contra hne
  have hsum := h {a, b}
  rw [Finset.sum_pair hne] at hsum
  omega

/-- Nothing is anywhere else. -/
theorem Once.eq_zero (h : Once c) (ha : 0 < c a) (hne : b ≠ a) : c b = 0 := by
  by_contra hb
  exact hne (h.unique (by omega) ha)

/-- **Redistribution** over finitely many places, and loss anywhere. -/
theorem Once.spread (h : Once c) (K : Finset L) (hK : ∑ a ∈ K, d a ≤ ∑ a ∈ K, c a) (hle : ∀ a ∉ K, d a ≤ c a) :
    Once d := by
  classical
  intro F
  calc ∑ a ∈ F, d a ≤ ∑ a ∈ F ∪ K, d a := Finset.sum_le_sum_of_subset Finset.subset_union_left
    _ = ∑ a ∈ F \ K, d a + ∑ a ∈ K, d a := by
      rw [← Finset.sdiff_union_self_eq_union, Finset.sum_union Finset.sdiff_disjoint]
    _ ≤ ∑ a ∈ F \ K, c a + ∑ a ∈ K, c a :=
      Nat.add_le_add (Finset.sum_le_sum fun a ha => hle a (Finset.mem_sdiff.mp ha).2) hK
    _ = ∑ a ∈ F ∪ K, c a := by
      rw [← Finset.sdiff_union_self_eq_union, Finset.sum_union Finset.sdiff_disjoint]
    _ ≤ 1 := h _

theorem Once.mono (h : Once c) (hle : ∀ a, d a ≤ c a) : Once d := h.spread ∅ (by simp) fun a _ => hle a

/-- A move from `a` to `b`. -/
theorem Once.move (h : Once c) (hne : a ≠ b) (hab : d a + d b ≤ c a + c b) (hle : ∀ i, i ≠ a → i ≠ b → d i ≤ c i) :
    Once d := by
  classical
  refine h.spread {a, b} ?_ fun i hi => ?_
  · rw [Finset.sum_pair hne, Finset.sum_pair hne]
    exact hab
  · simp only [Finset.mem_insert, Finset.mem_singleton, not_or] at hi
    exact hle i hi.1 hi.2

/-- Something is put at `b`, and was nowhere. -/
theorem Once.insert (hc : ∀ i, c i = 0) (hb : d b ≤ 1) (hle : ∀ i, i ≠ b → d i ≤ c i) : Once d := by
  classical
  intro K
  calc ∑ a ∈ K, d a ≤ ∑ a ∈ Insert.insert b K, d a := Finset.sum_le_sum_of_subset (Finset.subset_insert b K)
    _ = d b + ∑ a ∈ K.erase b, d a := by
      rw [← Finset.insert_erase (Finset.mem_insert_self b K), Finset.sum_insert (Finset.notMem_erase b _),
        Finset.erase_insert_eq_erase]
    _ = d b := by
      rw [Finset.sum_eq_zero fun i hi => ?_, Nat.add_zero]
      have := hle i (Finset.ne_of_mem_erase hi)
      rw [hc i] at this
      omega
    _ ≤ 1 := hb

end Places
