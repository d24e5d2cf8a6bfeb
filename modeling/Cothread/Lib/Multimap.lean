import Mathlib.Data.List.Sort

/-!
# A multimap as a list

The items of a multimap in the order of its iterators: by key, and items of one key in the order in which they came.
A stamp that grows with every item tells that order.

- a new item comes behind those whose key is at most its own (`emplace`, `mem_emplace`, `perm_emplace`);
- the items stay in order (`Ordered.emplace`), and the first one has a least key (`Ordered.key_le`).
-/

namespace Multimap

variable {α K : Type*} [LinearOrder K] {key : α → K} {stamp : α → ℕ} {a b e : α} {q : List α}

variable (key stamp) in
/-- One item comes before another. -/
def Before (a b : α) : Prop := key a < key b ∨ key a = key b ∧ stamp a < stamp b

variable (key stamp) in
/-- The items are in order. -/
def Ordered (q : List α) : Prop := q.Pairwise (Before key stamp)

variable (key) in
/-- A new item. -/
def emplace (e : α) (q : List α) : List α := q.orderedInsert (fun a b => key a < key b) e

theorem perm_emplace : (emplace key e q).Perm (e :: q) := List.perm_orderedInsert _ e q

theorem mem_emplace : a ∈ emplace key e q ↔ a = e ∨ a ∈ q := List.mem_orderedInsert _

theorem Before.key_le (h : Before key stamp a b) : key a ≤ key b := by
  obtain hlt | ⟨heq, -⟩ := h
  · exact hlt.le
  · exact heq.le

/-- What comes later has a greater key than all that it comes before. -/
theorem Before.key_lt (h : Before key stamp a b) (hstamp : stamp b < stamp a) : key a < key b := by
  obtain hlt | ⟨-, hlt⟩ := h
  · exact hlt
  · omega

/-- The first item has a least key. -/
theorem Ordered.key_le (h : Ordered key stamp (a :: q)) (hb : b ∈ a :: q) : key a ≤ key b := by
  obtain rfl | hb := List.mem_cons.mp hb
  · exact le_refl _
  · exact (List.rel_of_pairwise_cons h hb).key_le

/-- **A new item keeps the order.** -/
theorem Ordered.emplace (h : Ordered key stamp q) (he : ∀ a ∈ q, stamp a < stamp e) :
    Ordered key stamp (emplace key e q) := by
  induction q with
  | nil => exact List.pairwise_singleton _ e
  | cons b q ih =>
    obtain ⟨hb, hq⟩ := List.pairwise_cons.mp h
    rw [Multimap.emplace, List.orderedInsert_cons]
    split_ifs with hlt
    · refine List.pairwise_cons.mpr ⟨fun a ha => .inl ?_, h⟩
      exact lt_of_lt_of_le hlt (h.key_le ha)
    · refine List.pairwise_cons.mpr ⟨fun a ha => ?_, ih hq fun a ha => he a (List.mem_cons_of_mem b ha)⟩
      obtain rfl | ha := mem_emplace.mp ha
      · obtain hlt' | heq := (not_lt.mp hlt).lt_or_eq
        · exact .inl hlt'
        · exact .inr ⟨heq, he b List.mem_cons_self⟩
      · exact hb a ha

end Multimap
