import Mathlib.Data.List.Perm.Subperm
import Mathlib.Data.List.Nodup
import Mathlib.Data.List.Basic
import Mathlib.Data.List.FinRange

/-!
# A counter that counts

`Counts p n`: the predicate `p` holds of exactly `n` things, of a type that may be infinite. It relates a counter of a
program to the parties that have incremented it: a party that joins increments it (`Counts.insert`), a party that leaves
decrements it (`Counts.erase`), and it is positive while some party is in (`Counts.pos`). What can be
embedded in other counted things is no more than they are (`Counts.embed`).
-/

namespace Count

variable {J : Type*}

/-- The predicate holds of exactly `n` things. -/
def Counts (p : J → Prop) (n : Int) : Prop := ∃ l : List J, l.Nodup ∧ (∀ j, j ∈ l ↔ p j) ∧ n = l.length

variable {p p' : J → Prop} {n : Int} {j : J}

theorem Counts.congr (h : Counts p n) (hp : ∀ i, p' i ↔ p i) : Counts p' n := by
  obtain ⟨l, hnd, hl, hn⟩ := h
  exact ⟨l, hnd, fun i => (hl i).trans (hp i).symm, hn⟩

theorem Counts.zero (h : ∀ i, ¬p i) : Counts p 0 := ⟨[], List.nodup_nil, by simpa using h, rfl⟩

/-- Nothing is counted when the counter is 0. -/
theorem Counts.pos (h : Counts p n) (hj : p j) : 0 < n := by
  obtain ⟨l, _, hl, rfl⟩ := h
  have := List.length_pos_of_mem ((hl j).mpr hj)
  omega

/-- `j` joins. -/
theorem Counts.insert (h : Counts p n) (hj : ¬p j) (hp : ∀ i, p' i ↔ i = j ∨ p i) : Counts p' (n + 1) := by
  obtain ⟨l, hnd, hl, rfl⟩ := h
  refine ⟨j :: l, List.nodup_cons.mpr ⟨fun hm => hj ((hl j).mp hm), hnd⟩, fun i => ?_, by simp⟩
  rw [List.mem_cons, hl, hp]

/-- `j` leaves. -/
theorem Counts.erase [DecidableEq J] (h : Counts p n) (hj : p j) (hp : ∀ i, p' i ↔ i ≠ j ∧ p i) :
    Counts p' (n - 1) := by
  obtain ⟨l, hnd, hl, rfl⟩ := h
  have hm := (hl j).mpr hj
  refine ⟨l.erase j, hnd.erase j, fun i => ?_, ?_⟩
  · rw [hnd.mem_erase_iff, hl, hp]
  · have hlen := List.length_erase_add_one hm
    omega

theorem Counts.nonneg (h : Counts p n) : 0 ≤ n := by
  obtain ⟨l, -, -, rfl⟩ := h
  exact Int.natCast_nonneg _

/-- What is counted among the things of another type is no more than what is counted there. -/
theorem Counts.embed {I : Type*} {q : I → Prop} {m : Int} (h : Counts q m) (h' : Counts p n) (f : I → J)
    (hf : Function.Injective f) (hq : ∀ i, q i → p (f i)) : m ≤ n := by
  obtain ⟨l, hnd, hl, rfl⟩ := h
  obtain ⟨l', -, hl', rfl⟩ := h'
  have hsub : l.map f ⊆ l' := fun i hi => by
    obtain ⟨k, hk, rfl⟩ := List.mem_map.mp hi
    exact (hl' (f k)).mpr (hq k ((hl k).mp hk))
  have hlen := (List.subperm_of_subset (hnd.map hf) hsub).length_le
  rw [List.length_map] at hlen
  exact Int.ofNat_le.mpr hlen

/-- A predicate is counted once. -/
theorem Counts.unique {m : Int} (h : Counts p n) (h' : Counts p m) : n = m :=
  Int.le_antisymm (h.embed h' id Function.injective_id fun _ hi => hi)
    (h'.embed h id Function.injective_id fun _ hi => hi)

/-- Everything of a finite type. -/
theorem Counts.all {k : ℕ} {p : Fin k → Prop} (h : ∀ i, p i) : Counts p k :=
  ⟨List.finRange k, List.nodup_finRange k, fun i => iff_of_true (List.mem_finRange i) (h i), by simp⟩

/-- `j` may join. -/
theorem Counts.grow (h : Counts p n) (hj : p j → p' j) (hp : ∀ i, i ≠ j → (p' i ↔ p i)) :
    ∃ m, n ≤ m ∧ Counts p' m := by
  by_cases hjoin : p' j ∧ ¬p j
  · refine ⟨n + 1, by omega, h.insert hjoin.2 fun i => ?_⟩
    by_cases hi : i = j
    · exact ⟨fun _ => Or.inl hi, fun _ => hi ▸ hjoin.1⟩
    · rw [hp i hi, or_iff_right hi]
  · refine ⟨n, Int.le_refl n, h.congr fun i => ?_⟩
    by_cases hi : i = j
    · subst hi
      exact ⟨fun h' => by_contra fun hno => hjoin ⟨h', hno⟩, hj⟩
    · exact hp i hi

end Count
