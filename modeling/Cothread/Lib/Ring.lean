import Mathlib.Logic.Function.Basic
import Mathlib.Data.List.Basic

/-!
# Windows of a ring buffer

Positions count without bound and position `p` lies in slot `p % cap`. `Slots buf cap h xs`: the slots from position
`h` on hold `xs`. A window of fewer than `cap` elements is not touched by a write to the slot behind it.
-/

namespace Ring

variable {T : Type*}

/-- The slots from position `h` on hold the elements of the list. -/
def Slots (buf : Nat → Option T) (cap : Nat) : Nat → List T → Prop
  | _, [] => True
  | h, x :: xs => buf (h % cap) = some x ∧ Slots buf cap (h + 1) xs

variable {buf buf' : Nat → Option T} {cap h : Nat} {xs ys : List T} {x : T}

theorem slots_append : Slots buf cap h (xs ++ ys) ↔ Slots buf cap h xs ∧ Slots buf cap (h + xs.length) ys := by
  induction xs generalizing h with
  | nil => simp [Slots]
  | cons x xs ih =>
    have harith : h + 1 + xs.length = h + (xs.length + 1) := by omega
    simp only [List.cons_append, Slots, ih, List.length_cons, harith, and_assoc]

/-- A window depends on its own slots only. -/
theorem Slots.congr (hb : ∀ i < xs.length, buf' ((h + i) % cap) = buf ((h + i) % cap)) (hs : Slots buf cap h xs) :
    Slots buf' cap h xs := by
  induction xs generalizing h with
  | nil => trivial
  | cons x xs ih =>
    refine ⟨(hb 0 (Nat.zero_lt_succ _)).trans hs.1, ih (fun i hi => ?_) hs.2⟩
    have harith : h + 1 + i = h + (i + 1) := by omega
    rw [harith]
    exact hb (i + 1) (Nat.succ_lt_succ hi)

/-- Two positions less than a round apart lie in different slots. -/
theorem mod_ne {i j : Nat} (hij : i < j) (hj : j < i + cap) : i % cap ≠ j % cap := by
  intro he
  have hd : (j - i) % cap = 0 := Nat.sub_mod_eq_zero_of_mod_eq he.symm
  rw [Nat.mod_eq_of_lt (by omega)] at hd
  omega

/-- A write to the slot behind a window that is not full. -/
theorem Slots.write {v : Option T} (hlen : xs.length < cap) (hs : Slots buf cap h xs) :
    Slots (Function.update buf ((h + xs.length) % cap) v) cap h xs := by
  refine hs.congr fun i hi => Function.update_of_ne ?_ _ _
  exact mod_ne (by omega) (by omega)

/-- The slots of a window, read in order. -/
theorem Slots.map_range (hs : Slots buf cap h xs) :
    (List.range xs.length).map (fun i => buf ((h + i) % cap)) = xs.map some := by
  induction xs generalizing h with
  | nil => rfl
  | cons x xs ih =>
    have hx : buf ((h + 0) % cap) = some x := hs.1
    have hxs : (List.range xs.length).map (fun i => buf ((h + (i + 1)) % cap)) = xs.map some := by
      rw [← ih hs.2]
      refine List.map_congr_left fun i _ => ?_
      have harith : h + (i + 1) = h + 1 + i := by omega
      rw [harith]
    rw [List.length_cons, List.range_succ_eq_map, List.map_cons, List.map_map, List.map_cons, hx, ← hxs]
    rfl

end Ring
