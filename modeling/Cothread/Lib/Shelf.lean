import Mathlib.Data.List.Nodup
import Mathlib.Logic.Function.Basic

/-!
# Things on shelves

Every thing has a place, and a shelf is a list without duplicates of things whose place it is. So a thing lies on one
shelf only, and moving it is one update of its place (`Shelf.put`, `Shelf.take`), which the other shelves do not notice
(`Shelf.update`).
-/

namespace Places

variable {α ι : Type*} {place place' : α → ι} {l l' : List α} {p q : ι} {x : α}

/-- The list has no duplicates, and everything in it has the place `p`. -/
def Shelf (place : α → ι) (l : List α) (p : ι) : Prop := l.Nodup ∧ ∀ x ∈ l, place x = p

theorem shelf_nil : Shelf place [] p := ⟨List.nodup_nil, nofun⟩

theorem Shelf.notMem (h : Shelf place l p) (hx : place x ≠ p) : x ∉ l := fun hm => hx (h.2 x hm)

theorem Shelf.perm (h : Shelf place l p) (hp : l'.Perm l) : Shelf place l' p :=
  ⟨hp.nodup_iff.mpr h.1, fun x hx => h.2 x (hp.mem_iff.mp hx)⟩

theorem Shelf.sublist (h : Shelf place l p) (hs : l'.Sublist l) : Shelf place l' p :=
  ⟨hs.nodup h.1, fun x hx => h.2 x (hs.subset hx)⟩

theorem Shelf.congr (h : Shelf place l p) (hc : ∀ x ∈ l, place' x = place x) : Shelf place' l p :=
  ⟨h.1, fun x hx => (hc x hx).trans (h.2 x hx)⟩

variable [DecidableEq α]

/-- A thing that is not on the shelf gets another place. -/
theorem Shelf.update (h : Shelf place l p) (hx : x ∉ l) (q : ι) : Shelf (Function.update place x q) l p :=
  h.congr fun _ hy => Function.update_of_ne (ne_of_mem_of_not_mem hy hx) q place

/-- A thing is put on the shelf. -/
theorem Shelf.put (h : Shelf place l p) (hx : x ∉ l) : Shelf (Function.update place x p) (x :: l) p := by
  have hl := h.update hx p
  refine ⟨List.nodup_cons.mpr ⟨hx, h.1⟩, fun y hy => ?_⟩
  obtain rfl | hy := List.mem_cons.mp hy
  · exact Function.update_self ..
  · exact hl.2 y hy

/-- The first thing on the shelf is taken. -/
theorem Shelf.take (h : Shelf place (x :: l) p) (q : ι) : Shelf (Function.update place x q) l p :=
  (h.sublist (List.sublist_cons_self x l)).update (List.nodup_cons.mp h.1).1 q

end Places
