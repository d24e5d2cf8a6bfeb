import Cothread.Timer.ProcessShard
import Mathlib.Data.Int.ConditionallyCompleteOrder
import Mathlib.Order.ConditionallyCompleteLattice.Basic

/-!
# `RemoveFromHeap` reads behind the end

`RemoveFromHeap` moves the last element of `heap_` into the place of the entry, shortens `heap_`, and compares the
moved element with its parent. When the entry was the last element itself, its place is gone by then, and the
comparison reads `heap_[idx]` at the new size. `PopFromHeap` sifts only when `heap_` is not empty; here nothing asks
whether `idx` is still below the size.

Every access of `heap_` is checked in the model: one at an index that is not below the size is a fault. `SiftDown` has
no faults, and `SiftUp` none when it starts below the size; there they are the sifts of a binary heap (`siftDown_ok`,
`siftUp_ok`). So the entry is removed in all other cases, and also when it is the only one: then nothing is compared
(`removes_iff`).
-/

namespace Cothread.Timer

open BinaryHeap

/-- Why a call has no result. -/
inductive Fault
  | outOfRange  -- an access at an index that is not below the size
  | outOfTurns  -- a loop has not ended after the turns that it was given
  deriving DecidableEq

variable {E : Type} {C : Type*}

/-! ## The code -/

/-- `heap_[i]`, read. -/
def access (heap : List E) (i : ℕ) : Except Fault E :=
  match heap[i]? with
  | some e => .ok e
  | none => .error .outOfRange

/-- `heap_[i] = e`. -/
def assign (heap : List E) (i : ℕ) (e : E) : Except Fault (List E) :=
  if i < heap.length then .ok (heap.set i e) else .error .outOfRange

/-- `std::swap(heap_[i], heap_[j])`. -/
def swapEntries (heap : List E) (i j : ℕ) : Except Fault (List E) := do
  let a ← access heap i
  let b ← access heap j
  let heap ← assign heap i b
  assign heap j a

section Code

variable (entry : E → Entry C)

/-- `heap_[i]->deadline_us < heap_[j]->deadline_us`. -/
def earlier (heap : List E) (i j : ℕ) : Except Fault Bool := do
  let a ← access heap i
  let b ← access heap j
  return decide ((entry a).deadline < (entry b).deadline)

/-- `if (child < n && heap_[child]->deadline_us < heap_[smallest]->deadline_us) smallest = child;`. -/
def smallerChild (heap : List E) (child smallest : ℕ) : Except Fault ℕ :=
  if child < heap.length then do
    if ← earlier entry heap child smallest then return child else return smallest
  else return smallest

/-- The loop of `SiftDown`, in at most so many turns. -/
def siftDownLoop : ℕ → List E → ℕ → Except Fault (List E)
  | 0, _, _ => .error .outOfTurns
  | turns + 1, heap, idx => do
    let smallest ← smallerChild entry heap (2 * idx + 1) idx
    let smallest ← smallerChild entry heap (2 * idx + 2) smallest
    if smallest = idx then return heap
    else
      let heap ← swapEntries heap idx smallest
      siftDownLoop turns heap smallest

/-- `SiftDown(idx)`. -/
def siftDown (heap : List E) (idx : ℕ) : Except Fault (List E) := siftDownLoop entry (heap.length + 1) heap idx

/-- The loop of `SiftUp`, in at most so many turns. -/
def siftUpLoop : ℕ → List E → ℕ → Except Fault (List E)
  | 0, _, _ => .error .outOfTurns
  | turns + 1, heap, idx =>
    if idx > 0 then do
      let parent := (idx - 1) / 2
      let p ← access heap parent
      let c ← access heap idx
      if (entry p).deadline ≤ (entry c).deadline then return heap
      else
        let heap ← swapEntries heap idx parent
        siftUpLoop turns heap parent
    else return heap

/-- `SiftUp(idx)`. -/
def siftUp (heap : List E) (idx : ℕ) : Except Fault (List E) := siftUpLoop entry (idx + 1) heap idx

/-- `idx > 0 && heap_[idx]->deadline_us < heap_[(idx - 1) / 2]->deadline_us`. -/
def belowParent (heap : List E) (idx : ℕ) : Except Fault Bool :=
  if idx > 0 then earlier entry heap idx ((idx - 1) / 2) else return false

/-- `RemoveFromHeap(entry)`. -/
def removeFromHeap [DecidableEq E] (heap : List E) (e : E) : Except Fault (List E) :=
  match heap.idxOf? e with
  | none => return heap
  | some idx => do
    let back ← access heap (heap.length - 1)
    let heap ← assign heap idx back
    let heap := heap.dropLast
    if ← belowParent entry heap idx then siftUp entry heap idx else siftDown entry heap idx

end Code

/-- **`RemoveFromHeap` is safe**: it accesses `heap_` below the size only, and leaves a min-heap of the other
entries. -/
def Removes [DecidableEq E] (entry : E → Entry C) (heap : List E) (e : E) : Prop :=
  ∃ heap', removeFromHeap entry heap e = .ok heap' ∧ MinHeap entry heap' ∧ heap'.Perm (heap.erase e)

/-- The entry is absent, or its place is not the last one, or it is the only one. -/
def NotLast [DecidableEq E] (heap : List E) (e : E) : Prop :=
  ∀ idx, heap.idxOf? e = some idx → idx + 1 < heap.length ∨ heap.length = 1

variable {entry : E → Entry C} {heap : List E} {e : E} {i j idx n : ℕ}

/-! ## The accesses -/

theorem access_of_lt (hi : i < heap.length) : access heap i = .ok heap[i] := by
  rw [access, List.getElem?_eq_getElem hi]

theorem access_of_le (hi : heap.length ≤ i) : access heap i = .error .outOfRange := by
  rw [access, List.getElem?_eq_none hi]

theorem swapEntries_ok (hi : i < heap.length) (hj : j < heap.length) :
    swapEntries heap i j = .ok (heap.swap i j) := by
  have hj' : j < (heap.set i heap[j]).length := by
    rw [List.length_set]
    exact hj
  unfold swapEntries assign
  rw [access_of_lt hi, access_of_lt hj, List.swap_eq_of_lt hi hj]
  simp only [bind, Except.bind, if_pos hi, if_pos hj']

/-! ## The sifts -/

/-- The order of the heap. -/
abbrev key (entry : E → Entry C) (e : E) : Int := (entry e).deadline

theorem earlier_ok (hi : i < heap.length) (hj : j < heap.length) :
    earlier entry heap i j = .ok (decide (keyAt (key entry) heap i < keyAt (key entry) heap j)) := by
  unfold earlier
  rw [access_of_lt hi, access_of_lt hj, keyAt_of_lt _ hi, keyAt_of_lt _ hj]
  simp only [WithTop.coe_lt_coe]
  rfl

/-- **The comparison with a child**; there may be none. -/
theorem smallerChild_ok (h : i < heap.length → j < heap.length) :
    smallerChild entry heap i j = .ok (smaller (key entry) heap j i) := by
  unfold smallerChild smaller
  split_ifs with hi hlt hlt
  · rw [earlier_ok hi (h hi), decide_eq_true hlt]
    rfl
  · rw [earlier_ok hi (h hi), decide_eq_false hlt]
    rfl
  · exact absurd (lt_length_of_keyAt_lt hlt) hi
  · rfl

/-- One turn of `SiftDown`. -/
theorem siftDownLoop_turn (entry : E → Entry C) (n : ℕ) (heap : List E) (idx : ℕ) :
    siftDownLoop entry (n + 1) heap idx =
      if smallest (key entry) heap idx = idx then .ok heap
      else siftDownLoop entry n (heap.swap idx (smallest (key entry) heap idx)) (smallest (key entry) heap idx) := by
  have hleft : 2 * idx + 1 < heap.length → idx < heap.length := by omega
  have hright : 2 * idx + 2 < heap.length → smaller (key entry) heap idx (2 * idx + 1) < heap.length := by
    unfold smaller
    split_ifs <;> omega
  rw [siftDownLoop, smallerChild_ok hleft]
  simp only [bind, Except.bind, smallerChild_ok hright]
  show (if smallest (key entry) heap idx = idx then _ else _) = _
  split_ifs with hstop
  · rfl
  · obtain ⟨hp, hpos, hlt⟩ := (smallest_cases (key entry) heap idx).1.resolve_left hstop
    have hchild := lt_length_of_keyAt_lt hlt
    have hbelow := parent_lt hpos
    have hidx : idx < heap.length := by omega
    show Except.bind (swapEntries heap idx (smallest (key entry) heap idx)) _ = _
    rw [swapEntries_ok hidx hchild]
    rfl

/-- **The loop of `SiftDown`** has no faults, wherever it starts. -/
theorem siftDownLoop_ok (hn : heap.length ≤ n + idx) :
    siftDownLoop entry (n + 1) heap idx = .ok (siftDownFrom (key entry) n heap idx) := by
  induction n generalizing heap idx with
  | zero =>
    rw [siftDownLoop_turn, if_pos, siftDownFrom]
    by_contra hne
    obtain ⟨hp, hpos, hlt⟩ := (smallest_cases (key entry) heap idx).1.resolve_left hne
    have hchild := lt_length_of_keyAt_lt hlt
    have hbelow := parent_lt hpos
    omega
  | succ n ih =>
    rw [siftDownLoop_turn, siftDownFrom]
    split_ifs with hstop
    · rfl
    · obtain ⟨hp, hpos, -⟩ := (smallest_cases (key entry) heap idx).1.resolve_left hstop
      have hbelow := parent_lt hpos
      refine ih ?_
      rw [(List.swap_perm heap idx _).length_eq]
      omega

/-- **`SiftDown`**. -/
theorem siftDown_ok (entry : E → Entry C) (heap : List E) (idx : ℕ) :
    siftDown entry heap idx = .ok (BinaryHeap.siftDown (key entry) heap idx) :=
  siftDownLoop_ok (Nat.le_add_right _ _)

/-- One turn of `SiftUp`, from a position below the size. -/
theorem siftUpLoop_turn (n : ℕ) (hpos : 0 < idx) (hlen : idx < heap.length) : siftUpLoop entry (n + 1) heap idx =
    if keyAt (key entry) heap (parent idx) ≤ keyAt (key entry) heap idx then .ok heap
    else siftUpLoop entry n (heap.swap idx (parent idx)) (parent idx) := by
  have hp : (idx - 1) / 2 < heap.length := (parent_lt hpos).trans hlen
  rw [siftUpLoop, if_pos hpos]
  simp only [bind, Except.bind, access_of_lt hp, access_of_lt hlen, swapEntries_ok hlen hp, parent, keyAt_of_lt _ hp,
    keyAt_of_lt _ hlen, WithTop.coe_le_coe]
  rfl

/-- **The loop of `SiftUp`** has no faults when it starts below the size. -/
theorem siftUpLoop_ok (hn : idx ≤ n) (hlen : idx < heap.length) :
    siftUpLoop entry (n + 1) heap idx = .ok (siftUpFrom (key entry) n heap idx) := by
  induction n generalizing heap idx with
  | zero =>
    obtain rfl := Nat.le_zero.mp hn
    rfl
  | succ n ih =>
    obtain rfl | hpos := Nat.eq_zero_or_pos idx
    · rfl
    · have hbelow := parent_lt hpos
      rw [siftUpLoop_turn _ hpos hlen, siftUpFrom, if_pos hpos]
      split_ifs with hle
      · rfl
      · refine ih (by omega) ?_
        rw [(List.swap_perm heap idx _).length_eq]
        exact hbelow.trans hlen

/-- **`SiftUp`** from a position below the size. -/
theorem siftUp_ok (hlen : idx < heap.length) :
    siftUp entry heap idx = .ok (BinaryHeap.siftUp (key entry) heap idx) :=
  siftUpLoop_ok (Nat.le_refl idx) hlen

/-! ## `RemoveFromHeap` -/

/-- The comparison with the parent; at the root there is none. -/
theorem belowParent_ok (hlen : 0 < idx → idx < heap.length) : belowParent entry heap idx =
    .ok (decide (keyAt (key entry) heap idx < keyAt (key entry) heap (parent idx))) := by
  unfold belowParent
  split_ifs with hpos
  · exact earlier_ok (hlen hpos) ((parent_lt hpos).trans (hlen hpos))
  · obtain rfl : idx = 0 := by omega
    exact congrArg Except.ok (decide_eq_false (lt_irrefl _)).symm

variable [DecidableEq E]

/-- The place of the entry is below the size. -/
theorem idx_lt (hidx : heap.idxOf? e = some idx) : idx < heap.length :=
  (List.idxOf?_eq_some_iff.mp hidx).1

/-- The last element has been moved. -/
theorem removeFromHeap_moved {back : E} (hidx : heap.idxOf? e = some idx) (hback : heap.getLast? = some back) :
    removeFromHeap entry heap e = (do
      if ← belowParent entry (moveLast heap idx back) idx then siftUp entry (moveLast heap idx back) idx
      else siftDown entry (moveLast heap idx back) idx) := by
  have haccess : access heap (heap.length - 1) = .ok back := by
    rw [access, ← List.getLast?_eq_getElem?, hback]
  unfold removeFromHeap
  simp only [hidx, haccess, assign, if_pos (idx_lt hidx), bind, Except.bind]
  rfl

/-- **The entry is removed** from a binary heap, when its place is not the last one or it is the only one. -/
theorem removeFromHeap_ok {back : E} (hidx : heap.idxOf? e = some idx) (hback : heap.getLast? = some back)
    (hin : idx + 1 < heap.length ∨ heap.length = 1) :
    removeFromHeap entry heap e = .ok (removeAt (key entry) heap idx) := by
  have hlen : 0 < idx → idx < (moveLast heap idx back).length := by
    have hlt := idx_lt hidx
    rw [length_moveLast]
    omega
  rw [removeFromHeap_moved hidx hback, belowParent_ok hlen]
  simp only [bind, Except.bind, removeAt, hback, decide_eq_true_eq]
  split_ifs with hup
  · exact siftUp_ok (lt_length_of_keyAt_lt hup)
  · exact siftDown_ok ..

/-- **The entry is the last element**, but not the only one: the place that has gone is read. -/
theorem removeFromHeap_last {back : E} (hidx : heap.idxOf? e = some idx) (hback : heap.getLast? = some back)
    (hlast : idx + 1 = heap.length) (hpos : 0 < idx) : removeFromHeap entry heap e = .error .outOfRange := by
  have hlen : (moveLast heap idx back).length ≤ idx := by
    rw [length_moveLast]
    omega
  rw [removeFromHeap_moved hidx hback, belowParent, if_pos hpos, earlier, access_of_le hlen]
  rfl

/-- **When `RemoveFromHeap` is safe**: unless the entry is the last of several elements. -/
theorem removes_iff (entry : E → Entry C) (heap : List E) (e : E) (ho : MinHeap entry heap) :
    Removes entry heap e ↔ NotLast heap e := by
  have herase := List.erase_eq_eraseIdx heap e
  cases hidx : heap.idxOf? e with
  | none =>
    rw [hidx] at herase
    have hsame : removeFromHeap entry heap e = .ok heap := by
      unfold removeFromHeap
      rw [hidx]
      rfl
    refine iff_of_true ⟨heap, hsame, ho, .of_eq herase.symm⟩ fun idx h => ?_
    rw [hidx] at h
    cases h
  | some idx =>
    rw [hidx] at herase
    have hlt := idx_lt hidx
    obtain ⟨back, hback⟩ : ∃ back, heap.getLast? = some back :=
      ⟨_, List.getLast?_eq_some_getLast (List.ne_nil_of_length_pos (Nat.zero_lt_of_lt hlt))⟩
    by_cases hin : idx + 1 < heap.length ∨ heap.length = 1
    · refine iff_of_true ⟨_, removeFromHeap_ok hidx hback hin, removeAt_ordered ho idx, ?_⟩ fun i h => ?_
      · rw [herase]
        exact removeAt_perm hlt
      · cases hidx.symm.trans h
        exact hin
    · refine iff_of_false ?_ fun h => hin (h idx hidx)
      rintro ⟨heap', hok, -⟩
      rw [removeFromHeap_last hidx hback (by omega) (by omega)] at hok
      cases hok

/-- Timers whose deadlines grow with their numbers. -/
def tens (e : ℕ) : Entry Unit := ⟨(), 10 * e, e, false⟩

/-- The second of three elements is removed. -/
theorem removes_second : Removes tens [1, 2, 3] 2 := by
  have hheap : push (key tens) (push (key tens) (push (key tens) [] 1) 2) 3 = [1, 2, 3] := by decide +kernel
  have hordered : MinHeap tens [1, 2, 3] := hheap ▸ push_ordered (push_ordered (push_ordered ordered_nil 1) 2) 3
  refine (removes_iff tens [1, 2, 3] 2 hordered).mpr fun idx hidx => ?_
  obtain rfl : 1 = idx := Option.some.inj ((show [1, 2, 3].idxOf? 2 = some 1 by decide).symm.trans hidx)
  exact Or.inl (by decide)

/-- **The last of two elements**: `heap_[1]` is read when the size is 1. -/
theorem last_outOfRange : MinHeap tens [1, 2] ∧ removeFromHeap tens [1, 2] 2 = .error .outOfRange ∧
    ¬Removes tens [1, 2] 2 := by
  have hheap : push (key tens) (push (key tens) [] 1) 2 = [1, 2] := by decide +kernel
  have herror : removeFromHeap tens [1, 2] 2 = .error .outOfRange := rfl
  refine ⟨hheap ▸ push_ordered (push_ordered ordered_nil 1) 2, herror, ?_⟩
  rintro ⟨heap', hok, -⟩
  rw [herror] at hok
  cases hok

end Cothread.Timer
