import Mathlib.Data.List.Perm.Basic
import Mathlib.Logic.Equiv.Basic
import Mathlib.Order.WithBot

/-!
# A binary min-heap in a list

The children of position `i` are the positions `2 * i + 1` and `2 * i + 2`. The key of an item decides the order. A
position behind the end counts as one whose key is `⊤`, so that the heap order (`Ordered`) and the comparisons of the
sifts need no bounds.

- `siftUp` and `siftDown` only exchange items (`siftUp_perm`, `siftDown_perm`), and restore the order from what one
  changed item leaves of it (`siftUp_ordered`, `siftDown_ordered`); `siftDown` is a loop that ends (`siftDown_eq`);
- `push` and `removeAt` keep the order (`push_ordered`, `removeAt_ordered`), add the item (`push_perm`) and take the one
  at a position away (`removeAt_perm`); `pop` is the removal of the first one (`pop_eq`);
- the first item has the least key (`Ordered.head_le`).
-/

namespace BinaryHeap

variable {E K : Type*}

/-- The key at a position. -/
def keyAt (key : E → K) (h : List E) (i : ℕ) : WithTop K := h[i]?.map key

def parent (i : ℕ) : ℕ := (i - 1) / 2

theorem keyAt_of_lt (key : E → K) {h : List E} {i : ℕ} (hi : i < h.length) :
    keyAt key h i = (key h[i] : WithTop K) := by
  rw [keyAt, List.getElem?_eq_getElem hi]
  rfl

theorem keyAt_of_le (key : E → K) {h : List E} {i : ℕ} (hi : h.length ≤ i) : keyAt key h i = ⊤ := by
  rw [keyAt, List.getElem?_eq_none hi]
  rfl

theorem keyAt_swap (key : E → K) {h : List E} {i j : ℕ} (hi : i < h.length) (hj : j < h.length) (x : ℕ) :
    keyAt key (h.swap i j) x = keyAt key h (Equiv.swap i j x) := by
  rw [keyAt, keyAt, List.swap_eq_of_lt hi hj, List.getElem?_set, List.getElem?_set, Equiv.swap_apply_def]
  by_cases hx : x = i
  · subst hx
    by_cases hxj : j = x
    · subst hxj
      simp [hi]
      rfl
    · simp [hxj, hi, hj]
      rfl
  · by_cases hxj : x = j
    · subst hxj
      simp [hx, hi, hj]
      rfl
    · simp [hx, hxj, Ne.symm hx, Ne.symm hxj]
      rfl

theorem parent_lt {i : ℕ} (hi : 0 < i) : parent i < i := by
  unfold parent
  omega

theorem parent_eq {i c : ℕ} (hc : 0 < c) (h : parent c = i) : c = 2 * i + 1 ∨ c = 2 * i + 2 := by
  unfold parent at h
  omega

variable [LinearOrder K] {key : E → K} {h : List E} {i : ℕ}

/-- A position whose key is smaller than another one is not behind the end. -/
theorem lt_length_of_keyAt_lt {k : WithTop K} (hlt : keyAt key h i < k) : i < h.length := by
  by_contra hge
  rw [keyAt_of_le key (not_lt.mp hge)] at hlt
  exact not_top_lt hlt

/-- No key is smaller than the one above it. -/
def Ordered (key : E → K) (h : List E) : Prop := ∀ i, keyAt key h (parent i) ≤ keyAt key h i

theorem Ordered.le (ho : Ordered key h) (i : ℕ) : keyAt key h 0 ≤ keyAt key h i := by
  induction i using Nat.strong_induction_on with
  | _ i ih =>
    obtain rfl | hi := Nat.eq_zero_or_pos i
    · exact le_rfl
    · exact (ih (parent i) (parent_lt hi)).trans (ho i)

/-- **The first item has the least key.** -/
theorem Ordered.head_le (ho : Ordered key h) {a b : E} (ha : h[0]? = some a) (hb : b ∈ h) : key a ≤ key b := by
  obtain ⟨i, hi, rfl⟩ := List.mem_iff_getElem.mp hb
  have hle := ho.le i
  rw [keyAt_of_lt key hi, keyAt, ha] at hle
  exact WithTop.coe_le_coe.mp hle

theorem ordered_nil : Ordered key ([] : List E) := fun _ => le_of_eq rfl

/-- The order depends on the keys of the items only. -/
theorem Ordered.congr {key' : E → K} (ho : Ordered key h) (hk : ∀ e ∈ h, key' e = key e) : Ordered key' h := by
  have hat : ∀ i, keyAt key' h i = keyAt key h i := by
    intro i
    by_cases hi : i < h.length
    · rw [keyAt_of_lt key hi, keyAt_of_lt key' hi, hk _ (List.getElem_mem hi)]
    · rw [keyAt_of_le key (not_lt.mp hi), keyAt_of_le key' (not_lt.mp hi)]
  intro i
  rw [hat, hat]
  exact ho i

/-! ## Upwards -/

/-- Exchange with the parent while it has a larger key; `fuel` bounds the number of exchanges. -/
def siftUpFrom (key : E → K) : ℕ → List E → ℕ → List E
  | 0, h, _ => h
  | fuel + 1, h, i =>
    if 0 < i then
      if keyAt key h (parent i) ≤ keyAt key h i then h else siftUpFrom key fuel (h.swap i (parent i)) (parent i)
    else h

def siftUp (key : E → K) (h : List E) (i : ℕ) : List E := siftUpFrom key i h i

theorem siftUpFrom_perm : ∀ (fuel : ℕ) (h : List E) (i : ℕ), (siftUpFrom key fuel h i).Perm h
  | 0, h, _ => .refl h
  | fuel + 1, h, i => by
    rw [siftUpFrom]
    split_ifs
    · exact .refl h
    · exact (siftUpFrom_perm fuel _ _).trans (List.swap_perm h i (parent i))
    · exact .refl h

theorem siftUp_perm (h : List E) (i : ℕ) : (siftUp key h i).Perm h := siftUpFrom_perm i h i

/-- The order off position `i`, whose key may be too small. -/
structure UpOrder (key : E → K) (h : List E) (i : ℕ) : Prop where
  off : ∀ x, x ≠ i → keyAt key h (parent x) ≤ keyAt key h x
  grand : 0 < i → ∀ c, parent c = i → keyAt key h (parent i) ≤ keyAt key h c

/-- The exchange with a larger parent. -/
theorem UpOrder.swap (ho : UpOrder key h i) (hi : 0 < i) (hlen : i < h.length)
    (hlt : keyAt key h i < keyAt key h (parent i)) : UpOrder key (h.swap i (parent i)) (parent i) := by
  have hp := parent_lt hi
  have hkey := keyAt_swap key hlen (hp.trans hlen)
  generalize hpi : parent i = p at *
  have hki : keyAt key (h.swap i p) i = keyAt key h p := by rw [hkey, Equiv.swap_apply_left]
  have hkp : keyAt key (h.swap i p) p = keyAt key h i := by rw [hkey, Equiv.swap_apply_right]
  have hother : ∀ x, x ≠ i → x ≠ p → keyAt key (h.swap i p) x = keyAt key h x := fun x hxi hxp => by
    rw [hkey, Equiv.swap_apply_of_ne_of_ne hxi hxp]
  refine ⟨fun x hx => ?_, fun hp0 c hc => ?_⟩
  · by_cases hxi : x = i
    · subst hxi
      rw [hpi, hkp, hki]
      exact hlt.le
    · rw [hother x hxi hx]
      by_cases hpxi : parent x = i
      · rw [hpxi, hki]
        exact hpi ▸ ho.grand hi x hpxi
      · by_cases hpxp : parent x = p
        · rw [hpxp, hkp]
          exact hlt.le.trans (hpxp ▸ ho.off x hxi)
        · rw [hother _ hpxi hpxp]
          exact ho.off x hxi
  · have hpp := parent_lt hp0
    rw [hother (parent p) (by omega) hpp.ne]
    have hup := ho.off p hp.ne
    by_cases hci : c = i
    · subst hci
      rw [hki]
      exact hup
    · have hcp : c ≠ p := by
        rintro rfl
        omega
      rw [hother c hci hcp]
      exact hup.trans (hc ▸ ho.off c hci)

theorem siftUpFrom_ordered {fuel : ℕ} (hf : i ≤ fuel) (hlen : i < h.length) (ho : UpOrder key h i) :
    Ordered key (siftUpFrom key fuel h i) := by
  have hzero : i = 0 → Ordered key h := by
    rintro rfl x
    obtain rfl | hx := Nat.eq_zero_or_pos x
    · exact le_rfl
    · exact ho.off x hx.ne'
  induction fuel generalizing h i with
  | zero => exact hzero (Nat.le_zero.mp hf)
  | succ fuel ih =>
    rw [siftUpFrom]
    split_ifs with hi hle
    · intro x
      by_cases hx : x = i
      · exact hx ▸ hle
      · exact ho.off x hx
    · have hp := parent_lt hi
      have hswap := ho.swap hi hlen (not_le.mp hle)
      have hlen' : parent i < (h.swap i (parent i)).length := by
        rw [(List.swap_perm h i (parent i)).length_eq]
        exact hp.trans hlen
      refine ih (by omega) hlen' hswap fun h0 x => ?_
      obtain rfl | hx := Nat.eq_zero_or_pos x
      · exact le_rfl
      · exact hswap.off x (by omega)
    · exact hzero (by omega)

theorem siftUp_ordered (hlen : i < h.length) (ho : UpOrder key h i) : Ordered key (siftUp key h i) :=
  siftUpFrom_ordered le_rfl hlen ho

/-! ## Downwards -/

def smaller (key : E → K) (h : List E) (i j : ℕ) : ℕ := if keyAt key h j < keyAt key h i then j else i

/-- The position with the smallest key among `i` and its children; a child behind the end is never smaller. -/
def smallest (key : E → K) (h : List E) (i : ℕ) : ℕ := smaller key h (smaller key h i (2 * i + 1)) (2 * i + 2)

/-- Exchange with the smallest child while it has a smaller key; `fuel` bounds the number of exchanges. -/
def siftDownFrom (key : E → K) : ℕ → List E → ℕ → List E
  | 0, h, _ => h
  | fuel + 1, h, i =>
    if smallest key h i = i then h else siftDownFrom key fuel (h.swap i (smallest key h i)) (smallest key h i)

def siftDown (key : E → K) (h : List E) (i : ℕ) : List E := siftDownFrom key h.length h i

theorem siftDownFrom_perm : ∀ (fuel : ℕ) (h : List E) (i : ℕ), (siftDownFrom key fuel h i).Perm h
  | 0, h, _ => .refl h
  | fuel + 1, h, i => by
    rw [siftDownFrom]
    split_ifs
    · exact .refl h
    · exact (siftDownFrom_perm fuel _ _).trans (List.swap_perm h i _)

theorem siftDown_perm (h : List E) (i : ℕ) : (siftDown key h i).Perm h := siftDownFrom_perm _ h i

theorem smallest_cases (key : E → K) (h : List E) (i : ℕ) : (smallest key h i = i ∨
    (parent (smallest key h i) = i ∧ 0 < smallest key h i ∧ keyAt key h (smallest key h i) < keyAt key h i)) ∧
    ∀ c, parent c = i → 0 < c → keyAt key h (smallest key h i) ≤ keyAt key h c := by
  have hl : parent (2 * i + 1) = i := by unfold parent; omega
  have hr : parent (2 * i + 2) = i := by unfold parent; omega
  unfold smallest smaller
  split_ifs with h1 h2 h2
  · refine ⟨Or.inr ⟨hr, by omega, h2.trans h1⟩, fun c hc hc0 => ?_⟩
    obtain rfl | rfl := parent_eq hc0 hc
    · exact h2.le
    · exact le_rfl
  · refine ⟨Or.inr ⟨hl, by omega, h1⟩, fun c hc hc0 => ?_⟩
    obtain rfl | rfl := parent_eq hc0 hc
    · exact le_rfl
    · exact not_lt.mp h2
  · refine ⟨Or.inr ⟨hr, by omega, h2⟩, fun c hc hc0 => ?_⟩
    obtain rfl | rfl := parent_eq hc0 hc
    · exact h2.le.trans (not_lt.mp h1)
    · exact le_rfl
  · refine ⟨Or.inl rfl, fun c hc hc0 => ?_⟩
    obtain rfl | rfl := parent_eq hc0 hc
    · exact not_lt.mp h1
    · exact not_lt.mp h2

/-- The order but for the children of position `i`, whose key may be too large. -/
structure DownOrder (key : E → K) (h : List E) (i : ℕ) : Prop where
  off : ∀ x, parent x ≠ i → keyAt key h (parent x) ≤ keyAt key h x
  grand : 0 < i → ∀ c, parent c = i → keyAt key h (parent i) ≤ keyAt key h c

/-- The exchange with the smallest child. -/
theorem DownOrder.swap (ho : DownOrder key h i) {c : ℕ} (hlen : c < h.length) (hc : parent c = i) (hc0 : 0 < c)
    (hlt : keyAt key h c < keyAt key h i) (hmin : ∀ d, parent d = i → 0 < d → keyAt key h c ≤ keyAt key h d) :
    DownOrder key (h.swap i c) c := by
  have hic : i < c := hc ▸ parent_lt hc0
  have hkey := keyAt_swap key (hic.trans hlen) hlen
  have hki : keyAt key (h.swap i c) i = keyAt key h c := by rw [hkey, Equiv.swap_apply_left]
  have hkc : keyAt key (h.swap i c) c = keyAt key h i := by rw [hkey, Equiv.swap_apply_right]
  have hother : ∀ x, x ≠ i → x ≠ c → keyAt key (h.swap i c) x = keyAt key h x := fun x hxi hxc => by
    rw [hkey, Equiv.swap_apply_of_ne_of_ne hxi hxc]
  refine ⟨fun x hx => ?_, fun _ d hd => ?_⟩
  · by_cases hxc : x = c
    · subst hxc
      rw [hc, hki, hkc]
      exact hlt.le
    · by_cases hpx : parent x = i
      · rw [hpx, hki]
        by_cases hxi : x = i
        · rw [hxi, hki]
        · rw [hother x hxi hxc]
          refine hmin x hpx (Nat.pos_of_ne_zero fun h0 => hxi ?_)
          rw [← hpx, h0]
          rfl
      · rw [hother _ hpx hx]
        by_cases hxi : x = i
        · subst hxi
          rw [hki]
          refine ho.grand (Nat.pos_of_ne_zero fun h0 => hpx ?_) c hc
          rw [h0]
          rfl
        · rw [hother x hxi hxc]
          exact ho.off x hpx
  · have hcd : c < d := by
      obtain h0 | h0 := Nat.eq_zero_or_pos d
      · subst h0
        have : c = 0 := hd.symm
        omega
      · exact hd ▸ parent_lt h0
    rw [hc, hki, hother d (by omega) hcd.ne']
    exact hd ▸ ho.off d (by omega)

theorem siftDownFrom_ordered {fuel : ℕ} (hf : h.length ≤ fuel + i) (ho : DownOrder key h i) :
    Ordered key (siftDownFrom key fuel h i) := by
  have hstop : (∀ c, parent c = i → 0 < c → keyAt key h i ≤ keyAt key h c) → Ordered key h := by
    intro hle x
    by_cases hx : parent x = i
    · obtain rfl | hx0 := Nat.eq_zero_or_pos x
      · exact le_rfl
      · exact hx ▸ hle x hx hx0
    · exact ho.off x hx
  induction fuel generalizing h i with
  | zero =>
    refine hstop fun c hc hc0 => ?_
    have := hc ▸ parent_lt hc0
    rw [keyAt_of_le key (i := c) (by omega)]
    exact le_top
  | succ fuel ih =>
    obtain ⟨hcases, hmin⟩ := smallest_cases key h i
    rw [siftDownFrom]
    generalize smallest key h i = c at *
    split_ifs with hci
    · exact hstop (hci ▸ hmin)
    · obtain ⟨hc, hc0, hlt⟩ := hcases.resolve_left hci
      have hlen : c < h.length := lt_length_of_keyAt_lt hlt
      have hic : i < c := hc ▸ parent_lt hc0
      have hswap := ho.swap hlen hc hc0 hlt hmin
      refine ih ?_ hswap fun hle x => ?_
      · rw [(List.swap_perm h i c).length_eq]
        omega
      · by_cases hx : parent x = c
        · obtain rfl | hx0 := Nat.eq_zero_or_pos x
          · exact le_rfl
          · exact hx ▸ hle x hx hx0
        · exact hswap.off x hx

theorem siftDown_ordered (ho : DownOrder key h i) : Ordered key (siftDown key h i) :=
  siftDownFrom_ordered (Nat.le_add_right _ _) ho

/-- With fuel for every position behind `i`, more fuel changes nothing. -/
theorem siftDownFrom_fuel {fuel : ℕ} (hf : h.length ≤ fuel + i) (k : ℕ) :
    siftDownFrom key (fuel + k) h i = siftDownFrom key fuel h i := by
  induction fuel generalizing h i with
  | zero =>
    have hstop : smallest key h i = i := by
      by_contra hne
      obtain ⟨hp, h0, hlt⟩ := (smallest_cases key h i).1.resolve_left hne
      have hbehind := hp ▸ parent_lt h0
      have hlen := lt_length_of_keyAt_lt hlt
      omega
    cases k with
    | zero => rfl
    | succ k =>
      rw [Nat.zero_add]
      exact if_pos hstop
  | succ fuel ih =>
    rw [Nat.add_right_comm, siftDownFrom, siftDownFrom]
    by_cases hci : smallest key h i = i
    · rw [if_pos hci, if_pos hci]
    · rw [if_neg hci, if_neg hci]
      obtain ⟨hp, h0, -⟩ := (smallest_cases key h i).1.resolve_left hci
      have hlt := hp ▸ parent_lt h0
      refine ih ?_
      rw [(List.swap_perm h i _).length_eq]
      omega

/-- **`siftDown` is the loop without a bound.** -/
theorem siftDown_eq (key : E → K) (h : List E) (i : ℕ) : siftDown key h i =
    if smallest key h i = i then h else siftDown key (h.swap i (smallest key h i)) (smallest key h i) := by
  have hmore : siftDown key h i = siftDownFrom key (h.length + 1) h i :=
    (siftDownFrom_fuel (Nat.le_add_right _ _) 1).symm
  have hlen : (h.swap i (smallest key h i)).length = h.length := (List.swap_perm h i _).length_eq
  rw [hmore, siftDownFrom, siftDown, hlen]

/-! ## The operations -/

/-- Append an item and sift it up. -/
def push (key : E → K) (h : List E) (e : E) : List E := siftUp key (h ++ [e]) h.length

/-- Put the last item into the place of the first and sift it down. -/
def pop (key : E → K) (h : List E) : List E :=
  match h.getLast? with
  | none => []
  | some e => siftDown key (h.set 0 e).dropLast 0

theorem push_perm (h : List E) (e : E) : (push key h e).Perm (e :: h) :=
  (siftUp_perm _ _).trans List.perm_append_comm

omit [LinearOrder K] in
theorem keyAt_append {e : E} {x : ℕ} (hx : x ≠ h.length) : keyAt key (h ++ [e]) x = keyAt key h x := by
  obtain hlt | hgt := Nat.lt_or_gt_of_ne hx
  · rw [keyAt, keyAt, List.getElem?_append_left hlt]
  · rw [keyAt_of_le key hgt.le, keyAt_of_le key]
    rw [List.length_append, List.length_singleton]
    exact hgt

/-- **`push` keeps the order.** -/
theorem push_ordered (ho : Ordered key h) (e : E) : Ordered key (push key h e) := by
  have htop : ∀ x, h.length < x → keyAt key (h ++ [e]) x = ⊤ := fun x hx => by
    rw [keyAt_append hx.ne', keyAt_of_le key hx.le]
  refine siftUp_ordered (by simp) ⟨fun x hx => ?_, fun hpos c hc => ?_⟩
  · obtain hlt | hgt := Nat.lt_or_gt_of_ne hx
    · have : parent x < h.length := lt_of_le_of_lt (by unfold parent; omega) hlt
      rw [keyAt_append hx, keyAt_append this.ne]
      exact ho x
    · rw [htop x hgt]
      exact le_top
  · have hlt : h.length < c := by
      obtain h0 | h0 := Nat.eq_zero_or_pos c
      · subst h0
        have : 0 = h.length := hc
        omega
      · exact hc ▸ parent_lt h0
    rw [htop c hlt]
    exact le_top

/-! ## Removal anywhere -/

/-- The last item `e` in the place of the item at `i`. -/
def moveLast (h : List E) (i : ℕ) (e : E) : List E := (h.set i e).dropLast

/-- Put the last item into the place of the item at `i`, and sift it up when it is smaller than its new parent, else
down. -/
def removeAt (key : E → K) (h : List E) (i : ℕ) : List E :=
  match h.getLast? with
  | none => []
  | some e =>
    if keyAt key (moveLast h i e) i < keyAt key (moveLast h i e) (parent i) then siftUp key (moveLast h i e) i
    else siftDown key (moveLast h i e) i

section Removal

variable {e : E} {x : ℕ}

omit [LinearOrder K] in
theorem length_moveLast (h : List E) (i : ℕ) (e : E) : (moveLast h i e).length = h.length - 1 := by
  rw [moveLast, List.length_dropLast, List.length_set]

omit [LinearOrder K] in
theorem keyAt_moveLast (hx : x ≠ i) (hlt : x < (moveLast h i e).length) :
    keyAt key (moveLast h i e) x = keyAt key h x := by
  rw [length_moveLast] at hlt
  rw [keyAt, keyAt, moveLast, List.getElem?_dropLast, List.length_set, if_pos hlt, List.getElem?_set_ne hx.symm]

/-- Off position `i` the order is kept. -/
theorem Ordered.moveLast_off (ho : Ordered key h) (hx : x ≠ i) (hp : parent x ≠ i) :
    keyAt key (moveLast h i e) (parent x) ≤ keyAt key (moveLast h i e) x := by
  by_cases hlt : x < (moveLast h i e).length
  · have hle : parent x < (moveLast h i e).length := lt_of_le_of_lt (by unfold parent; omega) hlt
    rw [keyAt_moveLast hx hlt, keyAt_moveLast hp hle]
    exact ho x
  · rw [keyAt_of_le key (not_lt.mp hlt)]
    exact le_top

/-- The items below position `i` are not smaller than the one above it. -/
theorem Ordered.moveLast_grand (ho : Ordered key h) (hi : 0 < i) {c : ℕ} (hc : parent c = i) :
    keyAt key (moveLast h i e) (parent i) ≤ keyAt key (moveLast h i e) c := by
  have hpi := parent_lt hi
  have hic : i < c := by
    obtain rfl | hc0 := Nat.eq_zero_or_pos c
    · exact absurd (show 0 = i from hc) hi.ne
    · exact hc ▸ parent_lt hc0
  by_cases hlt : c < (moveLast h i e).length
  · rw [keyAt_moveLast hic.ne' hlt, keyAt_moveLast hpi.ne ((hpi.trans hic).trans hlt)]
    exact (ho i).trans (hc ▸ ho c)
  · rw [keyAt_of_le key (not_lt.mp hlt)]
    exact le_top

/-- **Removal keeps the order.** -/
theorem removeAt_ordered (ho : Ordered key h) (i : ℕ) : Ordered key (removeAt key h i) := by
  unfold removeAt
  split
  · exact ordered_nil
  · rename_i e _
    split_ifs with hup
    · have hi : 0 < i := by
        refine Nat.pos_of_ne_zero ?_
        rintro rfl
        exact lt_irrefl _ hup
      refine siftUp_ordered (lt_length_of_keyAt_lt hup) ⟨fun x hx => ?_, fun hi c hc => ho.moveLast_grand hi hc⟩
      by_cases hp : parent x = i
      · rw [hp]
        exact hup.le.trans (ho.moveLast_grand hi hp)
      · exact ho.moveLast_off hx hp
    · refine siftDown_ordered ⟨fun x hp => ?_, fun hi c hc => ho.moveLast_grand hi hc⟩
      by_cases hx : x = i
      · rw [hx]
        exact not_lt.mp hup
      · exact ho.moveLast_off hx hp

omit [LinearOrder K] in
theorem moveLast_perm (hi : i < h.length) (he : h.getLast? = some e) : (moveLast h i e).Perm (h.eraseIdx i) := by
  obtain ⟨l, rfl⟩ := List.getLast?_eq_some_iff.mp he
  rw [List.length_append, List.length_singleton] at hi
  obtain hlt | rfl := Nat.lt_or_eq_of_le (Nat.le_of_lt_succ hi)
  · rw [moveLast, List.set_append_left i e hlt, List.dropLast_concat, List.eraseIdx_append_of_lt_length hlt]
    exact (List.set_perm_cons_eraseIdx hlt e).trans (List.perm_append_singleton e _).symm
  · rw [moveLast, List.set_append_right _ e le_rfl, List.eraseIdx_append_of_length_le le_rfl, Nat.sub_self]
    exact .of_eq (by simp)

/-- **Removal takes one item away.** -/
theorem removeAt_perm (hi : i < h.length) : (removeAt key h i).Perm (h.eraseIdx i) := by
  unfold removeAt
  split
  · rename_i hnone
    rw [List.getLast?_eq_none_iff] at hnone
    rw [hnone] at hi
    cases hi
  · rename_i e he
    split_ifs
    · exact (siftUp_perm _ _).trans (moveLast_perm hi he)
    · exact (siftDown_perm _ _).trans (moveLast_perm hi he)

end Removal

/-- `pop` is the removal of the first item. -/
theorem pop_eq (h : List E) : pop key h = removeAt key h 0 := by
  unfold pop removeAt
  split
  · rfl
  · exact (if_neg (lt_irrefl _)).symm

/-- **`pop` takes the first item away.** -/
theorem pop_perm (e : E) (h : List E) : (pop key (e :: h)).Perm h := by
  rw [pop_eq]
  exact removeAt_perm (Nat.zero_lt_succ _)

/-- **`pop` keeps the order.** -/
theorem pop_ordered (ho : Ordered key h) : Ordered key (pop key h) := by
  rw [pop_eq]
  exact removeAt_ordered ho 0

end BinaryHeap
