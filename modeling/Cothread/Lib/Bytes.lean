import Mathlib.Data.Set.Function
import Mathlib.Data.Set.Lattice
import Mathlib.Order.CompletePartialOrder
import Mathlib.Algebra.Group.Nat.Defs

/-!
# Memory as bytes

A memory gives a byte at every 64-bit address. A word is read and written little-endian at the addresses from its own
on, which wrap at the end of the address space.

- the addresses of an object (`span`), its parts (`span_add_subset`), and parts that do not meet (`disjoint_span_add`);
- a read depends on its addresses only (`read_congr`), a write changes its addresses only (`eqOn_write`);
- what is written is read again (`read_write_self`), and by no disjoint write changed (`read_write_of_disjoint`).
-/

namespace Bytes

abbrev Addr := BitVec 64

/-- The bytes in memory. -/
abbrev Mem := Addr → BitVec 8

/-- The `n` addresses from `a` on. -/
def span (a : Addr) (n : ℕ) : Set Addr := {p | (p - a).toNat < n}

/-- The word of `w` bits at an address, its lowest byte first. -/
def read (w : ℕ) (m : Mem) (a : Addr) : BitVec w :=
  (BitVec.iunfoldr (fun i (_ : Unit) => ((), (m (a + BitVec.ofNat 64 (i / 8))).getLsbD (i % 8))) ()).2

/-- The memory after a word has been written. -/
def write {w : ℕ} (m : Mem) (a : Addr) (v : BitVec w) : Mem := fun p =>
  if 8 * (p - a).toNat < w then v.extractLsb' (8 * (p - a).toNat) 8 else m p

variable {w n k i j : ℕ} {a b p : Addr} {m m' : Mem}

/-! ## Addresses -/

theorem mem_span : p ∈ span a n ↔ (p - a).toNat < n := Iff.rfl

theorem add_sub_toNat (a : Addr) (hi : i < 2 ^ 64) : (a + BitVec.ofNat 64 i - a).toNat = i := by
  rw [BitVec.add_comm, BitVec.add_sub_cancel, BitVec.toNat_ofNat, Nat.mod_eq_of_lt hi]

theorem add_mem_span (hi : i < n) (hn : n ≤ 2 ^ 64) : a + BitVec.ofNat 64 i ∈ span a n := by
  rw [mem_span, add_sub_toNat a (by omega)]
  exact hi

/-- The distance to the start of a part is the distance to the whole's less the offset. -/
theorem sub_add_toNat (hp : (p - (a + BitVec.ofNat 64 i)).toNat < n) (hi : i + n ≤ 2 ^ 64) :
    (p - a).toNat = (p - (a + BitVec.ofNat 64 i)).toNat + i := by
  bv_omega

/-- A part of an object. -/
theorem span_add_subset (hi : i + n ≤ k) (hk : k ≤ 2 ^ 64) : span (a + BitVec.ofNat 64 i) n ⊆ span a k := by
  intro p hp
  rw [mem_span] at hp
  rw [mem_span, sub_add_toNat hp (by omega)]
  omega

/-- Two parts of an object, the one before the other. -/
theorem disjoint_span_add (hi : i + n ≤ j) (hj : j + k ≤ 2 ^ 64) :
    Disjoint (span (a + BitVec.ofNat 64 i) n) (span (a + BitVec.ofNat 64 j) k) := by
  rw [Set.disjoint_left]
  intro p hp hq
  rw [mem_span] at hp hq
  have hfirst := sub_add_toNat hp (by omega)
  have hsecond := sub_add_toNat hq (by omega)
  omega

/-- Two objects, the one before the other. -/
theorem disjoint_span (h : a.toNat + n ≤ b.toNat) (hb : b.toNat + k ≤ 2 ^ 64) : Disjoint (span a n) (span b k) := by
  rw [Set.disjoint_left]
  intro p hp hq
  rw [mem_span] at hp hq
  have hdist : (p - a).toNat = (p - b).toNat + (b.toNat - a.toNat) := by bv_omega
  omega

/-- An object that another one contains. -/
theorem span_subset (h : a.toNat ≤ b.toNat) (hb : b.toNat + k ≤ a.toNat + n) (hn : a.toNat + n ≤ 2 ^ 64) :
    span b k ⊆ span a n := by
  intro p hp
  rw [mem_span] at hp
  rw [mem_span]
  have hdist : (p - a).toNat = (p - b).toNat + (b.toNat - a.toNat) := by bv_omega
  omega

/-! ## Words -/

theorem getLsbD_read (hi : i < w) : (read w m a).getLsbD i = (m (a + BitVec.ofNat 64 (i / 8))).getLsbD (i % 8) :=
  BitVec.iunfoldr_getLsbD (fun _ => ()) ⟨i, hi⟩ fun _ => rfl

theorem read_zero (w : ℕ) (a : Addr) : read w (fun _ => 0) a = 0 := by
  apply BitVec.eq_of_getLsbD_eq
  intro i hi
  rw [getLsbD_read hi]
  simp

/-- A read depends on its addresses only. -/
theorem read_congr (h : Set.EqOn m m' (span a n)) (hw : w ≤ 8 * n) (hn : n ≤ 2 ^ 64) : read w m a = read w m' a := by
  apply BitVec.eq_of_getLsbD_eq
  intro i hi
  rw [getLsbD_read hi, getLsbD_read hi, h (add_mem_span (by omega) hn)]

/-- A write changes its addresses only. -/
theorem eqOn_write {s : Set Addr} (v : BitVec w) (h : Disjoint s (span a n)) (hw : w ≤ 8 * n) :
    Set.EqOn (write m a v) m s := by
  intro p hp
  have hout : ¬(p - a).toNat < n := Set.disjoint_left.mp h hp
  rw [write, if_neg (by omega)]

/-- **What is written is read again.** -/
theorem read_write_self (m : Mem) (a : Addr) (v : BitVec w) (hw : w ≤ 2 ^ 64) : read w (write m a v) a = v := by
  apply BitVec.eq_of_getLsbD_eq
  intro i hi
  have hbyte := add_sub_toNat a (i := i / 8) (by omega)
  rw [getLsbD_read hi, write, hbyte, if_pos (by omega), BitVec.getLsbD_extractLsb', Nat.div_add_mod,
    decide_eq_true (Nat.mod_lt i (by decide)), Bool.true_and]

/-- A word beside the one that is written. -/
theorem read_write_of_disjoint {w' : ℕ} (v : BitVec w') (h : Disjoint (span a n) (span b k)) (hw : w ≤ 8 * n)
    (hn : n ≤ 2 ^ 64) (hw' : w' ≤ 8 * k) : read w (write m b v) a = read w m a :=
  read_congr (eqOn_write v h hw') hw hn

end Bytes
