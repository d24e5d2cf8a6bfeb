import Cothread.Lib.Bytes
import Mathlib.Logic.Function.Basic

/-!
# Straight-line code of x86-64

The general and the `xmm` registers of a core, and the instructions that move words between them and memory, compute
addresses and leave the code. The flags are not there: no instruction here reads them. An aligned move of 16 bytes
faults at an address that is not a multiple of 16; nothing else does.

- one instruction (`step`) and a list of them (`exec`);
- registers that are saved in an object and loaded from it again (`Slot`): what a save writes (`step_save`), and what a
  load gives back and leaves alone (`step_load`).
-/

namespace X64

open Bytes

inductive Reg
  | rax
  | rbx
  | rcx
  | rdx
  | rsi
  | rdi
  | rbp
  | rsp
  | r8
  | r9
  | r10
  | r11
  | r12
  | r13
  | r14
  | r15
  deriving DecidableEq

inductive Xmm
  | xmm0
  | xmm1
  | xmm2
  | xmm3
  | xmm4
  | xmm5
  | xmm6
  | xmm7
  | xmm8
  | xmm9
  | xmm10
  | xmm11
  | xmm12
  | xmm13
  | xmm14
  | xmm15
  deriving DecidableEq

/-- The registers of a core. The code itself is followed in the list of its instructions: `rip` is the address at which
the core goes on when it has left the list. -/
structure Core where
  reg : Reg → BitVec 64
  xmm : Xmm → BitVec 128
  rip : Addr

def Core.setReg (c : Core) (r : Reg) (v : BitVec 64) : Core := { c with reg := Function.update c.reg r v }

def Core.setXmm (c : Core) (x : Xmm) (v : BitVec 128) : Core := { c with xmm := Function.update c.xmm x v }

/-- The address `[base + disp]`. -/
def Core.addr (c : Core) (base : Reg) (disp : ℕ) : Addr := c.reg base + BitVec.ofNat 64 disp

inductive Instr
  /-- `mov dst, src` -/
  | mov (dst src : Reg)
  /-- `mov dst, [base + disp]` -/
  | load (dst base : Reg) (disp : ℕ)
  /-- `mov [base + disp], src` -/
  | store (base : Reg) (disp : ℕ) (src : Reg)
  /-- `lea dst, [base + disp]` -/
  | lea (dst base : Reg) (disp : ℕ)
  /-- `lea dst, label` -/
  | leaLabel (dst : Reg) (label : Addr)
  | add (dst : Reg) (imm : ℕ)
  | sub (dst : Reg) (imm : ℕ)
  /-- `movdqa dst, [base + disp]` -/
  | loadXmm (dst : Xmm) (base : Reg) (disp : ℕ)
  /-- `movdqa [base + disp], src` -/
  | storeXmm (base : Reg) (disp : ℕ) (src : Xmm)
  /-- `jmp *r` -/
  | jmp (r : Reg)
  | ret

/-- One instruction; `none` is a fault. -/
def step : Instr → Core → Mem → Option (Core × Mem)
  | .mov dst src, c, m => some (c.setReg dst (c.reg src), m)
  | .load dst base disp, c, m => some (c.setReg dst (read 64 m (c.addr base disp)), m)
  | .store base disp src, c, m => some (c, write m (c.addr base disp) (c.reg src))
  | .lea dst base disp, c, m => some (c.setReg dst (c.addr base disp), m)
  | .leaLabel dst label, c, m => some (c.setReg dst label, m)
  | .add dst imm, c, m => some (c.setReg dst (c.reg dst + BitVec.ofNat 64 imm), m)
  | .sub dst imm, c, m => some (c.setReg dst (c.reg dst - BitVec.ofNat 64 imm), m)
  | .loadXmm dst base disp, c, m =>
    if (c.addr base disp).toNat % 16 = 0 then some (c.setXmm dst (read 128 m (c.addr base disp)), m) else none
  | .storeXmm base disp src, c, m =>
    if (c.addr base disp).toNat % 16 = 0 then some (c, write m (c.addr base disp) (c.xmm src)) else none
  | .jmp r, c, m => some ({ c with rip := c.reg r }, m)
  | .ret, c, m => some ({ c.setReg .rsp (c.reg .rsp + 8) with rip := read 64 m (c.reg .rsp) }, m)

/-- The instructions one after the other. -/
def exec : List Instr → Core → Mem → Option (Core × Mem)
  | [], c, m => some (c, m)
  | i :: is, c, m => (step i c m).bind fun s => exec is s.1 s.2

section Core

variable (c : Core) {r r' : Reg} {x : Xmm} (v : BitVec 64)

@[simp] theorem Core.setReg_self : (c.setReg r v).reg r = v := Function.update_self ..

theorem Core.setReg_of_ne (h : r' ≠ r) : (c.setReg r v).reg r' = c.reg r' := Function.update_of_ne h ..

@[simp] theorem Core.setReg_xmm : (c.setReg r v).xmm = c.xmm := rfl

@[simp] theorem Core.setReg_rip : (c.setReg r v).rip = c.rip := rfl

@[simp] theorem Core.setXmm_self (v : BitVec 128) : (c.setXmm x v).xmm x = v := Function.update_self ..

@[simp] theorem Core.setXmm_reg (v : BitVec 128) : (c.setXmm x v).reg = c.reg := rfl

@[simp] theorem Core.setXmm_rip (v : BitVec 128) : (c.setXmm x v).rip = c.rip := rfl

end Core

/-! ## Saved registers -/

/-- A register and its offset in the object that it is saved in. -/
inductive Slot
  | gp (r : Reg) (disp : ℕ)
  | xmm (x : Xmm) (disp : ℕ)
  deriving DecidableEq

namespace Slot

def disp : Slot → ℕ
  | gp _ d => d
  | xmm _ d => d

def size : Slot → ℕ
  | gp _ _ => 8
  | xmm _ _ => 16

/-- The register of a slot. -/
def target : Slot → Reg ⊕ Xmm
  | gp r _ => .inl r
  | xmm x _ => .inr x

/-- The instruction that saves the register in the object at `base`. -/
def save (base : Reg) : Slot → Instr
  | gp r d => .store base d r
  | xmm x d => .storeXmm base d x

/-- The instruction that loads the register from the object at `base`. -/
def load (base : Reg) : Slot → Instr
  | gp r d => .load r base d
  | xmm x d => .loadXmm x base d

/-- The slot is in an object of `n` bytes and at an offset its instructions take. -/
def Fits (n : ℕ) (s : Slot) : Prop := s.disp + s.size ≤ n ∧ s.disp % s.size = 0

/-- Two slots that do not meet. -/
def Apart (s t : Slot) : Prop := s.disp + s.size ≤ t.disp ∨ t.disp + t.size ≤ s.disp

instance (n : ℕ) : DecidablePred (Fits n) := fun _ => inferInstanceAs (Decidable (_ ∧ _))

instance (s t : Slot) : Decidable (s.Apart t) := inferInstanceAs (Decidable (_ ∨ _))

/-- The addresses of the slot of the object at `b`. -/
def addresses (b : Addr) (s : Slot) : Set Addr := span (b + BitVec.ofNat 64 s.disp) s.size

/-- The object at `b` has the register's value of `c`. -/
def Held (b : Addr) (m : Mem) (c : Core) : Slot → Prop
  | gp r d => read 64 m (b + BitVec.ofNat 64 d) = c.reg r
  | xmm x d => read 128 m (b + BitVec.ofNat 64 d) = c.xmm x

/-- The register has one value in two cores. -/
def Same (c c' : Core) : Slot → Prop
  | gp r _ => c.reg r = c'.reg r
  | xmm x _ => c.xmm x = c'.xmm x

variable {s t : Slot} {b : Addr} {m m' : Mem} {c c' c'' : Core} {base : Reg} {n : ℕ}

theorem Same.trans (h : s.Same c c') (h' : s.Same c' c'') : s.Same c c'' := by
  cases s with
  | gp r d => exact Eq.trans h h'
  | xmm x d => exact Eq.trans h h'

theorem Same.symm (h : s.Same c c') : s.Same c' c := by
  cases s with
  | gp r d => exact Eq.symm h
  | xmm x d => exact Eq.symm h

/-- Another register is changed. -/
theorem same_setReg {r : Reg} (h : s.target ≠ .inl r) (v : BitVec 64) : s.Same (c.setReg r v) c := by
  cases s with
  | gp r' d => exact c.setReg_of_ne v fun heq => h (congrArg Sum.inl heq)
  | xmm x d => rfl

theorem Held.same (h : s.Held b m c) (hsame : s.Same c c') : s.Held b m c' := by
  cases s with
  | gp r d => exact Eq.trans h hsame
  | xmm x d => exact Eq.trans h hsame

theorem Held.congr (h : s.Held b m c) (heq : Set.EqOn m' m (s.addresses b)) : s.Held b m' c := by
  cases s with
  | gp r d => exact (read_congr (n := 8) heq (by decide) (by decide)).trans h
  | xmm x d => exact (read_congr (n := 16) heq (by decide) (by decide)).trans h

theorem addresses_subset (h : s.Fits n) (hn : n ≤ 2 ^ 64) : s.addresses b ⊆ span b n := span_add_subset h.1 hn

theorem Apart.disjoint (h : s.Apart t) (hs : s.Fits n) (ht : t.Fits n) (hn : n ≤ 2 ^ 64) :
    Disjoint (s.addresses b) (t.addresses b) := by
  have hs := hs.1
  have ht := ht.1
  obtain h | h := h
  · exact disjoint_span_add h (by omega)
  · exact (disjoint_span_add h (by omega)).symm

/-- The moves of an aligned object do not fault. -/
theorem aligned {x : Xmm} {d : ℕ} (h : (xmm x d).Fits n) (hb : b.toNat % 16 = 0) :
    (b + BitVec.ofNat 64 d).toNat % 16 = 0 := by
  obtain ⟨hend, hd⟩ : d + 16 ≤ n ∧ d % 16 = 0 := h
  rw [BitVec.toNat_add, BitVec.toNat_ofNat]
  omega

/-- **A save**: the slot has the register's value, and nothing else changes. -/
theorem step_save (h : s.Fits n) (hbase : c.reg base = b) (hb : b.toNat % 16 = 0) (m : Mem) :
    ∃ m', step (s.save base) c m = some (c, m') ∧ s.Held b m' c ∧
      ∀ S : Set Addr, Disjoint S (s.addresses b) → Set.EqOn m' m S := by
  cases s with
  | gp r d =>
    have haddr : c.addr base d = b + BitVec.ofNat 64 d := by rw [Core.addr, hbase]
    refine ⟨write m (b + BitVec.ofNat 64 d) (c.reg r), by rw [save, step, haddr], ?_, fun S hS => ?_⟩
    · exact read_write_self _ _ _ (by decide)
    · exact eqOn_write (n := 8) _ hS (by decide)
  | xmm x d =>
    have haddr : c.addr base d = b + BitVec.ofNat 64 d := by rw [Core.addr, hbase]
    refine ⟨write m (b + BitVec.ofNat 64 d) (c.xmm x), ?_, ?_, fun S hS => ?_⟩
    · rw [save, step, haddr, if_pos (aligned h hb)]
    · exact read_write_self _ _ _ (by decide)
    · exact eqOn_write (n := 16) _ hS (by decide)

/-- **A load**: the register gets the value that the slot has, and nothing else changes. -/
theorem step_load (h : s.Fits n) (hbase : c.reg base = b) (hb : b.toNat % 16 = 0) (m : Mem) :
    ∃ c', step (s.load base) c m = some (c', m) ∧ (∀ v, s.Held b m v → s.Same c' v) ∧
      (∀ t : Slot, t.target ≠ s.target → t.Same c' c) ∧ (∀ r, s.target ≠ .inl r → c'.reg r = c.reg r) ∧
      c'.rip = c.rip := by
  cases s with
  | gp r d =>
    have haddr : c.addr base d = b + BitVec.ofNat 64 d := by rw [Core.addr, hbase]
    refine ⟨c.setReg r (read 64 m (b + BitVec.ofNat 64 d)), by rw [load, step, haddr], fun v hv => ?_, fun t ht => ?_,
      fun r' hr => ?_, rfl⟩
    · exact (c.setReg_self _).trans hv
    · exact same_setReg ht _
    · exact c.setReg_of_ne _ fun h => hr (congrArg Sum.inl h.symm)
  | xmm x d =>
    have haddr : c.addr base d = b + BitVec.ofNat 64 d := by rw [Core.addr, hbase]
    refine ⟨c.setXmm x (read 128 m (b + BitVec.ofNat 64 d)), ?_, fun v hv => ?_, fun t ht => ?_, fun r hr => rfl, rfl⟩
    · rw [load, step, haddr, if_pos (aligned h hb)]
    · exact (c.setXmm_self _).trans hv
    · cases t with
      | gp r d' => rfl
      | xmm x' d' => exact Function.update_of_ne (fun h => ht (congrArg Sum.inr h)) _ _

/-- The core with the register as the object has it. -/
def fill (b : Addr) (m : Mem) (c : Core) : Slot → Core
  | gp r d => c.setReg r (read 64 m (b + BitVec.ofNat 64 d))
  | xmm x d => c.setXmm x (read 128 m (b + BitVec.ofNat 64 d))

theorem held_fill : s.Held b m (s.fill b m c) := by
  cases s with
  | gp r d => exact (c.setReg_self _).symm
  | xmm x d => exact (c.setXmm_self _).symm

theorem same_fill (h : t.target ≠ s.target) : t.Same (s.fill b m c) c := by
  cases s with
  | gp r d => exact same_setReg h _
  | xmm x d =>
    cases t with
    | gp r d' => rfl
    | xmm x' d' => exact Function.update_of_ne (fun heq => h (congrArg Sum.inr heq)) _ _

/-- There is a core with all the registers that an object has. -/
theorem exists_held {slots : List Slot} (h : slots.Pairwise fun s t => s.target ≠ t.target) (b : Addr) (m : Mem) :
    ∃ c, ∀ s ∈ slots, s.Held b m c := by
  induction slots with
  | nil => exact ⟨⟨fun _ => 0, fun _ => 0, 0⟩, by simp⟩
  | cons s slots ih =>
    obtain ⟨hs, hslots⟩ := List.pairwise_cons.mp h
    obtain ⟨c, hc⟩ := ih hslots
    refine ⟨s.fill b m c, fun t ht => ?_⟩
    obtain rfl | ht := List.mem_cons.mp ht
    · exact held_fill
    · exact (hc t ht).same (same_fill (hs t ht).symm).symm

end Slot

end X64
