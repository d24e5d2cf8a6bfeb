import Cothread.Lib.X64

/-!
# Context switches: the code

`SwapContext`, `MakeContext` and `BthreadStart`, instruction by instruction, for the two calling conventions
(`Linux`, `Windows`). Both have one shape (`Abi`): a switch saves the registers that a function has to keep, the return
address and the stack pointer above it in the `Context` it leaves (`saveCode`), and from there on works with the one it
enters (`loadCode`).

- every step of the first half goes on, writes into the context it leaves only, and with its last step this context has
  all there is to it (`Saving.step`);
- every step of the second half goes on and writes nothing, and its last one leaves the core as the context entered has
  it (`Loading.step`);
- what `MakeContext` writes (`makeContext_exec`).
-/

namespace Cothread.Context

open Bytes X64

/-- `sizeof(Context)`: 128 bytes of `gp_regs`, 160 of `xmm_regs`, `stack_ptr` and `return_addr`. -/
def CONTEXT_SIZE : ℕ := 304

/-- The offset of `stack_ptr`. -/
def STACK_PTR : ℕ := 288

/-- The offset of `return_addr`. -/
def RETURN_ADDR : ℕ := 296

inductive Platform
  | linux
  | windows
  deriving DecidableEq

/-! ## The code -/

namespace Linux

/-- `SwapContext(from, to)`: `rdi` and `rsi`. -/
def swapContext : List Instr :=
  [ .store .rdi 0 .rbx
  , .store .rdi 8 .rbp
  , .store .rdi 16 .r12
  , .store .rdi 24 .r13
  , .store .rdi 32 .r14
  , .store .rdi 40 .r15
  , .load .rax .rsp 0
  , .lea .r11 .rsp 8
  , .store .rdi 288 .r11
  , .store .rdi 296 .rax
  , .load .rbx .rsi 0
  , .load .rbp .rsi 8
  , .load .r12 .rsi 16
  , .load .r13 .rsi 24
  , .load .r14 .rsi 32
  , .load .r15 .rsi 40
  , .load .rsp .rsi 288
  , .load .rax .rsi 296
  , .jmp .rax ]

/-- `MakeContext(ctx, stack_top, stack_size, fn, arg)`: `rdi`, `rsi`, `rdx`, `rcx` and `r8`. -/
def makeContext (bthreadStart : Addr) : List Instr :=
  [ .mov .rax .rsi
  , .sub .rax 32
  , .store .rax 8 .rcx
  , .store .rax 16 .r8
  , .store .rdi 288 .rax
  , .leaLabel .rax bthreadStart
  , .store .rdi 296 .rax
  , .ret ]

def bthreadStart : List Instr :=
  [ .load .rdi .rsp 16
  , .load .rax .rsp 8
  , .add .rsp 8
  , .jmp .rax ]

/-- The registers that a function has to keep, the stack pointer apart. -/
def calleeSaved : List (Reg ⊕ Xmm) := [.inl .rbx, .inl .rbp, .inl .r12, .inl .r13, .inl .r14, .inl .r15]

/-- Where `SwapContext` keeps them. -/
def slots : List Slot := [.gp .rbx 0, .gp .rbp 8, .gp .r12 16, .gp .r13 24, .gp .r14 32, .gp .r15 40]

end Linux

namespace Windows

/-- `SwapContext(from, to)`: `rcx` and `rdx`. -/
def swapContext : List Instr :=
  [ .store .rcx 0 .rbx
  , .store .rcx 8 .rbp
  , .store .rcx 16 .rsi
  , .store .rcx 24 .rdi
  , .store .rcx 32 .r12
  , .store .rcx 40 .r13
  , .store .rcx 48 .r14
  , .store .rcx 56 .r15
  , .storeXmm .rcx 128 .xmm6
  , .storeXmm .rcx 144 .xmm7
  , .storeXmm .rcx 160 .xmm8
  , .storeXmm .rcx 176 .xmm9
  , .storeXmm .rcx 192 .xmm10
  , .storeXmm .rcx 208 .xmm11
  , .storeXmm .rcx 224 .xmm12
  , .storeXmm .rcx 240 .xmm13
  , .storeXmm .rcx 256 .xmm14
  , .storeXmm .rcx 272 .xmm15
  , .load .rax .rsp 0
  , .lea .r11 .rsp 8
  , .store .rcx 288 .r11
  , .store .rcx 296 .rax
  , .load .rbx .rdx 0
  , .load .rbp .rdx 8
  , .load .rsi .rdx 16
  , .load .rdi .rdx 24
  , .load .r12 .rdx 32
  , .load .r13 .rdx 40
  , .load .r14 .rdx 48
  , .load .r15 .rdx 56
  , .loadXmm .xmm6 .rdx 128
  , .loadXmm .xmm7 .rdx 144
  , .loadXmm .xmm8 .rdx 160
  , .loadXmm .xmm9 .rdx 176
  , .loadXmm .xmm10 .rdx 192
  , .loadXmm .xmm11 .rdx 208
  , .loadXmm .xmm12 .rdx 224
  , .loadXmm .xmm13 .rdx 240
  , .loadXmm .xmm14 .rdx 256
  , .loadXmm .xmm15 .rdx 272
  , .load .rsp .rdx 288
  , .load .rax .rdx 296
  , .jmp .rax ]

/-- `MakeContext(ctx, stack_top, stack_size, fn, arg)`: `rcx`, `rdx`, `r8`, `r9` and a word on the stack. -/
def makeContext (bthreadStart : Addr) : List Instr :=
  [ .load .r10 .rsp 40
  , .mov .rax .rdx
  , .sub .rax 32
  , .store .rax 8 .r9
  , .store .rax 16 .r10
  , .store .rcx 288 .rax
  , .leaLabel .rax bthreadStart
  , .store .rcx 296 .rax
  , .ret ]

def bthreadStart : List Instr :=
  [ .load .rcx .rsp 16
  , .load .rax .rsp 8
  , .add .rsp 8
  , .jmp .rax ]

/-- The registers that a function has to keep, the stack pointer apart. -/
def calleeSaved : List (Reg ⊕ Xmm) :=
  [ .inl .rbx, .inl .rbp, .inl .rsi, .inl .rdi, .inl .r12, .inl .r13, .inl .r14, .inl .r15, .inr .xmm6, .inr .xmm7
  , .inr .xmm8, .inr .xmm9, .inr .xmm10, .inr .xmm11, .inr .xmm12, .inr .xmm13, .inr .xmm14, .inr .xmm15 ]

/-- Where `SwapContext` keeps them. -/
def slots : List Slot :=
  [ .gp .rbx 0, .gp .rbp 8, .gp .rsi 16, .gp .rdi 24, .gp .r12 32, .gp .r13 40, .gp .r14 48, .gp .r15 56
  , .xmm .xmm6 128, .xmm .xmm7 144, .xmm .xmm8 160, .xmm .xmm9 176, .xmm .xmm10 192, .xmm .xmm11 208, .xmm .xmm12 224
  , .xmm .xmm13 240, .xmm .xmm14 256, .xmm .xmm15 272 ]

end Windows

/-! ## Its shape -/

/-- What a switch does with the context it leaves. -/
def retCode (fromReg : Reg) : List Instr :=
  [.load .rax .rsp 0, .lea .r11 .rsp 8, .store fromReg STACK_PTR .r11, .store fromReg RETURN_ADDR .rax]

def saveCode (fromReg : Reg) (slots : List Slot) : List Instr := slots.map (Slot.save fromReg) ++ retCode fromReg

def jumpCode (toReg : Reg) : List Instr := [.load .rsp toReg STACK_PTR, .load .rax toReg RETURN_ADDR, .jmp .rax]

/-- What a switch does with the context it enters. -/
def loadCode (toReg : Reg) (slots : List Slot) : List Instr := slots.map (Slot.load toReg) ++ jumpCode toReg

/-- The code of a platform, and how it uses registers and the `Context`. -/
structure Abi where
  swapContext : List Instr
  makeContext : Addr → List Instr
  bthreadStart : List Instr
  fromReg : Reg
  toReg : Reg
  /-- The register of the first argument. -/
  argReg : Reg
  calleeSaved : List (Reg ⊕ Xmm)
  slots : List Slot
  swap_eq : swapContext = saveCode fromReg slots ++ loadCode toReg slots
  targets_eq : slots.map Slot.target = calleeSaved
  fits : ∀ s ∈ slots, s.Fits STACK_PTR
  apart : slots.Pairwise Slot.Apart
  distinct : slots.Pairwise fun s t => s.target ≠ t.target
  scratch : ∀ s ∈ slots, s.target ≠ .inl fromReg ∧ s.target ≠ .inl toReg ∧ s.target ≠ .inl .rax ∧
    s.target ≠ .inl .r11 ∧ s.target ≠ .inl .rsp
  fromReg_ne : fromReg ≠ .rax ∧ fromReg ≠ .r11 ∧ fromReg ≠ .rsp
  toReg_ne : toReg ≠ .rax ∧ toReg ≠ .r11 ∧ toReg ≠ .rsp

/-- The System V calling convention. -/
def Linux.abi : Abi where
  swapContext := Linux.swapContext
  makeContext := Linux.makeContext
  bthreadStart := Linux.bthreadStart
  fromReg := .rdi
  toReg := .rsi
  argReg := .rdi
  calleeSaved := Linux.calleeSaved
  slots := Linux.slots
  swap_eq := rfl
  targets_eq := rfl
  fits := by decide
  apart := by decide
  distinct := by decide
  scratch := by decide
  fromReg_ne := by decide
  toReg_ne := by decide

/-- The calling convention of Windows. -/
def Windows.abi : Abi where
  swapContext := Windows.swapContext
  makeContext := Windows.makeContext
  bthreadStart := Windows.bthreadStart
  fromReg := .rcx
  toReg := .rdx
  argReg := .rcx
  calleeSaved := Windows.calleeSaved
  slots := Windows.slots
  swap_eq := rfl
  targets_eq := rfl
  fits := by decide
  apart := by decide
  distinct := by decide
  scratch := by decide
  fromReg_ne := by decide
  toReg_ne := by decide

def Platform.abi : Platform → Abi
  | .linux => Linux.abi
  | .windows => Windows.abi

/-! ## The steps of a switch -/

section Steps

variable (a : Abi) (b : Addr) (S : Set Addr) (v : Core × Mem)

/-- The `Context` at `b` has the registers of `v`, and the memory in `S` is that of `v`. -/
structure Saved (m : Mem) : Prop where
  slots : ∀ s ∈ a.slots, s.Held b m v.1
  stackPtr : read 64 m (b + BitVec.ofNat 64 STACK_PTR) = v.1.reg .rsp
  returnAddr : read 64 m (b + BitVec.ofNat 64 RETURN_ADDR) = v.1.rip
  mem : Set.EqOn m v.2 S

/-- The core has the registers of `v`, and the memory in `S` is that of `v`. -/
structure Shown (c : Core) (m : Mem) : Prop where
  slots : ∀ s ∈ a.slots, s.Same c v.1
  rsp : c.reg .rsp = v.1.reg .rsp
  rip : c.rip = v.1.rip
  mem : Set.EqOn m v.2 S

/-- The core in the first half of a switch: `v` is what it is to return with. -/
structure Leaving (c : Core) (m : Mem) : Prop where
  fromReg : c.reg a.fromReg = b
  slots : ∀ s ∈ a.slots, s.Same c v.1
  rsp : c.reg .rsp + 8 = v.1.reg .rsp
  ret : read 64 m (c.reg .rsp) = v.1.rip
  stack : span (c.reg .rsp) 8 ⊆ S
  mem : Set.EqOn m v.2 S

/-- What is done of the first half when there is `code` to do. -/
inductive Saving (c : Core) (m : Mem) : List Instr → Prop
  | slots {done todo : List Slot} (hsplit : a.slots = done ++ todo) (held : ∀ s ∈ done, s.Held b m v.1) :
    Saving c m (saveCode a.fromReg todo)
  | pointer (held : ∀ s ∈ a.slots, s.Held b m v.1) (rax : c.reg .rax = v.1.rip) :
    Saving c m [.lea .r11 .rsp 8, .store a.fromReg STACK_PTR .r11, .store a.fromReg RETURN_ADDR .rax]
  | stackPtr (held : ∀ s ∈ a.slots, s.Held b m v.1) (rax : c.reg .rax = v.1.rip) (r11 : c.reg .r11 = v.1.reg .rsp) :
    Saving c m [.store a.fromReg STACK_PTR .r11, .store a.fromReg RETURN_ADDR .rax]
  | returnAddr (held : ∀ s ∈ a.slots, s.Held b m v.1) (rax : c.reg .rax = v.1.rip)
    (stackPtr : read 64 m (b + BitVec.ofNat 64 STACK_PTR) = v.1.reg .rsp) :
    Saving c m [.store a.fromReg RETURN_ADDR .rax]

/-- What is done of the second half when there is `code` to do. -/
inductive Loading (c : Core) : List Instr → Prop
  | slots {done todo : List Slot} (hsplit : a.slots = done ++ todo) (same : ∀ s ∈ done, s.Same c v.1) :
    Loading c (loadCode a.toReg todo)
  | returnAddr (same : ∀ s ∈ a.slots, s.Same c v.1) (rsp : c.reg .rsp = v.1.reg .rsp) :
    Loading c [.load .rax a.toReg RETURN_ADDR, .jmp .rax]
  | jump (same : ∀ s ∈ a.slots, s.Same c v.1) (rsp : c.reg .rsp = v.1.reg .rsp) (rax : c.reg .rax = v.1.rip) :
    Loading c [.jmp .rax]

variable {a b S v} {c : Core} {m m' : Mem} {i : Instr} {rest : List Instr}

/-- The two words at the end of a `Context` and the slots do not meet. -/
theorem disjoint_slot {s : Slot} (h : s ∈ a.slots) {d : ℕ} (hd : STACK_PTR ≤ d) (hend : d + 8 ≤ CONTEXT_SIZE) :
    Disjoint (s.addresses b) (span (b + BitVec.ofNat 64 d) 8) := by
  have hfits := (a.fits s h).1
  have hsize : CONTEXT_SIZE = 304 := rfl
  exact disjoint_span_add (by omega) (by omega)

theorem slot_subset {s : Slot} (h : s ∈ a.slots) : s.addresses b ⊆ span b CONTEXT_SIZE := by
  refine Slot.addresses_subset ⟨?_, (a.fits s h).2⟩ (by decide)
  exact (a.fits s h).1.trans (by decide)

theorem Saved.congr (h : Saved a b S v m) (hctx : Set.EqOn m' m (span b CONTEXT_SIZE)) (hS : Set.EqOn m' m S) :
    Saved a b S v m' where
  slots s hs := (h.slots s hs).congr (hctx.mono (slot_subset hs))
  stackPtr := (read_congr (n := 8) (hctx.mono (span_add_subset (by decide) (by decide))) (by decide) (by decide)).trans
    h.stackPtr
  returnAddr := (read_congr (n := 8) (hctx.mono (span_add_subset (by decide) (by decide))) (by decide)
    (by decide)).trans h.returnAddr
  mem := hS.trans h.mem

theorem Leaving.congr (h : Leaving a b S v c m) (hS : Set.EqOn m' m S) : Leaving a b S v c m' where
  fromReg := h.fromReg
  slots := h.slots
  rsp := h.rsp
  ret := (read_congr (n := 8) (hS.mono h.stack) (by decide) (by decide)).trans h.ret
  stack := h.stack
  mem := hS.trans h.mem

theorem Shown.congr (h : Shown a S v c m) (hS : Set.EqOn m' m S) : Shown a S v c m' where
  slots := h.slots
  rsp := h.rsp
  rip := h.rip
  mem := hS.trans h.mem

theorem Saving.congr {code : List Instr} (h : Saving a b v c m code) (hctx : Set.EqOn m' m (span b CONTEXT_SIZE)) :
    Saving a b v c m' code := by
  have hheld {s : Slot} (hs : s ∈ a.slots) (hheld : s.Held b m v.1) : s.Held b m' v.1 :=
    hheld.congr (hctx.mono (slot_subset hs))
  cases h with
  | slots hsplit held => exact .slots hsplit fun s hs => hheld (hsplit ▸ List.mem_append_left _ hs) (held s hs)
  | pointer held rax => exact .pointer (fun s hs => hheld hs (held s hs)) rax
  | stackPtr held rax r11 => exact .stackPtr (fun s hs => hheld hs (held s hs)) rax r11
  | returnAddr held rax stackPtr =>
    refine .returnAddr (fun s hs => hheld hs (held s hs)) rax (Eq.trans ?_ stackPtr)
    exact read_congr (n := 8) (hctx.mono (span_add_subset (by decide) (by decide))) (by decide) (by decide)

theorem Saving.ne_nil {code : List Instr} (h : Saving a b v c m code) : code ≠ [] := by
  cases h with
  | slots hsplit held => simp [saveCode, retCode]
  | pointer held rax => simp
  | stackPtr held rax r11 => simp
  | returnAddr held rax stackPtr => simp

theorem Loading.ne_nil {code : List Instr} (h : Loading a v c code) : code ≠ [] := by
  cases h with
  | slots hsplit same => simp [loadCode, jumpCode]
  | returnAddr same rsp => simp
  | jump same rsp rax => simp

/-- A register that the first half may use is changed. -/
theorem Leaving.setReg (h : Leaving a b S v c m) {r : Reg} (hr : r = .rax ∨ r = .r11) (x : BitVec 64) :
    Leaving a b S v (c.setReg r x) m where
  fromReg := by
    rw [Core.setReg_of_ne]
    · exact h.fromReg
    · obtain rfl | rfl := hr
      · exact a.fromReg_ne.1
      · exact a.fromReg_ne.2.1
  slots s hs := by
    refine (Slot.same_setReg ?_ x).trans (h.slots s hs)
    obtain rfl | rfl := hr
    · exact (a.scratch s hs).2.2.1
    · exact (a.scratch s hs).2.2.2.1
  rsp := by
    rw [Core.setReg_of_ne]
    · exact h.rsp
    · obtain rfl | rfl := hr <;> decide
  ret := by
    rw [Core.setReg_of_ne]
    · exact h.ret
    · obtain rfl | rfl := hr <;> decide
  stack := by
    rw [Core.setReg_of_ne]
    · exact h.stack
    · obtain rfl | rfl := hr <;> decide
  mem := h.mem

/-- A store into the `Context` that is left. -/
theorem Leaving.store (h : Leaving a b S v c m) (hS : Disjoint S (span b CONTEXT_SIZE)) {d : ℕ} (r : Reg)
    (hend : d + 8 ≤ CONTEXT_SIZE) : ∃ m', X64.step (.store a.fromReg d r) c m = some (c, m') ∧
      (∀ T : Set Addr, Disjoint T (span b CONTEXT_SIZE) → Set.EqOn m' m T) ∧ Leaving a b S v c m' ∧
      read 64 m' (b + BitVec.ofNat 64 d) = c.reg r ∧
      ∀ T : Set Addr, Disjoint T (span (b + BitVec.ofNat 64 d) 8) → Set.EqOn m' m T := by
  have hwrite (T : Set Addr) (hT : Disjoint T (span (b + BitVec.ofNat 64 d) 8)) :
      Set.EqOn (write m (b + BitVec.ofNat 64 d) (c.reg r)) m T := eqOn_write _ hT (by decide)
  have hout (T : Set Addr) (hT : Disjoint T (span b CONTEXT_SIZE)) :
      Set.EqOn (write m (b + BitVec.ofNat 64 d) (c.reg r)) m T :=
    hwrite T (hT.mono_right (span_add_subset hend (by decide)))
  refine ⟨write m (b + BitVec.ofNat 64 d) (c.reg r), ?_, hout, h.congr (hout S hS), ?_, hwrite⟩
  · rw [X64.step, Core.addr, h.fromReg]
  · exact read_write_self _ _ _ (by decide)

/-- **A step of the first half.** -/
theorem Saving.step (hS : Disjoint S (span b CONTEXT_SIZE)) (hb : b.toNat % 16 = 0) (hl : Leaving a b S v c m)
    (h : Saving a b v c m (i :: rest)) : ∃ c' m', X64.step i c m = some (c', m') ∧ c'.reg a.toReg = c.reg a.toReg ∧
      (∀ T : Set Addr, Disjoint T (span b CONTEXT_SIZE) → Set.EqOn m' m T) ∧
      (rest ≠ [] → Leaving a b S v c' m' ∧ Saving a b v c' m' rest) ∧ (rest = [] → Saved a b S v m') := by
  generalize hcode : i :: rest = code at h
  cases h with
  | @slots done todo hsplit held =>
    cases todo with
    | nil =>
      -- all registers are saved: the return address is read from the stack
      obtain ⟨rfl, rfl⟩ := List.cons.inj hcode
      rw [List.append_nil] at hsplit
      have haddr : c.addr .rsp 0 = c.reg .rsp := BitVec.add_zero _
      refine ⟨c.setReg .rax (v.1.rip), m, ?_, ?_, fun T _ => Set.eqOn_refl m T, fun _ => ⟨?_, ?_⟩, by simp⟩
      · rw [X64.step, haddr, hl.ret]
      · exact c.setReg_of_ne _ a.toReg_ne.1
      · exact hl.setReg (.inl rfl) _
      · refine .pointer (fun s hs => held s (hsplit ▸ hs)) (c.setReg_self _)
    | cons s todo =>
      obtain ⟨rfl, rfl⟩ := List.cons.inj hcode
      have hs : s ∈ a.slots := hsplit ▸ List.mem_append_right done List.mem_cons_self
      obtain ⟨m', hstep, hheld, hframe⟩ := Slot.step_save (a.fits s hs) hl.fromReg hb m
      have hout (T : Set Addr) (hT : Disjoint T (span b CONTEXT_SIZE)) : Set.EqOn m' m T :=
        hframe T (hT.mono_right (slot_subset hs))
      refine ⟨c, m', hstep, rfl, hout, fun _ => ⟨hl.congr (hout S hS), ?_⟩, fun hnil => ?_⟩
      · have hsplit' : a.slots = (done ++ [s]) ++ todo := by rw [hsplit, List.append_assoc]; rfl
        refine .slots hsplit' fun t ht => ?_
        obtain ht | ht := List.mem_append.mp ht
        · have hapart := List.pairwise_append.mp (hsplit ▸ a.apart)
          have hmem : t ∈ a.slots := hsplit ▸ List.mem_append_left _ ht
          have hdisj := (hapart.2.2 t ht s List.mem_cons_self).disjoint (b := b) (a.fits t hmem) (a.fits s hs)
            (by decide)
          exact (held t ht).congr (hframe _ hdisj)
        · rw [List.mem_singleton.mp ht]
          exact hheld.same (hl.slots s hs)
      · exact absurd hnil (by simp [retCode])
  | pointer held rax =>
    obtain ⟨rfl, rfl⟩ := List.cons.inj hcode
    refine ⟨c.setReg .r11 (c.addr .rsp 8), m, rfl, ?_, fun T _ => Set.eqOn_refl m T, fun _ => ⟨?_, ?_⟩, by simp⟩
    · exact c.setReg_of_ne _ a.toReg_ne.2.1
    · exact hl.setReg (.inr rfl) _
    · refine .stackPtr held ?_ ?_
      · rw [c.setReg_of_ne _ (by decide)]
        exact rax
      · rw [c.setReg_self]
        exact hl.rsp
  | stackPtr held rax r11 =>
    obtain ⟨rfl, rfl⟩ := List.cons.inj hcode
    obtain ⟨m', hstep, hout, hl', hread, hwrite⟩ := hl.store hS (d := STACK_PTR) .r11 (by decide)
    refine ⟨c, m', hstep, rfl, hout, fun _ => ⟨hl', ?_⟩, by simp⟩
    refine .returnAddr (fun s hs => (held s hs).congr (hwrite _ ?_)) rax (hread.trans r11)
    exact disjoint_slot hs (Nat.le_refl _) (by decide)
  | returnAddr held rax stackPtr =>
    obtain ⟨rfl, rfl⟩ := List.cons.inj hcode
    obtain ⟨m', hstep, hout, hl', hread, hwrite⟩ := hl.store hS (d := RETURN_ADDR) .rax (by decide)
    refine ⟨c, m', hstep, rfl, hout, by simp, fun _ => ⟨fun s hs => ?_, ?_, hread.trans rax, hl'.mem⟩⟩
    · exact (held s hs).congr (hwrite _ (disjoint_slot hs (by decide) (by decide)))
    · refine (read_congr (n := 8) (hwrite _ ?_) (by decide) (by decide)).trans stackPtr
      exact disjoint_span_add (by decide) (by decide)

/-- **A step of the second half.** -/
theorem Loading.step (hb : b.toNat % 16 = 0) (hto : c.reg a.toReg = b) (hs : Saved a b S v m)
    (h : Loading a v c (i :: rest)) : ∃ c', X64.step i c m = some (c', m) ∧
      (rest ≠ [] → c'.reg a.toReg = b ∧ Loading a v c' rest) ∧ (rest = [] → Shown a S v c' m) := by
  generalize hcode : i :: rest = code at h
  cases h with
  | @slots done todo hsplit same =>
    cases todo with
    | nil =>
      obtain ⟨rfl, rfl⟩ := List.cons.inj hcode
      rw [List.append_nil] at hsplit
      refine ⟨c.setReg .rsp (v.1.reg .rsp), ?_, fun _ => ⟨?_, ?_⟩, by simp⟩
      · rw [X64.step, Core.addr, hto, hs.stackPtr]
      · exact (c.setReg_of_ne _ a.toReg_ne.2.2).trans hto
      · refine .returnAddr (fun s hmem => ?_) (c.setReg_self _)
        exact (Slot.same_setReg (a.scratch s hmem).2.2.2.2 _).trans (same s (hsplit ▸ hmem))
    | cons s todo =>
      obtain ⟨rfl, rfl⟩ := List.cons.inj hcode
      have hmem : s ∈ a.slots := hsplit ▸ List.mem_append_right done List.mem_cons_self
      obtain ⟨c', hstep, hload, hother, hregs, -⟩ := Slot.step_load (a.fits s hmem) hto hb m
      refine ⟨c', hstep, fun _ => ⟨?_, ?_⟩, fun hnil => ?_⟩
      · exact (hregs _ (a.scratch s hmem).2.1).trans hto
      · have hsplit' : a.slots = (done ++ [s]) ++ todo := by rw [hsplit, List.append_assoc]; rfl
        refine .slots hsplit' fun t ht => ?_
        obtain ht | ht := List.mem_append.mp ht
        · have hdistinct := List.pairwise_append.mp (hsplit ▸ a.distinct)
          exact (hother t (hdistinct.2.2 t ht s List.mem_cons_self)).trans (same t ht)
        · rw [List.mem_singleton.mp ht]
          exact hload v.1 (hs.slots s hmem)
      · exact absurd hnil (by simp [jumpCode])
  | returnAddr same rsp =>
    obtain ⟨rfl, rfl⟩ := List.cons.inj hcode
    refine ⟨c.setReg .rax v.1.rip, ?_, fun _ => ⟨?_, ?_⟩, by simp⟩
    · rw [X64.step, Core.addr, hto, hs.returnAddr]
    · exact (c.setReg_of_ne _ a.toReg_ne.1).trans hto
    · refine .jump (fun s hmem => ?_) ?_ (c.setReg_self _)
      · exact (Slot.same_setReg (a.scratch s hmem).2.2.1 _).trans (same s hmem)
      · exact (c.setReg_of_ne _ (by decide)).trans rsp
  | jump same rsp rax =>
    obtain ⟨rfl, rfl⟩ := List.cons.inj hcode
    exact ⟨{ c with rip := c.reg .rax }, rfl, by simp, fun _ => ⟨same, rsp, rax, hs.mem⟩⟩

end Steps

/-! ## A new context -/

/-- The arguments of `MakeContext`, where its caller puts them. -/
def MakeArgs : Platform → Core → Mem → (ctx top fn arg : BitVec 64) → Prop
  | .linux, c, _, ctx, top, fn, arg => c.reg .rdi = ctx ∧ c.reg .rsi = top ∧ c.reg .rcx = fn ∧ c.reg .r8 = arg
  | .windows, c, m, ctx, top, fn, arg =>
    c.reg .rcx = ctx ∧ c.reg .rdx = top ∧ c.reg .r9 = fn ∧ read 64 m (c.reg .rsp + 40) = arg

/-- The memory after `MakeContext`. -/
def made (m : Mem) (ctx top fn arg bthreadStart : BitVec 64) : Mem :=
  let m := write m (top - 32 + BitVec.ofNat 64 8) fn
  let m := write m (top - 32 + BitVec.ofNat 64 16) arg
  let m := write m (ctx + BitVec.ofNat 64 STACK_PTR) (top - 32)
  write m (ctx + BitVec.ofNat 64 RETURN_ADDR) bthreadStart

variable {p : Platform} {c : Core} {m : Mem} {ctx top fn arg start : BitVec 64}

/-- **`MakeContext`** writes four words, and returns. -/
theorem makeContext_exec (start : BitVec 64) (h : MakeArgs p c m ctx top fn arg) :
    ∃ c', exec (p.abi.makeContext start) c m = some (c', made m ctx top fn arg start) ∧
      c'.reg .rsp = c.reg .rsp + 8 ∧ c'.rip = read 64 (made m ctx top fn arg start) (c.reg .rsp) ∧
      ∀ s ∈ p.abi.slots, s.Same c' c := by
  cases p with
  | linux =>
    obtain ⟨rfl, rfl, rfl, rfl⟩ := h
    let c₀ := (((c.setReg .rax (c.reg .rsi)).setReg .rax (c.reg .rsi - 32)).setReg .rax start)
    refine ⟨{ c₀.setReg .rsp (c.reg .rsp + 8) with
      rip := read 64 (made m (c.reg .rdi) (c.reg .rsi) (c.reg .rcx) (c.reg .r8) start) (c.reg .rsp) }, ?_, ?_, ?_, ?_⟩
    · simp [c₀, Platform.abi, Linux.abi, Linux.makeContext, exec, X64.step, Core.setReg, Core.addr, made,
        STACK_PTR, RETURN_ADDR]
    · simp [Core.setReg]
    · rfl
    · simp [c₀, Platform.abi, Linux.abi, Linux.slots, Slot.Same, Core.setReg]
  | windows =>
    obtain ⟨rfl, rfl, rfl, rfl⟩ := h
    let c₀ := (c.setReg .r10 (read 64 m (c.reg .rsp + 40)))
    let c₁ := (((c₀.setReg .rax (c.reg .rdx)).setReg .rax (c.reg .rdx - 32)).setReg .rax start)
    refine ⟨{ c₁.setReg .rsp (c.reg .rsp + 8) with
      rip := read 64 (made m (c.reg .rcx) (c.reg .rdx) (c.reg .r9) (read 64 m (c.reg .rsp + 40)) start)
        (c.reg .rsp) }, ?_, ?_, ?_, ?_⟩
    · simp [c₀, c₁, Platform.abi, Windows.abi, Windows.makeContext, exec, X64.step, Core.setReg, Core.addr, made,
        STACK_PTR, RETURN_ADDR]
    · simp [Core.setReg]
    · rfl
    · simp [c₀, c₁, Platform.abi, Windows.abi, Windows.slots, Slot.Same, Core.setReg]

section Made

variable (hdisj : Disjoint (span (top - 32) 32) (span ctx CONTEXT_SIZE))
include hdisj

omit hdisj in
theorem made_eqOn {T : Set Addr} (hctx : Disjoint T (span ctx CONTEXT_SIZE)) (htop : Disjoint T (span (top - 32) 32)) :
    Set.EqOn (made m ctx top fn arg start) m T := by
  have hpart {d : ℕ} (hd : d + 8 ≤ CONTEXT_SIZE) : Disjoint T (span (ctx + BitVec.ofNat 64 d) 8) :=
    hctx.mono_right (span_add_subset hd (by decide))
  have hword {d : ℕ} (hd : d + 8 ≤ 32) : Disjoint T (span (top - 32 + BitVec.ofNat 64 d) 8) :=
    htop.mono_right (span_add_subset hd (by decide))
  refine (eqOn_write _ (hpart (by decide)) (by decide)).trans ?_
  refine (eqOn_write _ (hpart (by decide)) (by decide)).trans ?_
  refine (eqOn_write _ (hword (by decide)) (by decide)).trans ?_
  exact eqOn_write _ (hword (by decide)) (by decide)

omit hdisj in
theorem made_returnAddr : read 64 (made m ctx top fn arg start) (ctx + BitVec.ofNat 64 RETURN_ADDR) = start :=
  read_write_self _ _ _ (by decide)

omit hdisj in
theorem made_stackPtr : read 64 (made m ctx top fn arg start) (ctx + BitVec.ofNat 64 STACK_PTR) = top - 32 := by
  rw [made, read_write_of_disjoint (n := 8) (k := 8) _ (disjoint_span_add (by decide) (by decide)) (by decide)
    (by decide) (by decide)]
  exact read_write_self _ _ _ (by decide)

/-- A word on the new stack is not in the `Context`. -/
theorem read_made {d : ℕ} (hd : d + 8 ≤ 32) (mem : Mem) :
    read 64 (write (write mem (ctx + BitVec.ofNat 64 STACK_PTR) (top - 32)) (ctx + BitVec.ofNat 64 RETURN_ADDR) start)
      (top - 32 + BitVec.ofNat 64 d) = read 64 mem (top - 32 + BitVec.ofNat 64 d) := by
  have hpart {e : ℕ} (he : e + 8 ≤ CONTEXT_SIZE) :
      Disjoint (span (top - 32 + BitVec.ofNat 64 d) 8) (span (ctx + BitVec.ofNat 64 e) 8) :=
    hdisj.mono (span_add_subset hd (by decide)) (span_add_subset he (by decide))
  rw [read_write_of_disjoint (n := 8) _ (hpart (by decide)) (by decide) (by decide) (by decide),
    read_write_of_disjoint (n := 8) _ (hpart (by decide)) (by decide) (by decide) (by decide)]

theorem made_fn : read 64 (made m ctx top fn arg start) (top - 32 + BitVec.ofNat 64 8) = fn := by
  rw [made, read_made hdisj (by decide), read_write_of_disjoint (n := 8) (k := 8) _
    (disjoint_span_add (by decide) (by decide)) (by decide) (by decide) (by decide)]
  exact read_write_self _ _ _ (by decide)

theorem made_arg : read 64 (made m ctx top fn arg start) (top - 32 + BitVec.ofNat 64 16) = arg := by
  rw [made, read_made hdisj (by decide)]
  exact read_write_self _ _ _ (by decide)

end Made

/-- The core that a new context is entered with: the registers that are kept are what the `Context` has in it. -/
theorem exists_made (a : Abi) (m : Mem) (ctx top start : BitVec 64) :
    ∃ v : Core, (∀ s ∈ a.slots, s.Held ctx m v) ∧ v.reg .rsp = top - 32 ∧ v.rip = start := by
  obtain ⟨v, hv⟩ := Slot.exists_held a.distinct ctx m
  refine ⟨{ v.setReg .rsp (top - 32) with rip := start }, fun s hs => ?_, v.setReg_self (r := .rsp) _, rfl⟩
  have hsame : s.Same (v.setReg .rsp (top - 32)) v := Slot.same_setReg (a.scratch s hs).2.2.2.2 _
  exact (hv s hs).same hsame.symm

/-- **`BthreadStart`** goes to the function on the stack with its argument. -/
theorem bthreadStart_exec (hrsp : c.reg .rsp = top - 32) (hfn : read 64 m (top - 32 + BitVec.ofNat 64 8) = fn)
    (harg : read 64 m (top - 32 + BitVec.ofNat 64 16) = arg) :
    ∃ c', exec p.abi.bthreadStart c m = some (c', m) ∧ c'.rip = fn ∧ c'.reg p.abi.argReg = arg ∧
      c'.reg .rsp = top - 24 := by
  subst hfn harg
  have hsum : top - 32#64 + 8#64 = top - 24#64 := by bv_omega
  cases p with
  | linux =>
    let c₀ := (((c.setReg .rdi (read 64 m (top - 32 + BitVec.ofNat 64 16))).setReg .rax
      (read 64 m (top - 32 + BitVec.ofNat 64 8))).setReg .rsp (c.reg .rsp + 8))
    refine ⟨{ c₀ with rip := read 64 m (top - 32 + BitVec.ofNat 64 8) }, ?_, rfl, ?_, ?_⟩
    · simp [c₀, Platform.abi, Linux.abi, Linux.bthreadStart, exec, X64.step, Core.setReg, Core.addr, hrsp]
    · simp [c₀, Platform.abi, Linux.abi, Core.setReg]
    · simp [c₀, Core.setReg, hrsp, hsum]
  | windows =>
    let c₀ := (((c.setReg .rcx (read 64 m (top - 32 + BitVec.ofNat 64 16))).setReg .rax
      (read 64 m (top - 32 + BitVec.ofNat 64 8))).setReg .rsp (c.reg .rsp + 8))
    refine ⟨{ c₀ with rip := read 64 m (top - 32 + BitVec.ofNat 64 8) }, ?_, rfl, ?_, ?_⟩
    · simp [c₀, Platform.abi, Windows.abi, Windows.bthreadStart, exec, X64.step, Core.setReg, Core.addr, hrsp]
    · simp [c₀, Platform.abi, Windows.abi, Core.setReg]
    · simp [c₀, Core.setReg, hrsp, hsum]

end Cothread.Context
