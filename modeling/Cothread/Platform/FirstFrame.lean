import Cothread.Platform.Context
import Cothread.Platform.Stack

/-!
# `MakeContext` on the stack of `AllocateStack`

`MakeContext` does not look at the size of the stack: it writes two words at 24 and 16 bytes below the top. Below the
stack there are the guard page and the page before it. The words are above them if and only if the stack is asked for
with 16 bytes or more on Linux, which adds 16 bytes to it, and with 32 or more on Windows
(`makeContext_spares_guard_iff`).
-/

namespace Cothread.Context

open Bytes X64

variable {p : Platform} {base size top ctx start : BitVec 64}

/-- `AllocateStack(size)`: the top; `map` gives the base of a mapping of some length, or fails. -/
def Platform.allocateStack : Platform → (BitVec 64 → Option (BitVec 64)) → BitVec 64 → Option (BitVec 64)
  | .linux, map, size => (Stack.Linux.allocateStack map (fun _ => 0) size).map fun a => a.stackTop
  | .windows, map, size => Stack.Windows.allocateStack map size

/-- `total` in `AllocateStack`. -/
def Platform.total : Platform → BitVec 64 → BitVec 64
  | .linux, size => Stack.Linux.total size
  | .windows, size => Stack.Windows.total size

/-- What the base of a mapping is a multiple of. -/
def Platform.granularity : Platform → ℕ
  | .linux => 4096
  | .windows => 65536

/-- The smallest stack that the two words fit on. -/
def Platform.least : Platform → ℕ
  | .linux => 16
  | .windows => 32

/-- The two pages below the stack: those of the header and the guard on Linux, of the guards on Windows. -/
def below (base : BitVec 64) : Set Addr := span base (2 * 4096)

/-- Whatever its arguments are, `MakeContext` writes nothing there. -/
def SparesGuard (p : Platform) (base top ctx start : BitVec 64) : Prop :=
  ∀ c m fn arg c' m', MakeArgs p c m ctx top fn arg → exec (p.abi.makeContext start) c m = some (c', m') →
    Set.EqOn m' m (below base)

/-- **The top**, on both platforms. -/
theorem Platform.allocateStack_eq {map : BitVec 64 → Option (BitVec 64)} (hmap : map (p.total size) = some base)
    (halign : base.toNat % p.granularity = 0) (hfits : base.toNat + (2 * 4096 + size.toNat + 16) < 2 ^ 64) :
    ∃ top, p.allocateStack map size = some top ∧ top.toNat % 16 = 0 ∧
      top.toNat ≤ base.toNat + (p.total size).toNat ∧ base.toNat + (p.total size).toNat < 2 ^ 64 ∧
      base.toNat + 2 * 4096 ≤ top.toNat ∧
      (base.toNat + 2 * 4096 + 32 ≤ top.toNat ↔ p.least ≤ size.toNat) ∧
      (size.toNat < p.least → top.toNat ≤ base.toNat + 2 * 4096 + 16) := by
  cases p with
  | linux =>
    have htop := Stack.Linux.stackTop_eq halign hfits
    have htotal : (Platform.total .linux size).toNat = 2 * 4096 + size.toNat + 16 := Stack.Linux.total_toNat hfits
    have hleast : Platform.least .linux = 16 := rfl
    refine ⟨Stack.alignTop (base + Stack.Linux.total size), ?_, ?_, by omega, by omega, by omega, by omega, by omega⟩
    · have hmap' : map (Stack.Linux.total size) = some base := hmap
      rw [Platform.allocateStack, Stack.Linux.allocateStack, hmap']
      rfl
    · rw [Stack.alignTop_toNat]
      omega
  | windows =>
    have hfits' : base.toNat + (size.toNat + 2 * 4096) < 2 ^ 64 := by omega
    have htop := Stack.Windows.stackTop_eq halign hfits'
    have hsum := Stack.Windows.toNat_top hfits'
    have hleast : Platform.least .windows = 32 := rfl
    have htotal : (Platform.total .windows size).toNat = size.toNat + 2 * 4096 := by
      have hpages : Stack.PAGE_SIZE * Stack.Windows.STACK_GUARD_PAGES = 8192 := rfl
      rw [Platform.total, Stack.Windows.total, hpages]
      bv_omega
    refine ⟨Stack.alignTop (base + Stack.Windows.total size), ?_, ?_, by omega, by omega, by omega, by omega, by omega⟩
    · have hmap' : map (Stack.Windows.total size) = some base := hmap
      rw [Platform.allocateStack, Stack.Windows.allocateStack, hmap']
      rfl
    · rw [Stack.alignTop_toNat]
      omega

/-- Arguments for `MakeContext`: a function that is not null, in a memory of zeros. -/
theorem exists_makeArgs (p : Platform) (ctx top : BitVec 64) :
    ∃ c arg, MakeArgs p c (fun _ => 0) ctx top (-1) arg := by
  let core (rdi rsi rcx rdx r8 r9 : BitVec 64) : Core :=
    ⟨fun | .rdi => rdi | .rsi => rsi | .rcx => rcx | .rdx => rdx | .r8 => r8 | .r9 => r9 | _ => 0, fun _ => 0, 0⟩
  cases p with
  | linux => exact ⟨core ctx top (-1) 0 0 0, 0, rfl, rfl, rfl, rfl⟩
  | windows => exact ⟨core 0 0 ctx top 0 (-1), _, rfl, rfl, rfl, rfl⟩

/-- **The words of `MakeContext` are on the stack** if and only if the stack is asked for with 16 bytes or more on
Linux, 32 or more on Windows. The top is aligned, and in the mapping. -/
theorem makeContext_spares_guard_iff {map : BitVec 64 → Option (BitVec 64)} (hmap : map (p.total size) = some base)
    (halign : base.toNat % p.granularity = 0) (hfits : base.toNat + (2 * 4096 + size.toNat + 16) < 2 ^ 64)
    (hctx : Disjoint (span base (p.total size).toNat) (span ctx CONTEXT_SIZE)) :
    ∃ top, p.allocateStack map size = some top ∧ top.toNat % 16 = 0 ∧
      (SparesGuard p base top ctx start ↔ p.least ≤ size.toNat) := by
  obtain ⟨top, htop, haligned, hmapped, hend, hpages, hleast, hsmall⟩ := p.allocateStack_eq hmap halign hfits
  refine ⟨top, htop, haligned, ?_⟩
  constructor
  · intro hspares
    by_contra hnot
    have hlow := hsmall (by omega)
    -- the word for the function is on the page
    obtain ⟨c, arg, hargs⟩ := exists_makeArgs p ctx top
    obtain ⟨c', hexec, -⟩ := makeContext_exec start hargs
    have hword : span (top - 32 + BitVec.ofNat 64 8) 8 ⊆ below base :=
      span_subset (by bv_omega) (by bv_omega) (by omega)
    have hframe : Disjoint (span (top - 32) 32) (span ctx CONTEXT_SIZE) :=
      hctx.mono_left (span_subset (by bv_omega) (by bv_omega) (by omega))
    have hsame := read_congr ((hspares _ _ _ _ _ _ hargs hexec).mono hword) (w := 64) (by decide) (by decide)
    rw [made_fn hframe, read_zero] at hsame
    exact absurd hsame (by decide)
  · intro hle c m fn arg c' m' hargs hexec
    obtain ⟨c'', hexec', -⟩ := makeContext_exec start hargs
    cases hexec.symm.trans hexec'
    have hhigh := hleast.mpr hle
    refine made_eqOn (hctx.mono_left ?_) ?_
    · exact span_subset le_rfl (by omega) (by omega)
    · exact disjoint_span (by bv_omega) (by bv_omega)

/-- A stack of 15 bytes is too small, and one of 16 bytes is not. -/
theorem makeContext_spares_guard_iff_fifteen :
    (∃ top, Platform.allocateStack .linux (fun _ => some 0x10000) 15 = some top ∧
      ¬SparesGuard .linux 0x10000 top 0x1000 0x400000) ∧
    ∃ top, Platform.allocateStack .linux (fun _ => some 0x10000) 16 = some top ∧
      SparesGuard .linux 0x10000 top 0x1000 0x400000 := by
  have hctx {n : ℕ} (hn : n ≤ 0x10000) : Disjoint (span 0x10000 n) (span 0x1000 CONTEXT_SIZE) := by
    refine (disjoint_span (by decide) ?_).symm
    have hbase : (0x10000 : BitVec 64).toNat = 0x10000 := rfl
    omega
  constructor
  · obtain ⟨top, htop, -, hiff⟩ := @makeContext_spares_guard_iff .linux 0x10000 15 0x1000 0x400000
      (fun _ => some 0x10000) rfl (by decide) (by decide) (hctx (by decide))
    exact ⟨top, htop, fun hspares => absurd (hiff.mp hspares) (by decide)⟩
  · obtain ⟨top, htop, -, hiff⟩ := @makeContext_spares_guard_iff .linux 0x10000 16 0x1000 0x400000
      (fun _ => some 0x10000) rfl (by decide) (by decide) (hctx (by decide))
    exact ⟨top, htop, hiff.mpr (by decide)⟩

end Cothread.Context
