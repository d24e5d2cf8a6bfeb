import Cothread.Lib.Mask
import Mathlib.Logic.Function.Basic

/-!
# `AllocateStack` and `DeallocateStack`

Both platforms return the end of a mapping, rounded down to a multiple of 16, and find the base again from this top and
the size. On Linux the mapping has 16 bytes more than the pages and the stack, and the base is found by rounding down to
a page: whatever the size, the slack of the top is within the page (`stackTop_eq`, `headerPageStart_eq`). On Windows the
base is the top less the length, which is the base only when the rounding has changed nothing (`windows_iff`).
-/

namespace Cothread.Stack

open Mask

def PAGE_SIZE : BitVec 64 := 4096

/-- `reinterpret_cast<uintptr_t>(p) & ~0xF`. -/
def alignTop (p : BitVec 64) : BitVec 64 := p &&& ~~~0xF

theorem alignTop_toNat (p : BitVec 64) : (alignTop p).toNat = p.toNat - p.toNat % 16 :=
  toNat_and_not_low (k := 4) p rfl

/-! ## Linux -/

namespace Linux

/-- The 64-bit words in memory, by their addresses. -/
abbrev Memory := BitVec 64 → BitVec 64

structure StackHeader where
  basePtr : BitVec 64
  totalSize : BitVec 64
  requestedSize : BitVec 64
  deriving DecidableEq

/-- The header at an address. -/
def Memory.header (m : Memory) (p : BitVec 64) : StackHeader := ⟨m p, m (p + 8), m (p + 16)⟩

/-- The fields of the header at an address are written. -/
def Memory.setHeader (m : Memory) (p : BitVec 64) (h : StackHeader) : Memory :=
  Function.update (Function.update (Function.update m p h.basePtr) (p + 8) h.totalSize) (p + 16) h.requestedSize

/-- `total` in `AllocateStack(size)`. -/
def total (size : BitVec 64) : BitVec 64 := PAGE_SIZE + PAGE_SIZE + size + 16

/-- What `AllocateStack` leaves behind: the memory, the page that it has protected, and the top that it returns. -/
structure Allocated where
  memory : Memory
  guardPage : BitVec 64
  stackTop : BitVec 64

/-- `AllocateStack(size)`; `mmap` gives the base of a mapping of some length, or fails. -/
def allocateStack (mmap : BitVec 64 → Option (BitVec 64)) (m : Memory) (size : BitVec 64) : Option Allocated :=
  (mmap (total size)).map fun ptr =>
    { memory := m.setHeader ptr ⟨ptr, total size, size⟩
      guardPage := ptr + PAGE_SIZE
      stackTop := alignTop (ptr + total size) }

/-- `guard_page_start` in `DeallocateStack(stack_top, size)`. -/
def guardPageStart (stackTop size : BitVec 64) : BitVec 64 := (stackTop - size - PAGE_SIZE) &&& ~~~(PAGE_SIZE - 1)

/-- `header_page_start`. -/
def headerPageStart (stackTop size : BitVec 64) : BitVec 64 := guardPageStart stackTop size - PAGE_SIZE

/-- The sanity check of the header. -/
def Consistent (m : Memory) (stackTop size : BitVec 64) : Prop :=
  (m.header (headerPageStart stackTop size)).requestedSize = size ∧
    (m.header (headerPageStart stackTop size)).basePtr = headerPageStart stackTop size

instance (m : Memory) (stackTop size : BitVec 64) : Decidable (Consistent m stackTop size) :=
  inferInstanceAs (Decidable (_ ∧ _))

/-- `DeallocateStack(stack_top, size)`: the arguments of `munmap`. -/
def deallocateStack (m : Memory) (stackTop size : BitVec 64) : Option (BitVec 64 × BitVec 64) :=
  if stackTop = 0 then none
  else
    let header := m.header (headerPageStart stackTop size)
    if Consistent m stackTop size then some (header.basePtr, header.totalSize)
    else some (headerPageStart stackTop size, PAGE_SIZE + PAGE_SIZE + size + 16)

theorem header_setHeader (m : Memory) (p : BitVec 64) (h : StackHeader) : (m.setHeader p h).header p = h := by
  have h8 : p + 8 ≠ p := by bv_omega
  have h16 : p + 16 ≠ p := by bv_omega
  have h24 : p + 16 ≠ p + 8 := by bv_omega
  simp only [Memory.header, Memory.setHeader, Function.update_self, Function.update_of_ne h8.symm,
    Function.update_of_ne h16.symm, Function.update_of_ne h24.symm]

section Range

variable {base size : BitVec 64}

theorem total_toNat (hfits : base.toNat + (2 * 4096 + size.toNat + 16) < 2 ^ 64) :
    (total size).toNat = 2 * 4096 + size.toNat + 16 := by
  unfold total PAGE_SIZE
  bv_omega

/-- **The top**: the size above the two pages, and what the rounding leaves of 16 bytes. -/
theorem stackTop_eq (halign : base.toNat % 4096 = 0) (hfits : base.toNat + (2 * 4096 + size.toNat + 16) < 2 ^ 64) :
    (alignTop (base + total size)).toNat = base.toNat + 2 * 4096 + size.toNat + (16 - size.toNat % 16) := by
  have htotal := total_toNat hfits
  have hsum : (base + total size).toNat = base.toNat + (2 * 4096 + size.toNat + 16) := by
    rw [BitVec.toNat_add, htotal]
    omega
  rw [alignTop_toNat, hsum]
  omega

/-- **The header page** is found: the slack of the top is less than a page. -/
theorem headerPageStart_eq {top : BitVec 64} (halign : base.toNat % 4096 = 0)
    (hfits : base.toNat + (2 * 4096 + size.toNat + 16) < 2 ^ 64)
    (htop : top.toNat = base.toNat + 2 * 4096 + size.toNat + (16 - size.toNat % 16)) :
    headerPageStart top size = base := by
  have hstart : (top - size - PAGE_SIZE).toNat = base.toNat + 4096 + (16 - size.toNat % 16) := by
    unfold PAGE_SIZE
    bv_omega
  have hguard : (guardPageStart top size).toNat = base.toNat + 4096 := by
    rw [guardPageStart, toNat_and_not_low (k := 12) _ rfl, hstart]
    omega
  apply BitVec.eq_of_toNat_eq
  unfold headerPageStart PAGE_SIZE
  bv_omega

/-- **`DeallocateStack` finds what `AllocateStack` has mapped.** The top is aligned and in the mapping, and the `size`
bytes below it are behind the header page and the guard page; after anything that leaves the words before these bytes as
they were, the header is found and found consistent, and `munmap` gets the mapping. -/
theorem deallocateStack_unmaps {mmap : BitVec 64 → Option (BitVec 64)} (hmmap : mmap (total size) = some base)
    (halign : base.toNat % 4096 = 0) (hfits : base.toNat + (2 * 4096 + size.toNat + 16) < 2 ^ 64) (m : Memory) :
    ∃ a, allocateStack mmap m size = some a ∧
      (total size).toNat = 2 * 4096 + size.toNat + 16 ∧ a.guardPage.toNat = base.toNat + 4096 ∧
      a.stackTop.toNat % 16 = 0 ∧ base.toNat + 2 * 4096 < a.stackTop.toNat ∧
      a.stackTop.toNat ≤ base.toNat + (total size).toNat ∧
      base.toNat + 2 * 4096 ≤ a.stackTop.toNat - size.toNat ∧ size.toNat ≤ a.stackTop.toNat ∧
      headerPageStart a.stackTop size = base ∧
      ∀ m' : Memory, (∀ p : BitVec 64, p.toNat + 8 ≤ a.stackTop.toNat - size.toNat → m' p = a.memory p) →
        Consistent m' a.stackTop size ∧ deallocateStack m' a.stackTop size = some (base, total size) := by
  obtain ⟨a, ha, hmemory, hguard, hstack⟩ : ∃ a, allocateStack mmap m size = some a ∧
      a.memory = m.setHeader base ⟨base, total size, size⟩ ∧ a.guardPage = base + PAGE_SIZE ∧
      a.stackTop = alignTop (base + total size) :=
    ⟨⟨m.setHeader base ⟨base, total size, size⟩, base + PAGE_SIZE, alignTop (base + total size)⟩,
      by rw [allocateStack, hmmap, Option.map_some], rfl, rfl, rfl⟩
  have htotal := total_toNat hfits
  have htop := stackTop_eq halign hfits
  rw [← hstack] at htop
  have hstart := headerPageStart_eq halign hfits htop
  refine ⟨a, ha, htotal, ?_, ?_, by omega, by omega, by omega, by omega, hstart, fun m' hm' => ?_⟩
  · rw [hguard]
    unfold PAGE_SIZE
    bv_omega
  · rw [hstack, alignTop_toNat]
    omega
  · -- the three words of the header are before the stack
    have hheader : m'.header base = ⟨base, total size, size⟩ := by
      rw [← header_setHeader m base ⟨base, total size, size⟩, ← hmemory]
      have hkeep (p : BitVec 64) (hp : p.toNat ≤ base.toNat + 16) : m' p = a.memory p := hm' p (by omega)
      unfold Memory.header
      rw [hkeep base (by omega), hkeep (base + 8) (by bv_omega), hkeep (base + 16) (by bv_omega)]
    have hconsistent : Consistent m' a.stackTop size := by
      unfold Consistent
      rw [hstart, hheader]
      exact ⟨rfl, rfl⟩
    have hnonnull : a.stackTop ≠ 0 := by
      have hpos : a.stackTop.toNat ≠ 0 := by omega
      exact fun hzero => hpos (congrArg BitVec.toNat hzero)
    refine ⟨hconsistent, ?_⟩
    simp only [deallocateStack, if_neg hnonnull, if_pos hconsistent, hstart, hheader]

end Range

theorem deallocateStack_unmaps_five : ∃ a, allocateStack (fun _ => some 0x10000) (fun _ => 0) 5 = some a ∧
    deallocateStack a.memory a.stackTop 5 = some (0x10000, 0x2015) := by
  obtain ⟨a, ha, -, -, -, -, -, -, -, -, hdealloc⟩ :=
    @deallocateStack_unmaps 0x10000 5 (fun _ => some 0x10000) rfl (by decide) (by decide) fun _ => 0
  exact ⟨a, ha, (hdealloc a.memory fun _ _ => rfl).2⟩

end Linux

/-! ## Windows -/

namespace Windows

def STACK_GUARD_PAGES : BitVec 64 := 2

/-- `total` in `AllocateStack(size)` and in `DeallocateStack(stack_top, size)`. -/
def total (size : BitVec 64) : BitVec 64 := size + PAGE_SIZE * STACK_GUARD_PAGES

/-- `AllocateStack(size)`: the top; `VirtualAlloc` gives the base of a region of some length, or fails. The guard pages
are the first `STACK_GUARD_PAGES` pages of the region. -/
def allocateStack (virtualAlloc : BitVec 64 → Option (BitVec 64)) (size : BitVec 64) : Option (BitVec 64) :=
  (virtualAlloc (total size)).map fun ptr => alignTop (ptr + total size)

/-- `DeallocateStack(stack_top, size)`: the argument of `VirtualFree`. -/
def deallocateStack (stackTop size : BitVec 64) : Option (BitVec 64) :=
  if stackTop = 0 then none else some (stackTop - total size)

variable {base size : BitVec 64}

theorem toNat_top (hfits : base.toNat + (size.toNat + 2 * 4096) < 2 ^ 64) :
    (base + total size).toNat = base.toNat + (size.toNat + 2 * 4096) := by
  have hpages : PAGE_SIZE * STACK_GUARD_PAGES = 8192 := rfl
  rw [total, hpages]
  bv_omega

/-- **The top**: what the rounding takes is missing from the stack. -/
theorem stackTop_eq (halign : base.toNat % 65536 = 0) (hfits : base.toNat + (size.toNat + 2 * 4096) < 2 ^ 64) :
    (alignTop (base + total size)).toNat = base.toNat + 2 * 4096 + (size.toNat - size.toNat % 16) := by
  rw [alignTop_toNat, toNat_top hfits]
  omega

/-- **`DeallocateStack` frees what `AllocateStack` has reserved**, and the stack has as many bytes as were asked for, if
and only if this number is a multiple of 16. -/
theorem windows_iff {virtualAlloc : BitVec 64 → Option (BitVec 64)} (halloc : virtualAlloc (total size) = some base)
    (halign : base.toNat % 65536 = 0) (hfits : base.toNat + (size.toNat + 2 * 4096) < 2 ^ 64) :
    ∃ top, allocateStack virtualAlloc size = some top ∧
      (base.toNat + 2 * 4096 + size.toNat ≤ top.toNat ∧ deallocateStack top size = some base ↔
        size.toNat % 16 = 0) := by
  have htop := stackTop_eq halign hfits
  refine ⟨alignTop (base + total size), by rw [allocateStack, halloc]; rfl, ?_⟩
  constructor
  · rintro ⟨husable, -⟩
    omega
  · intro hsize
    have hsame : alignTop (base + total size) = base + total size := by
      apply BitVec.eq_of_toNat_eq
      rw [htop, toNat_top hfits, hsize]
      omega
    have hnonnull : alignTop (base + total size) ≠ 0 := by
      have hpos : (alignTop (base + total size)).toNat ≠ 0 := by omega
      exact fun hzero => hpos (congrArg BitVec.toNat hzero)
    refine ⟨by omega, ?_⟩
    rw [deallocateStack, if_neg hnonnull, hsame, BitVec.add_sub_cancel]

/-- A stack of 65537 bytes: one byte is missing, and the base is missed by one. -/
theorem windows_odd : ¬∀ (virtualAlloc : BitVec 64 → Option (BitVec 64)) (size base : BitVec 64),
    virtualAlloc (total size) = some base → base.toNat % 65536 = 0 →
    base.toNat + (size.toNat + 2 * 4096) < 2 ^ 64 → ∃ top, allocateStack virtualAlloc size = some top ∧
      base.toNat + 2 * 4096 + size.toNat ≤ top.toNat ∧ deallocateStack top size = some base := by
  intro hall
  obtain ⟨top, htop, husable, -⟩ := hall (fun _ => some 0x10000) 65537 0x10000 rfl (by decide) (by decide)
  cases htop
  exact absurd husable (by decide)

theorem windows_iff_sixteen : ∃ top, allocateStack (fun _ => some 0x10000) 16 = some top ∧
    deallocateStack top 16 = some 0x10000 := by
  obtain ⟨top, htop, hiff⟩ := @windows_iff 0x10000 16 (fun _ => some 0x10000) rfl (by decide) (by decide)
  exact ⟨top, htop, (hiff.mpr (by decide)).2⟩

end Windows

end Cothread.Stack
