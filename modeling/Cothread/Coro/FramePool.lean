import Cothread.Lib.Chain
import Cothread.Lib.Run
import Mathlib.Data.List.ReduceOption

/-!
# `FramePool`: every block has one place

The free list is linked through the blocks themselves: a block that is live holds a coroutine frame, and its first word
is whatever the frame stores there. Any `malloc` may fail, also those of `Init`. Every block that `malloc` returned is
in `allocated_blocks_` once, and either live or on the free list, which ends; an `Allocate` that succeeds returns a
block that is not live and is large enough, and `~FramePool` frees every block once (`pool_sound`).
-/

namespace Cothread.FramePool

open Run Chain

/-- `sizeof(FreeNode)`: one pointer. -/
def sizeofFreeNode : ℕ := 8

/-- The fields of the pool, and its memory. -/
structure Pool (A : Type*) where
  blockSize : ℕ
  allocatedBlocks : List A
  freeList : Option A
  next : A → Option A  -- the first word of a block, as a `FreeNode`
  obtained : A → Option ℕ  -- what `malloc` has returned and nobody has freed, with the number of bytes

section Code

variable {A : Type*} [DecidableEq A]

/-- `malloc(block_size_)` has returned `block`: `allocated_blocks_.push_back(block)`. -/
def Pool.expand (p : Pool A) (block : A) : Pool A :=
  { p with
    allocatedBlocks := p.allocatedBlocks ++ [block]
    obtained := Function.update p.obtained block (some p.blockSize) }

/-- `node->next = free_list_`, `free_list_ = node`. -/
def Pool.push (p : Pool A) (node : A) : Pool A :=
  { p with next := Function.update p.next node p.freeList, freeList := some node }

/-- `free_list_ = node->next`. -/
def Pool.pop (p : Pool A) (node : A) : Pool A := { p with freeList := p.next node }

/-- The loop of `Init`, with the results of its `malloc` calls. -/
def Pool.fill : Pool A → List (Option A) → Pool A
  | p, [] => p
  | p, some block :: blocks => ((p.expand block).push block).fill blocks
  | p, none :: blocks => p.fill blocks

/-- A pool before `Init`, with anything in the memory. -/
def Pool.new (next : A → Option A) : Pool A := ⟨0, [], none, next, fun _ => none⟩

/-- `Init(block_size, initial_count)`. -/
def Pool.init (p : Pool A) (blockSize : ℕ) (blocks : List (Option A)) : Pool A :=
  let blockSize := if blockSize < sizeofFreeNode then sizeofFreeNode else blockSize
  { p with blockSize := blockSize }.fill blocks

/-- `Allocate(size)`, with the result that `malloc` has if it is called. -/
def Pool.allocate (p : Pool A) (size : ℕ) (malloc : Option A) : Option A × Pool A :=
  if p.blockSize < size ∨ p.blockSize = 0 then (none, p)
  else match p.freeList with
    | some node => (some node, p.pop node)
    | none => match malloc with
      | some block => (some block, p.expand block)
      | none => (none, p)

/-- `Deallocate(block)`. -/
def Pool.deallocate (p : Pool A) : Option A → Pool A
  | some block => p.push block
  | none => p

/-- `std::free` of the blocks, one after the other; `none` when one of them is not allocated. -/
def freeAll (obtained : A → Option ℕ) : List A → Option (A → Option ℕ)
  | [] => some obtained
  | block :: blocks =>
    if (obtained block).isSome then freeAll (Function.update obtained block none) blocks else none

/-- `~FramePool()`. -/
def Pool.destroy (p : Pool A) : Option (A → Option ℕ) := freeAll p.obtained p.allocatedBlocks

structure State (A : Type*) where
  pool : Pool A
  live : List A  -- returned by `Allocate`, and not given back

inductive Label (A : Type*)
  | allocate (size : ℕ) (malloc : Option A)
  | deallocate (block : Option A)
  | write (block : A) (word : Option A)  -- the frame in the block stores to the first word

/-- `malloc` returns what is not allocated. -/
def Fresh (p : Pool A) (malloc : Option A) : Prop := ∀ block ∈ malloc, p.obtained block = none

instance (p : Pool A) (malloc : Option A) : Decidable (Fresh p malloc) := Option.decidableForallMem ..

def step (s : State A) : Label A → Option (State A)
  | .allocate size malloc =>
    let r := s.pool.allocate size malloc
    if Fresh s.pool malloc then some ⟨r.2, r.1.toList ++ s.live⟩ else none
  | .deallocate block =>
    if ∀ b ∈ block, b ∈ s.live then some ⟨s.pool.deallocate block, block.elim s.live s.live.erase⟩ else none
  | .write block word =>
    if block ∈ s.live then
      some { s with pool := { s.pool with next := Function.update s.pool.next block word } }
    else none

/-- Any calls, after one `Init` with any numbers. -/
def system (A : Type*) [DecidableEq A] : System (State A) (Label A) where
  init s := ∃ next blockSize blocks, blocks.reduceOption.Nodup ∧ s = ⟨(Pool.new next).init blockSize blocks, []⟩
  step := step

/-! ## The invariant -/

variable {p : Pool A} {live free : List A} {b : A}

/-- **One place**: the blocks are those of `live`, and those of the free list in this order. -/
structure Good (p : Pool A) (live free : List A) : Prop where
  list : Path p.next p.freeList free
  places : p.allocatedBlocks.Perm (live ++ free)
  nodup : p.allocatedBlocks.Nodup
  obtained : ∀ b, p.obtained b = if b ∈ p.allocatedBlocks then some p.blockSize else none

theorem Good.nodup_places (h : Good p live free) : (live ++ free).Nodup := h.places.nodup_iff.mp h.nodup

theorem Good.disjoint (h : Good p live free) (hb : b ∈ free) : b ∉ live := by
  intro hlive
  exact (List.nodup_append.mp h.nodup_places).2.2 b hlive b hb rfl

/-- The order of the live blocks does not matter. -/
theorem Good.perm {live' : List A} (h : Good p live free) (hp : live.Perm live') : Good p live' free :=
  ⟨h.list, h.places.trans (hp.append_right free), h.nodup, h.obtained⟩

/-- What `malloc` has returned is new. -/
theorem Good.notMem_of_fresh (h : Good p live free) (hb : p.obtained b = none) : b ∉ p.allocatedBlocks := by
  intro hmem
  rw [h.obtained b, if_pos hmem] at hb
  cases hb

/-- A new block is live at first. -/
theorem Good.expand (h : Good p live free) (hb : p.obtained b = none) : Good (p.expand b) (b :: live) free := by
  have hnew := h.notMem_of_fresh hb
  refine ⟨h.list, ?_, ?_, fun b' => ?_⟩
  · exact List.perm_append_singleton b _ |>.trans (h.places.cons b)
  · exact List.nodup_append.mpr ⟨h.nodup, List.nodup_singleton b, fun x hx y hy hxy =>
      hnew (List.mem_singleton.mp hy ▸ hxy ▸ hx)⟩
  · show Function.update p.obtained b (some p.blockSize) b' =
      if b' ∈ p.allocatedBlocks ++ [b] then some p.blockSize else none
    by_cases hbb : b' = b
    · subst hbb
      rw [Function.update_self, if_pos (List.mem_append_right _ (List.mem_singleton_self b'))]
    · have hmem : b' ∈ p.allocatedBlocks ++ [b] ↔ b' ∈ p.allocatedBlocks := by
        rw [List.mem_append, List.mem_singleton, or_iff_left hbb]
      rw [Function.update_of_ne hbb, h.obtained b', if_congr hmem rfl rfl]

/-- A live block goes to the head of the free list. -/
theorem Good.push (h : Good p (b :: live) free) : Good (p.push b) live (b :: free) := by
  have hb : b ∉ free := fun hfree => h.disjoint hfree List.mem_cons_self
  exact ⟨h.list.push hb, h.places.trans List.perm_middle.symm, h.nodup, h.obtained⟩

/-- The head of the free list becomes live. -/
theorem Good.pop (h : Good p live (b :: free)) : Good (p.pop b) (b :: live) free :=
  ⟨h.list.2, h.places.trans List.perm_middle, h.nodup, h.obtained⟩

/-- A frame stores to its block, which is not on the free list. -/
theorem Good.write (h : Good p live free) (hb : b ∈ live) (word : Option A) :
    Good { p with next := Function.update p.next b word } live free := by
  have hfree : b ∉ free := fun hfree => h.disjoint hfree hb
  exact ⟨h.list.update_of_notMem hfree, h.places, h.nodup, h.obtained⟩

/-! ## Operations -/

/-- **`Init`**: any of its `malloc` calls may have failed. -/
theorem Good.fill : ∀ (blocks : List (Option A)) {p : Pool A} {free : List A}, Good p [] free →
    (∀ b ∈ blocks.reduceOption, p.obtained b = none) → blocks.reduceOption.Nodup →
    ∃ free', Good (p.fill blocks) [] free'
  | [], _, free, h, _, _ => ⟨free, h⟩
  | none :: blocks, _, _, h, hnew, hnd => Good.fill blocks h hnew hnd
  | some b :: blocks, p, _, h, hnew, hnd => by
    rw [List.reduceOption_cons_of_some] at hnew hnd
    obtain ⟨hb, hnd⟩ := List.nodup_cons.mp hnd
    refine Good.fill blocks (h.expand (hnew b List.mem_cons_self)).push (fun b' hb' => ?_) hnd
    have hne : b' ≠ b := fun heq => hb (heq ▸ hb')
    exact (Function.update_of_ne hne _ _).trans (hnew b' (List.mem_cons_of_mem b hb'))

theorem fill_blockSize : ∀ (blocks : List (Option A)) (p : Pool A), (p.fill blocks).blockSize = p.blockSize
  | [], _ => rfl
  | none :: blocks, p => fill_blockSize blocks p
  | some b :: blocks, p => fill_blockSize blocks ((p.expand b).push b)

/-- **What is expected of `Allocate`**. -/
structure Allocates (s : State A) (size : ℕ) (malloc : Option A) (r : Option A × Pool A) : Prop where
  fails : r.1 = none ↔ s.pool.blockSize < size ∨ s.pool.freeList = none ∧ malloc = none
  new : ∀ b ∈ r.1, b ∉ s.live
  large : ∀ b ∈ r.1, ∃ bytes, r.2.obtained b = some bytes ∧ size ≤ bytes

/-- One place for each block, when none is smaller than a `FreeNode`. -/
def Inv (s : State A) : Prop := sizeofFreeNode ≤ s.pool.blockSize ∧ ∃ free, Good s.pool s.live free

variable {s s' : State A}

omit [DecidableEq A] in
/-- A call that returns a block. -/
theorem allocates_some {size : ℕ} {malloc : Option A} {p' : Pool A} (hle : size ≤ s.pool.blockSize)
    (hsource : ¬(s.pool.freeList = none ∧ malloc = none)) (hnew : b ∉ s.live)
    (hbytes : p'.obtained b = some s.pool.blockSize) : Allocates s size malloc (some b, p') := by
  constructor
  case fails =>
    refine iff_of_false nofun ?_
    rintro (hlt | hnone)
    · exact Nat.not_lt.mpr hle hlt
    · exact hsource hnone
  case new =>
    intro b' hb'
    cases hb'
    exact hnew
  case large =>
    intro b' hb'
    cases hb'
    exact ⟨s.pool.blockSize, hbytes, hle⟩

/-- **`Allocate`** takes the head of the free list, or a new block. -/
theorem Inv.allocate (h : Inv s) (size : ℕ) {malloc : Option A} (hm : Fresh s.pool malloc) :
    Allocates s size malloc (s.pool.allocate size malloc) ∧
      Inv ⟨(s.pool.allocate size malloc).2, (s.pool.allocate size malloc).1.toList ++ s.live⟩ := by
  obtain ⟨hbytes, free, hgood⟩ := h
  unfold Pool.allocate
  split
  case isTrue hlarge =>
    have hlt : s.pool.blockSize < size := by
      unfold sizeofFreeNode at hbytes
      omega
    exact ⟨⟨iff_of_true rfl (Or.inl hlt), nofun, nofun⟩, hbytes, free, hgood⟩
  case isFalse hfits =>
    have hle : size ≤ s.pool.blockSize := by omega
    cases hhead : s.pool.freeList with
    | some b =>
      have hlist := hgood.list.head
      rw [hhead] at hlist
      obtain ⟨free, rfl⟩ := List.head?_eq_some_iff.mp hlist.symm
      have hmem : b ∈ s.pool.allocatedBlocks :=
        hgood.places.mem_iff.mpr (List.mem_append_right _ List.mem_cons_self)
      refine ⟨allocates_some hle ?_ (hgood.disjoint List.mem_cons_self) ?_, hbytes, free, hgood.pop⟩
      · rw [hhead]
        exact nofun
      · exact (hgood.obtained b).trans (if_pos hmem)
    | none =>
      cases malloc with
      | none => exact ⟨⟨iff_of_true rfl (Or.inr ⟨hhead, rfl⟩), nofun, nofun⟩, hbytes, free, hgood⟩
      | some b =>
        have hnew := hm b rfl
        refine ⟨allocates_some hle nofun (fun hlive => ?_) ?_, hbytes, free, hgood.expand hnew⟩
        · exact hgood.notMem_of_fresh hnew (hgood.places.mem_iff.mpr (List.mem_append_left _ hlive))
        · exact Function.update_self b _ s.pool.obtained

/-- **One step**. -/
theorem Inv.step {l : Label A} (h : Inv s) (hst : step s l = some s') : Inv s' := by
  cases l with
  | allocate size malloc =>
    obtain ⟨hm, hst⟩ := Option.ite_none_right_eq_some.mp hst
    cases hst
    exact (h.allocate size hm).2
  | deallocate block =>
    obtain ⟨hb, hst⟩ := Option.ite_none_right_eq_some.mp hst
    cases hst
    cases block with
    | none => exact h
    | some b =>
      obtain ⟨hbytes, free, hgood⟩ := h
      exact ⟨hbytes, b :: free, (hgood.perm (List.perm_cons_erase (hb b rfl))).push⟩
  | write b word =>
    obtain ⟨hb, hst⟩ := Option.ite_none_right_eq_some.mp hst
    cases hst
    obtain ⟨hbytes, free, hgood⟩ := h
    exact ⟨hbytes, free, hgood.write hb word⟩

theorem Inv.init (hs : (system A).init s) : Inv s := by
  obtain ⟨next, blockSize, blocks, hnd, rfl⟩ := hs
  let size := if blockSize < sizeofFreeNode then sizeofFreeNode else blockSize
  have hsize : sizeofFreeNode ≤ size := by
    show sizeofFreeNode ≤ if blockSize < sizeofFreeNode then sizeofFreeNode else blockSize
    split <;> omega
  have hempty : Good { Pool.new next with blockSize := size } [] [] :=
    ⟨rfl, List.Perm.refl _, List.nodup_nil, fun _ => rfl⟩
  have hfill := fill_blockSize blocks { Pool.new next with blockSize := size }
  exact ⟨hfill ▸ hsize, Good.fill blocks hempty (fun _ _ => rfl) hnd⟩

/-! ## The destructor -/

/-- Blocks that are all different and allocated are freed. -/
theorem freeAll_eq : ∀ {blocks : List A} {obtained : A → Option ℕ}, blocks.Nodup →
    (∀ b ∈ blocks, (obtained b).isSome) →
    freeAll obtained blocks = some fun b => if b ∈ blocks then none else obtained b
  | [], _, _, _ => rfl
  | a :: blocks, obtained, hnd, hall => by
    obtain ⟨ha, hnd⟩ := List.nodup_cons.mp hnd
    have hall' : ∀ b ∈ blocks, (Function.update obtained a none b).isSome := by
      intro b hb
      have hne : b ≠ a := fun heq => ha (heq ▸ hb)
      rw [Function.update_of_ne hne]
      exact hall b (List.mem_cons_of_mem a hb)
    rw [freeAll, if_pos (hall a List.mem_cons_self), freeAll_eq hnd hall']
    congr 1
    funext b
    by_cases hba : b = a
    · subst hba
      rw [if_neg ha, Function.update_self, if_pos List.mem_cons_self]
    · rw [Function.update_of_ne hba, if_congr (List.mem_cons.trans (or_iff_right hba)) rfl rfl]

/-- `~FramePool` frees all that was obtained. -/
theorem Good.destroy (h : Good p live free) : p.destroy = some fun _ => none := by
  have hall : ∀ b ∈ p.allocatedBlocks, (p.obtained b).isSome := by
    intro b hb
    rw [h.obtained b, if_pos hb]
    rfl
  rw [Pool.destroy, freeAll_eq h.nodup hall]
  congr 1
  funext b
  rw [h.obtained b]
  split <;> rfl

/-- **What is expected of the pool**: its free list ends and has no live block, `allocated_blocks_` lists what `malloc`
returned, once each, as the live blocks and those of the free list, the destructor frees them all, and `Allocate`
returns a new block. -/
structure Sound (s : State A) : Prop where
  places : ∃ free, Path s.pool.next s.pool.freeList free ∧ free.Nodup ∧ (∀ b ∈ free, b ∉ s.live) ∧
    ∀ b, b ∈ s.pool.allocatedBlocks ↔ b ∈ s.live ∨ b ∈ free
  live : s.live.Nodup
  blocks : s.pool.allocatedBlocks.Nodup
  obtained : ∀ b, b ∈ s.pool.allocatedBlocks ↔ (s.pool.obtained b).isSome
  destroy : s.pool.destroy = some fun _ => none
  allocate : ∀ size malloc, Fresh s.pool malloc → Allocates s size malloc (s.pool.allocate size malloc)

/-- **`FramePool` never hands out a block twice**, whatever `malloc` and the frames in the blocks do. -/
theorem pool_sound (hr : Reachable (system A) s) : Sound s := by
  have hinv : Inv s := hr.invariant (fun _ => Inv.init) fun _ _ _ h _ hst => h.step hst
  have hallocate := fun size malloc (hm : Fresh s.pool malloc) => (hinv.allocate size hm).1
  obtain ⟨-, free, hgood⟩ := hinv
  obtain ⟨hlive, hfree, -⟩ := List.nodup_append.mp hgood.nodup_places
  constructor
  case places =>
    refine ⟨free, hgood.list, hfree, fun b => hgood.disjoint, fun b => ?_⟩
    rw [hgood.places.mem_iff, List.mem_append]
  case live => exact hlive
  case blocks => exact hgood.nodup
  case obtained =>
    intro b
    rw [hgood.obtained b]
    split <;> simp [*]
  case destroy => exact hgood.destroy
  case allocate => exact hallocate

end Code

/-- `Init(4, 2)`, whose second `malloc` fails; then a block of the free list, a new one, and the first one given back
after its frame has stored to it. -/
theorem pool_sound_four : ∃ s : State ℕ, Sound s ∧ s.live = [2] ∧ s.pool.freeList = some 1 := by
  have hinit : (system ℕ).init ⟨(Pool.new fun _ => none).init 4 [some 1, none], []⟩ :=
    ⟨fun _ => none, 4, [some 1, none], by decide, rfl⟩
  have hrun : (exec (system ℕ) ⟨(Pool.new fun _ => none).init 4 [some 1, none], []⟩
      [.allocate 8 none, .write 1 (some 1), .allocate 5 (some 2), .deallocate (some 1), .deallocate none]).any
      (fun s => decide (s.live = [2] ∧ s.pool.freeList = some 1)) = true := by
    decide +kernel
  obtain ⟨s, hs, hend⟩ := of_exec_any hrun
  exact ⟨s, pool_sound (reachable_exec (.init hinit) hs), hend⟩

end Cothread.FramePool
