import Cothread.Core.TaskPoolInv
import Cothread.Lib.Object

/-!
# `AllocMultipleSlots` is `AllocTaskMeta`, several times

`AllocTaskMeta` takes one slot from the free list and makes its `TaskMeta`. `AllocMultipleSlots` walks along up to
`count` links of the list, moves `free_head_` past them once, and leaves the `TaskMeta`s to `GetOrCreateTaskMeta`. Here
both are the loops around `compare_exchange_weak` that they are in the code: while nobody interferes an exchange may
fail spuriously, and then the loop starts again. `TaskGroup`s are as in the books of slots, whose operations the loops
come to (`allocLoop_returns`, `claimLoop_returns`).

- The walk finds the first slots of the free list, however long it is (`walk_path`, `walkLoop_eq`);
- making a `TaskMeta` does not touch the free list (`getOrCreate_withHead`), so the calls of `AllocTaskMeta` come to one
  claim and the `TaskMeta`s after it (`allocs_claim`);
- `AllocMultipleSlots` and `GetOrCreateTaskMeta` return what the calls of `AllocTaskMeta` do, and leave the same task
  group (`allocMultiple_eq`).
-/

namespace Cothread.TaskPool

open Chain Object
open TaskGroup (poolSize)

/-! ## The loops -/

/-- The loop of `AllocTaskMeta`, with the `slot` loaded from `free_head_`, in at most `fuel` turns. The list tells which
of the `compare_exchange_weak` to come fail spuriously; none does behind its end. -/
def Group.allocLoop (g : Group) : ℕ → List Bool → Option ℕ → Option ((Group × List Bool) × Option ℕ)
  | 0, _, _ => none
  | _ + 1, spurious, none => some ((g, spurious), none)
  | fuel + 1, spurious, some slot =>
    if g.freeHead = some slot ∧ spurious.headD false = false then
      let r := { g with freeHead := g.freeSlots slot }.getOrCreate slot
      some ((r.1, spurious.tail), some r.2)
    else g.allocLoop fuel spurious.tail g.freeHead

/-- The walk of `AllocMultipleSlots` with `n` turns left to `found < 16`: `slots_to_claim` and `current`. -/
def walkLoop (next : ℕ → Option ℕ) (count : ℤ) : ℕ → List ℕ → Option ℕ → List ℕ × Option ℕ
  | 0, claim, current => (claim, current)
  | _ + 1, claim, none => (claim, none)
  | n + 1, claim, some slot =>
    if (claim.length : ℤ) < count then walkLoop next count n (claim ++ [slot]) (next slot) else (claim, some slot)

/-- The loop that copies `slots_to_claim` to `slots`: the array and `allocated`. -/
def copyLoop (count : ℤ) : List ℕ → (ℕ → ℕ) → ℕ → (ℕ → ℕ) × ℕ
  | [], slots, allocated => (slots, allocated)
  | slot :: claim, slots, allocated =>
    if (allocated : ℤ) < count then copyLoop count claim (Function.update slots allocated slot) (allocated + 1)
    else (slots, allocated)

/-- The loop of `AllocMultipleSlots`, in at most `fuel` turns: the array and `allocated`. -/
def Group.claimLoop (g : Group) (count : ℤ) (slots : ℕ → ℕ) (allocated : ℕ) :
    ℕ → List Bool → Option ((Group × List Bool) × (ℕ → ℕ) × ℕ)
  | 0, _ => none
  | fuel + 1, spurious =>
    if (allocated : ℤ) < count then
      match g.freeHead with
      | none => some ((g, spurious), slots, allocated)
      | some head =>
        let w := walkLoop g.freeSlots count 16 [] (some head)
        if w.1.length = 0 then some ((g, spurious), slots, allocated)
        else if g.freeHead = some head ∧ spurious.headD false = false then
          some (({ g with freeHead := w.2 }, spurious.tail), copyLoop count w.1 slots allocated)
        else g.claimLoop count slots allocated fuel spurious.tail
    else some ((g, spurious), slots, allocated)

/-- `AllocMultipleSlots(slots, count)`; `slots` may be null. -/
def Group.claim (g : Group) (slots : Option (ℕ → ℕ)) (count : ℤ) (fuel : ℕ) (spurious : List Bool) :
    Option ((Group × List Bool) × Option (ℕ → ℕ) × ℕ) :=
  match slots with
  | none => some ((g, spurious), none, 0)
  | some slots =>
    if count ≤ 0 then some ((g, spurious), some slots, 0)
    else (g.claimLoop count slots 0 fuel spurious).map fun r => (r.1, some r.2.1, r.2.2)

/-- A `TaskMeta` that a call has returned, with its fields then. -/
structure Got where
  task : ℕ
  slotIndex : ℕ
  generation : ℕ
  deriving DecidableEq

def Group.got (g : Group) (task : ℕ) : Got := ⟨task, (g.metas task).slotIndex, (g.metas task).generation⟩

/-- `k` calls of `AllocTaskMeta`. -/
def allocs (fuel : ℕ) : ℕ → Group → List Bool → Option ((Group × List Bool) × List (Option Got))
  | 0, g, spurious => some ((g, spurious), [])
  | k + 1, g, spurious => (g.allocLoop fuel spurious g.freeHead).bind fun p =>
    (allocs fuel k p.1.1 p.1.2).map fun r => (r.1, p.2.map p.1.1.got :: r.2)

/-- A call of `GetOrCreateTaskMeta` for every slot, in this order. -/
def Group.getOrCreates (g : Group) : List ℕ → Group × List (Option Got)
  | [] => (g, [])
  | slot :: l =>
    let (g', task) := g.getOrCreateTaskMeta slot
    ((g'.getOrCreates l).1, task.map g'.got :: (g'.getOrCreates l).2)

/-- `AllocMultipleSlots` has claimed `k` slots and left `g'` and `slots'` behind, and `k` calls of `AllocTaskMeta` have
returned `gots` and left `t` behind. -/
structure Agree (g g' t : Group) (free : List ℕ) (slots slots' : ℕ → ℕ) (k : ℕ) (gots : List Got) : Prop where
  /-- The slots in the array are those that the calls have taken, in the same order. -/
  claimed : (List.range k).map slots' = gots.map Got.slotIndex
  /-- The rest of the array is as it was. -/
  frame : ∀ i, k ≤ i → slots' i = slots i
  /-- The same free list is left. -/
  links : g'.freeHead = t.freeHead ∧ g'.freeSlots = t.freeSlots
  path : Path g'.freeSlots g'.freeHead (free.drop k)
  /-- `GetOrCreateTaskMeta` for the slots in the array returns what the calls have returned, and leaves the same. -/
  creates : g'.getOrCreates ((List.range k).map slots') = (t, gots.map some)
  /-- So it does for each of them alone, whatever happens before to the `TaskMeta`s. -/
  create : ∀ h : Group, h.generations = g.generations → ∀ x ∈ gots, ∃ h' a,
    h.getOrCreateTaskMeta x.slotIndex = (h', some a) ∧ (h'.got a).slotIndex = x.slotIndex ∧
      (h'.got a).generation = x.generation

variable {g : Group} {next : ℕ → Option ℕ} {p : Option ℕ} {l free : List ℕ} {count : ℤ} {slot : ℕ}

/-! ## The walk -/

/-- **The walk** finds the first slots of the free list, and ends at the rest of it. -/
theorem walk_path (h : Path next p l) (n : ℕ) : walk next n p = (l.take n, (l.drop n).head?) := by
  induction n generalizing p l with
  | zero => exact Prod.ext rfl h.head
  | succ n ih =>
    cases l with
    | nil =>
      cases h
      rfl
    | cons slot l =>
      obtain ⟨rfl, h⟩ := h
      rw [walk, ih h]
      rfl

/-- What is left of the free list. -/
theorem path_drop (h : Path next p l) (n : ℕ) : Path next (l.drop n).head? (l.drop n) := by
  rw [← List.take_append_drop n l, path_append] at h
  exact h.2

/-- The walk with `slots_to_claim` as its accumulator. -/
theorem walkLoop_eq (next : ℕ → Option ℕ) (count : ℤ) (n : ℕ) (claim : List ℕ) (p : Option ℕ) :
    walkLoop next count n claim p = (claim ++ (walk next (min n (count - claim.length).toNat) p).1,
      (walk next (min n (count - claim.length).toNat) p).2) := by
  induction n generalizing claim p with
  | zero => rw [Nat.zero_min, walk, walkLoop, List.append_nil]
  | succ n ih =>
    cases p with
    | none =>
      have hnone : ∀ m, walk next m none = ([], none) := fun m => by cases m <;> rfl
      rw [hnone, walkLoop, List.append_nil]
    | some slot =>
      rw [walkLoop]
      split_ifs with hlt
      · have hturns : min (n + 1) (count - claim.length).toNat =
            min n (count - (claim ++ [slot]).length).toNat + 1 := by
          rw [List.length_append, List.length_singleton]
          omega
        rw [ih, hturns, walk, List.append_assoc]
        rfl
      · have hzero : min (n + 1) (count - claim.length).toNat = 0 := by omega
        rw [hzero, walk, List.append_nil]

/-- The slots are copied to the array from `allocated` on. -/
theorem copyLoop_eq (slots : ℕ → ℕ) (allocated : ℕ) (hle : (allocated + l.length : ℕ) ≤ count) :
    (copyLoop count l slots allocated).2 = allocated + l.length ∧
      (List.range' allocated l.length).map (copyLoop count l slots allocated).1 = l ∧
      ∀ i, i < allocated ∨ allocated + l.length ≤ i → (copyLoop count l slots allocated).1 i = slots i := by
  induction l generalizing slots allocated with
  | nil => exact ⟨rfl, rfl, fun _ _ => rfl⟩
  | cons slot l ih =>
    rw [List.length_cons] at hle ⊢
    rw [copyLoop, if_pos (by omega)]
    obtain ⟨hcount, hmap, hframe⟩ := ih (Function.update slots allocated slot) (allocated + 1) (by omega)
    refine ⟨by omega, ?_, fun i hi => ?_⟩
    · rw [List.range'_succ, List.map_cons, hmap, hframe _ (Or.inl (Nat.lt_succ_self _)), Function.update_self]
    · rw [hframe i (by omega), Function.update_of_ne (by omega)]

/-! ## The loops come to the operations -/

/-- **`AllocTaskMeta`**: the loop ends when an exchange does not fail. -/
theorem allocLoop_returns (g : Group) (spurious : List Bool) : ∃ rest,
    Returns (g.allocLoop · spurious g.freeHead) ((g.allocTaskMeta.1, rest), g.allocTaskMeta.2) := by
  cases hhead : g.freeHead with
  | none =>
    refine ⟨spurious, .last fun fuel => ?_⟩
    simp only [Group.allocTaskMeta, hhead, Group.allocLoop]
  | some slot =>
    induction spurious with
    | nil =>
      refine ⟨[], .last fun fuel => ?_⟩
      simp only [Group.allocTaskMeta, hhead, Group.allocLoop, List.headD_nil, and_self, if_true, List.tail_nil]
    | cons fails spurious ih =>
      cases fails with
      | false =>
        refine ⟨spurious, .last fun fuel => ?_⟩
        simp only [Group.allocTaskMeta, hhead, Group.allocLoop, List.headD_cons, and_self, if_true, List.tail_cons]
      | true =>
        obtain ⟨rest, hrest⟩ := ih
        refine ⟨rest, hrest.turn fun fuel => ?_⟩
        rw [Group.allocLoop, if_neg (fun h => Bool.noConfusion h.2), List.tail_cons, hhead]

/-- **`AllocMultipleSlots`**: the loop ends when an exchange does not fail. -/
theorem claimLoop_returns (g : Group) (slots : ℕ → ℕ) (h1 : 1 ≤ count) (h16 : count ≤ 16) (spurious : List Bool) :
    ∃ rest, Returns (g.claimLoop count slots 0 · spurious)
      (((g.allocMultipleSlots count).1, rest), copyLoop count (g.allocMultipleSlots count).2 slots 0) := by
  have hwalk : ∀ p, walkLoop g.freeSlots count 16 [] p = walk g.freeSlots (min count.toNat 16) p := fun p => by
    have hmin : min 16 (count - ([] : List ℕ).length).toNat = min count.toNat 16 := by
      rw [List.length_nil]
      omega
    rw [walkLoop_eq, hmin, List.nil_append]
  obtain ⟨m, hm⟩ : ∃ m, min count.toNat 16 = m + 1 := ⟨min count.toNat 16 - 1, by omega⟩
  rw [hm] at hwalk
  have hpos : ((0 : ℕ) : ℤ) < count := by omega
  have halloc : g.allocMultipleSlots count =
      ({ g with freeHead := (walk g.freeSlots (m + 1) g.freeHead).2 }, (walk g.freeSlots (m + 1) g.freeHead).1) := by
    rw [Group.allocMultipleSlots, if_neg (by omega), hm]
  rw [halloc]
  cases hhead : g.freeHead with
  | none =>
    refine ⟨spurious, .last fun fuel => ?_⟩
    have hsame : { g with freeHead := none } = g := by rw [← hhead]
    simp only [Group.claimLoop, if_pos hpos, hhead]
    rw [walk, hsame, copyLoop]
  | some head =>
    have hfound : (walk g.freeSlots (m + 1) (some head)).1.length ≠ 0 := by
      rw [walk]
      exact Nat.succ_ne_zero _
    have hturn : ∀ spurious fuel, g.claimLoop count slots 0 (fuel + 1) spurious =
        if spurious.headD false = false then
          some (({ g with freeHead := (walk g.freeSlots (m + 1) (some head)).2 }, spurious.tail),
            copyLoop count (walk g.freeSlots (m + 1) (some head)).1 slots 0)
        else g.claimLoop count slots 0 fuel spurious.tail := by
      intro spurious fuel
      rw [Group.claimLoop, if_pos hpos]
      simp only [hhead, hwalk, if_neg hfound, true_and]
    induction spurious with
    | nil => exact ⟨[], .last fun fuel => (hturn [] fuel).trans (if_pos rfl)⟩
    | cons fails spurious ih =>
      cases fails with
      | false => exact ⟨spurious, .last fun fuel => (hturn (false :: spurious) fuel).trans (if_pos rfl)⟩
      | true =>
        obtain ⟨rest, hrest⟩ := ih
        exact ⟨rest, hrest.turn fun fuel => (hturn (true :: spurious) fuel).trans (if_neg (Bool.noConfusion ·))⟩

/-! ## One slot after the other -/

/-- `GetOrCreateTaskMeta` does not look at the free list. -/
theorem getOrCreate_withHead (g : Group) (p : Option ℕ) (slot : ℕ) : { g with freeHead := p }.getOrCreate slot =
    ({ (g.getOrCreate slot).1 with freeHead := p }, (g.getOrCreate slot).2) := by
  unfold Group.getOrCreate
  cases g.taskPool slot <;> rfl

/-- What the `TaskMeta` of a slot is, and what stays. -/
theorem getOrCreate_got (g : Group) (slot : ℕ) :
    ((g.getOrCreate slot).1.got (g.getOrCreate slot).2).slotIndex = slot ∧
      ((g.getOrCreate slot).1.got (g.getOrCreate slot).2).generation = g.generations slot ∧
      (g.getOrCreate slot).1.freeHead = g.freeHead ∧ (g.getOrCreate slot).1.freeSlots = g.freeSlots ∧
      (g.getOrCreate slot).1.generations = g.generations := by
  unfold Group.getOrCreate Group.got
  cases g.taskPool slot <;> simp only [Function.update_self, and_self]

/-- A slot of the array is in its range. -/
theorem getOrCreateTaskMeta_eq (g : Group) (hlt : slot < poolSize) :
    g.getOrCreateTaskMeta slot = ((g.getOrCreate slot).1, some (g.getOrCreate slot).2) := by
  rw [Group.getOrCreateTaskMeta, if_neg (by omega), Int.toNat_natCast]

/-- **The calls of `AllocTaskMeta`** return what one claim and `GetOrCreateTaskMeta` for its slots return. -/
theorem allocs_claim (hpath : Path g.freeSlots g.freeHead (l ++ free)) (hlt : ∀ slot ∈ l, slot < poolSize)
    (spurious : List Bool) : ∃ t rest, ∃ gots : List Got,
      Returns (allocs · l.length g spurious) ((t, rest), gots.map some) ∧
      { g with freeHead := free.head? }.getOrCreates l = (t, gots.map some) ∧
      t.freeHead = free.head? ∧ t.freeSlots = g.freeSlots ∧
      gots.map Got.slotIndex = l ∧ ∀ x ∈ gots, x.generation = g.generations x.slotIndex := by
  induction l generalizing g spurious with
  | nil =>
    refine ⟨g, spurious, [], .pure _, ?_, hpath.head, rfl, rfl, nofun⟩
    have hsame : { g with freeHead := free.head? } = g := by rw [← show g.freeHead = free.head? from hpath.head]
    rw [hsame]
    rfl
  | cons slot l ih =>
    obtain ⟨hhead, hpath⟩ := hpath
    obtain ⟨rest₁, hcall⟩ := allocLoop_returns g spurious
    -- the group after the first call, and the `TaskMeta` that it has returned
    let g₁ : Group := { (g.getOrCreate slot).1 with freeHead := g.freeSlots slot }
    let a := (g.getOrCreate slot).2
    have halloc : g.allocTaskMeta = (g₁, some a) := by
      simp only [Group.allocTaskMeta, hhead, getOrCreate_withHead]
      rfl
    rw [halloc] at hcall
    obtain ⟨hindex, hgen, -, hslots, hgens⟩ := getOrCreate_got g slot
    have hpath₁ : Path g₁.freeSlots g₁.freeHead (l ++ free) := by
      show Path (g.getOrCreate slot).1.freeSlots _ _
      rw [hslots]
      exact hpath
    obtain ⟨t, rest, gots, hallocs, hcreates, hthead, htslots, hindices, hgenerations⟩ :=
      ih hpath₁ (fun x hx => hlt x (List.mem_cons_of_mem _ hx)) rest₁
    refine ⟨t, rest, g₁.got a :: gots, ?_, ?_, hthead, htslots.trans hslots, ?_, ?_⟩
    · let others (p : (Group × List Bool) × Option ℕ) (fuel : ℕ) :=
        (allocs fuel l.length p.1.1 p.1.2).map fun r => (r.1, p.2.map p.1.1.got :: r.2)
      exact hcall.bind (k := others) hallocs.map
    · have hcreate : { g with freeHead := free.head? }.getOrCreateTaskMeta slot =
          ({ g₁ with freeHead := free.head? }, some a) := by
        rw [getOrCreateTaskMeta_eq _ (hlt slot List.mem_cons_self), getOrCreate_withHead]
      simp only [Group.getOrCreates, hcreate, hcreates]
      rfl
    · exact congrArg₂ List.cons hindex hindices
    · intro x hx
      obtain rfl | hx := List.mem_cons.mp hx
      · exact hgen.trans (congrArg g.generations hindex.symm)
      · exact (hgenerations x hx).trans (congrFun hgens x.slotIndex)

/-- **`AllocMultipleSlots` is `AllocTaskMeta`, several times**: it claims the slots that the calls of `AllocTaskMeta`
take, in the same order, and leaves the same free list; `GetOrCreateTaskMeta` then leaves the same task group, and
returns `TaskMeta`s with the same fields, also in another order and behind other calls that keep the generations. -/
theorem allocMultiple_eq (g : Group) (free : List ℕ) (hpath : Path g.freeSlots g.freeHead free)
    (hlt : ∀ slot ∈ free, slot < poolSize) (slots : ℕ → ℕ) (count : ℤ) (h1 : 1 ≤ count) (h16 : count ≤ 16)
    (spurious spurious' : List Bool) : ∃ k : ℕ, (k : ℤ) = min count free.length ∧
      ∃ g' slots' rest t rest', ∃ gots : List Got,
        Returns (g.claim (some slots) count · spurious) ((g', rest), some slots', k) ∧
        Returns (allocs · k g spurious') ((t, rest'), gots.map some) ∧
        Agree g g' t free slots slots' k gots := by
  let k := min count.toNat free.length
  have hk : (free.take k).length = k := by
    rw [List.length_take]
    omega
  have hturns : min count.toNat 16 = count.toNat := by omega
  have htake : free.take count.toNat = free.take k := by
    rw [List.take_eq_take_iff]
    omega
  have hdrop : free.drop count.toNat = free.drop k := by
    by_cases hle : count.toNat ≤ free.length
    · rw [show k = count.toNat by omega]
    · rw [List.drop_eq_nil_of_le (by omega), List.drop_eq_nil_of_le (by omega)]
  have halloc : g.allocMultipleSlots count = ({ g with freeHead := (free.drop k).head? }, free.take k) := by
    rw [Group.allocMultipleSlots, if_neg (by omega), hturns, walk_path hpath, htake, hdrop]
  -- the claim
  obtain ⟨rest, hclaim⟩ := claimLoop_returns g slots h1 h16 spurious
  rw [halloc] at hclaim
  obtain ⟨hcount, hmap, hframe⟩ := copyLoop_eq (l := free.take k) slots 0 (show _ ≤ count by omega)
  rw [hk, Nat.zero_add] at hcount hframe
  rw [hk, ← List.range_eq_range'] at hmap
  have hreturns : Returns (g.claim (some slots) count · spurious)
      (({ g with freeHead := (free.drop k).head? }, rest), some (copyLoop count (free.take k) slots 0).1, k) := by
    have hmapped := hclaim.map (q := fun r => (r.1, some r.2.1, r.2.2))
    simp only [hcount] at hmapped
    simp only [Group.claim, if_neg (show ¬count ≤ 0 by omega)]
    exact hmapped
  -- the calls of `AllocTaskMeta`
  have hsplit : Path g.freeSlots g.freeHead (free.take k ++ free.drop k) := by
    rw [List.take_append_drop]
    exact hpath
  have hin : ∀ slot ∈ free.take k, slot < poolSize := fun slot hslot => hlt slot (List.mem_of_mem_take hslot)
  obtain ⟨t, rest', gots, hallocs, hcreates, hhead, hslots, hindices, hgens⟩ := allocs_claim hsplit hin spurious'
  rw [hk] at hallocs
  refine ⟨k, by omega, _, _, rest, t, rest', gots, hreturns, hallocs, ?_⟩
  constructor
  case claimed => exact hmap.trans hindices.symm
  case frame =>
    intro i hi
    exact hframe i (Or.inr hi)
  case links => exact ⟨hhead.symm, hslots.symm⟩
  case path => exact path_drop hpath k
  case creates =>
    rw [hmap]
    exact hcreates
  case create =>
    intro h hh x hx
    have hslot : x.slotIndex < poolSize := hin _ (hindices ▸ List.mem_map_of_mem hx)
    obtain ⟨hindex, hgen, -⟩ := getOrCreate_got h x.slotIndex
    refine ⟨_, _, getOrCreateTaskMeta_eq h hslot, hindex, ?_⟩
    rw [hgen, hh, hgens x hx]

/-- Three slots are free, of which the first has a `TaskMeta`, and sixteen are asked for. -/
theorem allocMultiple_eq_three : ∃ g : Group, g.freeHead = some 2 ∧ g.taskPool 2 = some 0 ∧ ∃ k : ℕ, k = 3 ∧
    ∃ g' slots' rest t rest', ∃ gots : List Got,
      Returns (g.claim (some fun _ => 0) 16 · [true]) ((g', rest), some slots', k) ∧
      Returns (allocs · k g [false, true]) ((t, rest'), gots.map some) ∧
      Agree g g' t [2, 0, 5] (fun _ => 0) slots' k gots := by
  let g : Group :=
    { freeHead := some 2
      freeSlots := fun slot => if slot = 2 then some 0 else if slot = 0 then some 5 else none
      generations := fun slot => slot + 1
      taskPool := fun slot => if slot = 2 then some 0 else none
      metas := fun _ => {}
      made := 1 }
  obtain ⟨k, hk, h⟩ := allocMultiple_eq g [2, 0, 5] ⟨rfl, rfl, rfl, rfl⟩ (by decide) (fun _ => 0) 16 (by decide)
    (by decide) [true] [false, true]
  exact ⟨g, rfl, rfl, k, Int.ofNat_inj.mp hk, h⟩

end Cothread.TaskPool
