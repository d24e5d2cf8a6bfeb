import Cothread.Lib.Chain
import Cothread.Lib.Run

/-!
# `TaskGroup`: the free list of slots

The free list is a stack of slots: `free_head_` and the links `free_slots_`, in which `none` stands for −1. Any number
of threads take one slot (`AllocTaskMeta`), take up to `count` slots with one compare-and-swap (`AllocMultipleSlots`)
and give back slots that they own (`DeallocTaskMeta`), one access at a time. The head carries no version, so a
compare-and-swap can succeed with links that are out of date, and a slot gets two owners (`slot_given_twice`). While a
compare-and-swap of the head succeeds with current links only, nobody owns a slot that another thread owns or that is
on the free list (`one_owner`).
-/

namespace Cothread.TaskGroup

open Run Chain

/-- `POOL_SIZE`. -/
def poolSize : ℕ := 16384

/-- The next access of a thread to the free list. -/
inductive Pc
  | loadHead  -- `AllocTaskMeta`: `free_head_.load()`
  | loadNext (slot : ℕ)  -- `free_slots_[slot].load()`
  | take (slot : ℕ) (next : Option ℕ)  -- `compare_exchange_weak(slot, next)`
  | loadHeads (count : ℕ)  -- `AllocMultipleSlots`: `free_head_.load()`
  | walk (count head current : ℕ) (found : List ℕ)  -- `free_slots_[current].load()`
  | takes (count head : ℕ) (next : Option ℕ) (found : List ℕ)  -- `compare_exchange_weak(head, new_head)`
  | loadOld (slot : ℕ)  -- `DeallocTaskMeta`: `free_head_.load()`
  | link (slot : ℕ) (old : Option ℕ)  -- `free_slots_[slot].store(old_head)`
  | give (slot : ℕ) (old : Option ℕ)  -- `compare_exchange_weak(old_head, slot)`
  deriving DecidableEq

structure State (P : Type*) where
  head : Option ℕ  -- `free_head_`
  next : ℕ → Option ℕ  -- `free_slots_`
  pc : P → Option Pc
  owned : P → List ℕ  -- the slots that the thread has been given and has not given back

inductive Label (P : Type*)
  | alloc (p : P)
  | allocMany (p : P) (count : ℕ)
  | dealloc (p : P) (slot : ℕ)
  | access (p : P) (spurious : Bool)  -- `spurious`: a weak compare-and-swap fails for no reason
  deriving DecidableEq

/-- The constructor: every slot is free. -/
def State.start (P : Type*) : State P where
  head := some 0
  next i := if i + 1 = poolSize then none else some (i + 1)
  pc _ := none
  owned _ := []

section Steps

variable {P : Type*} [DecidableEq P]

def State.goto (s : State P) (p : P) (pc : Option Pc) : State P := { s with pc := Function.update s.pc p pc }

def State.setOwned (s : State P) (p : P) (l : List ℕ) : State P := { s with owned := Function.update s.owned p l }

/-- The loop of `AllocMultipleSlots` goes on at `current` or has ended there. -/
def walkTo (count head : ℕ) (current : Option ℕ) (found : List ℕ) : Pc :=
  match current with
  | some c =>
    if found.length < count ∧ found.length < 16 then .walk count head c found else .takes count head current found
  | none => .takes count head none found

/-- One access of a thread. -/
def State.access (s : State P) (p : P) (spurious : Bool) : Pc → State P
  | .loadHead => s.goto p (s.head.map .loadNext)
  | .loadNext slot => s.goto p (some (.take slot (s.next slot)))
  | .take slot next =>
    if s.head = some slot ∧ spurious = false then ({ s with head := next }.setOwned p (slot :: s.owned p)).goto p none
    else s.goto p (s.head.map .loadNext)
  | .loadHeads count => s.goto p (s.head.map fun head => walkTo count head (some head) [])
  | .walk count head current found => s.goto p (some (walkTo count head (s.next current) (found ++ [current])))
  | .takes count head next found =>
    if s.head = some head ∧ spurious = false then ({ s with head := next }.setOwned p (found ++ s.owned p)).goto p none
    else s.goto p (some (.loadHeads count))
  | .loadOld slot => s.goto p (some (.link slot s.head))
  | .link slot old => { s with next := Function.update s.next slot old }.goto p (some (.give slot old))
  | .give slot old =>
    if s.head = old ∧ spurious = false then
      ({ s with head := some slot }.setOwned p ((s.owned p).erase slot)).goto p none
    else s.goto p (some (.link slot s.head))

/-- One step. -/
def step (s : State P) : Label P → Option (State P)
  | .alloc p => if s.pc p = none then some (s.goto p (some .loadHead)) else none
  | .allocMany p count => if s.pc p = none ∧ 0 < count then some (s.goto p (some (.loadHeads count))) else none
  | .dealloc p slot => if s.pc p = none ∧ slot ∈ s.owned p then some (s.goto p (some (.loadOld slot))) else none
  | .access p spurious => (s.pc p).map (s.access p spurious)

end Steps

/-- Any threads on one task group. -/
def system (P : Type*) [DecidableEq P] : System (State P) (Label P) where
  init s := s = .start P
  step := step

variable {P : Type*}

/-- A compare-and-swap that takes slots finds the head unchanged, and the links it has read are no longer current. -/
def State.Stale (s : State P) : Pc → Prop
  | .take slot next => s.head = some slot ∧ s.next slot ≠ next
  | .takes _ head next found => s.head = some head ∧ ¬Seg s.next s.head found next
  | _ => False

instance (s : State P) : ∀ pc, Decidable (s.Stale pc)
  | .take _ _ | .takes _ _ _ _ => inferInstanceAs (Decidable (_ ∧ _))
  | .loadHead | .loadNext _ | .loadHeads _ | .walk _ _ _ _ | .loadOld _ | .link _ _ | .give _ _ => .isFalse not_false

/-- A compare-and-swap takes slots with links that are out of date. -/
def Stale (s : State P) : Label P → Prop
  | .access p false => ∃ pc ∈ s.pc p, s.Stale pc
  | _ => False

instance (s : State P) : ∀ l, Decidable (Stale s l)
  | .access p false => inferInstanceAs (Decidable (∃ pc ∈ s.pc p, s.Stale pc))
  | .access _ true | .alloc _ | .allocMany _ _ | .dealloc _ _ => .isFalse not_false

/-- **No slot has two owners**, and no owned slot is on the free list. -/
structure Exclusive (s : State P) : Prop where
  owners : ∀ p q slot, slot ∈ s.owned p → slot ∈ s.owned q → p = q
  free : ∀ p slot, slot ∈ s.owned p → ¬Reaches s.next s.head slot

/-! ## The invariant -/

/-- The slot that the thread is giving back. -/
def Pc.slot? : Pc → Option ℕ
  | .loadOld slot | .link slot _ | .give slot _ => some slot
  | _ => none

/-- The free list is a finite chain without the owned slots; a slot that is being given back is owned, and once it is
linked its link stays. -/
structure Inv (s : State P) : Prop where
  list : ∃ l, Path s.next s.head l ∧ l.Nodup ∧ ∀ p slot, slot ∈ s.owned p → slot ∉ l
  nodup : ∀ p, (s.owned p).Nodup
  owners : ∀ p q slot, slot ∈ s.owned p → slot ∈ s.owned q → p = q
  giving : ∀ p pc slot, s.pc p = some pc → pc.slot? = some slot → slot ∈ s.owned p
  link : ∀ p slot old, s.pc p = some (.give slot old) → s.next slot = old

theorem Inv.exclusive {s : State P} (h : Inv s) : Exclusive s where
  owners := h.owners
  free p slot hm hr := by
    obtain ⟨l, hp, -, hl⟩ := h.list
    exact hl p slot hm (hp.reaches_iff.mp hr)

/-- The slots in order, each linked to the next one. -/
theorem path_range (m k : ℕ) (hk : k + m + 1 = poolSize) :
    Path (State.start P).next (some k) (List.range' k (m + 1)) := by
  induction m generalizing k with
  | zero =>
    refine ⟨rfl, ?_⟩
    simp only [State.start]
    exact if_pos (by omega)
  | succ m ih =>
    rw [List.range'_succ]
    refine ⟨rfl, ?_⟩
    rw [show (State.start P).next k = some (k + 1) by simp only [State.start]; exact if_neg (by omega)]
    exact ih (k + 1) (by omega)

theorem inv_start : Inv (State.start P) where
  list := ⟨List.range' 0 poolSize, path_range 16383 0 rfl, List.nodup_range', fun p slot hm => by cases hm⟩
  nodup _ := List.nodup_nil
  owners _ _ _ hm := by cases hm
  giving _ _ _ hp := by cases hp
  link _ _ _ hp := by cases hp

section Steps

variable [DecidableEq P] {s s' : State P} {p : P}

@[simp] theorem goto_pc (x : Option Pc) : (s.goto p x).pc p = x := by simp [State.goto]

theorem goto_pc_ne {q : P} (x : Option Pc) (hq : q ≠ p) : (s.goto p x).pc q = s.pc q := by simp [State.goto, hq]

/-- A thread goes on, and nothing else changes. -/
theorem Inv.goto (h : Inv s) {x : Option Pc} (hg : ∀ pc slot, x = some pc → pc.slot? = some slot → slot ∈ s.owned p)
    (hl : ∀ slot old, x = some (.give slot old) → s.next slot = old) : Inv (s.goto p x) where
  list := h.list
  nodup := h.nodup
  owners := h.owners
  giving q pc slot hq := by
    by_cases hqp : q = p
    · subst hqp
      exact hg pc slot (by simpa using hq)
    · exact h.giving q pc slot (goto_pc_ne x hqp ▸ hq)
  link q slot old hq := by
    by_cases hqp : q = p
    · subst hqp
      exact hl slot old (by simpa using hq)
    · exact h.link q slot old (goto_pc_ne x hqp ▸ hq)

/-- A thread that is not giving back a slot goes on. -/
theorem Inv.goto_free (h : Inv s) {x : Option Pc} (hx : ∀ pc, x = some pc → pc.slot? = none) : Inv (s.goto p x) :=
  h.goto (fun pc slot hpc hs => by rw [hx pc hpc] at hs; cases hs) fun slot old hpc => by cases hx _ hpc

/-- The first slots of the free list are given to a thread. -/
theorem Inv.taken (h : Inv s) {found : List ℕ} {next : Option ℕ} (hseg : Seg s.next s.head found next)
    (hfree : ∀ pc, s.pc p = some pc → pc.slot? = none) :
    Inv ({ s with head := next }.setOwned p (found ++ s.owned p)) := by
  obtain ⟨l, hpath, hnd, hown⟩ := h.list
  obtain ⟨t, rfl, hrest⟩ := hpath.split hseg
  have hfound : ∀ q slot, slot ∈ found → slot ∉ s.owned q :=
    fun q slot hf hm => hown q slot hm (List.mem_append_left t hf)
  have hmem : ∀ q slot, slot ∈ Function.update s.owned p (found ++ s.owned p) q →
      q = p ∧ slot ∈ found ∨ slot ∈ s.owned q := by
    intro q slot hm
    by_cases hqp : q = p
    · subst hqp
      simpa using hm
    · exact Or.inr (by simpa [hqp] using hm)
  refine ⟨⟨t, hrest, (List.nodup_append.mp hnd).2.1, fun q slot hm ht => ?_⟩, fun q => ?_, fun q r slot hq hr => ?_,
    fun q pc slot hq hs => ?_, h.link⟩
  · rcases hmem q slot hm with ⟨-, hf⟩ | hq
    · exact (List.nodup_append.mp hnd).2.2 slot hf slot ht rfl
    · exact hown q slot hq (List.mem_append_right found ht)
  · by_cases hqp : q = p
    · subst hqp
      simp only [State.setOwned, Function.update_self]
      exact List.nodup_append.mpr
        ⟨(List.nodup_append.mp hnd).1, h.nodup q, fun a ha b hb hab => hfound q a ha (hab ▸ hb)⟩
    · simpa [State.setOwned, hqp] using h.nodup q
  · rcases hmem q slot hq with ⟨hqp, hf⟩ | hq' <;> rcases hmem r slot hr with ⟨hrp, hf'⟩ | hr'
    · exact hqp.trans hrp.symm
    · exact absurd hr' (hfound r slot hf)
    · exact absurd hq' (hfound q slot hf')
    · exact h.owners q r slot hq' hr'
  · have hqp : q ≠ p := by
      rintro rfl
      rw [hfree pc hq] at hs
      cases hs
    simpa [State.setOwned, hqp] using h.giving q pc slot hq hs

/-- A thread links the slot that it gives back. -/
theorem Inv.linked (h : Inv s) {slot : ℕ} {old : Option ℕ} (hpc : s.pc p = some (.link slot old)) :
    Inv ({ s with next := Function.update s.next slot old }.goto p (some (.give slot old))) := by
  have hmine : slot ∈ s.owned p := h.giving p _ slot hpc rfl
  obtain ⟨l, hpath, hnd, hown⟩ := h.list
  refine ⟨⟨l, hpath.update_of_notMem (hown p slot hmine), hnd, hown⟩, h.nodup, h.owners, fun q pc slot' hq hs => ?_,
    fun q slot' old' hq => ?_⟩
  · by_cases hqp : q = p
    · subst hqp
      cases (by simpa using hq : Pc.give slot old = pc)
      cases hs
      exact hmine
    · exact h.giving q pc slot' (goto_pc_ne _ hqp ▸ hq) hs
  · by_cases hqp : q = p
    · subst hqp
      cases (by simpa using hq : Pc.give slot old = .give slot' old')
      exact Function.update_self ..
    · have hq' : s.pc q = some (.give slot' old') := goto_pc_ne (some (.give slot old)) hqp ▸ hq
      have hne : slot' ≠ slot := fun he =>
        hqp (h.owners q p slot (h.giving q _ slot hq' (by rw [← he]; rfl)) hmine)
      exact (Function.update_of_ne hne _ _).trans (h.link q slot' old' hq')

/-- A thread puts the slot back on the free list. -/
theorem Inv.given (h : Inv s) {slot : ℕ} (hpc : s.pc p = some (.give slot s.head)) :
    Inv (({ s with head := some slot }.setOwned p ((s.owned p).erase slot)).goto p none) := by
  have hmine : slot ∈ s.owned p := h.giving p _ slot hpc rfl
  have hlink : s.next slot = s.head := h.link p slot _ hpc
  obtain ⟨l, hpath, hnd, hown⟩ := h.list
  have hmem : ∀ q x, x ∈ Function.update s.owned p ((s.owned p).erase slot) q → x ∈ s.owned q ∧ x ≠ slot := by
    intro q x hm
    by_cases hqp : q = p
    · subst hqp
      exact ((h.nodup q).mem_erase_iff.mp (by simpa using hm)).symm
    · have hx : x ∈ s.owned q := by simpa [hqp] using hm
      exact ⟨hx, fun he => hqp (h.owners q p slot (he ▸ hx) hmine)⟩
  refine ⟨⟨slot :: l, ⟨rfl, ?_⟩, List.nodup_cons.mpr ⟨hown p slot hmine, hnd⟩, fun q x hm => ?_⟩, fun q => ?_,
    fun q r x hq hr => h.owners q r x (hmem q x hq).1 (hmem r x hr).1, fun q pc x hq hs => ?_, fun q x old hq => ?_⟩
  · show Path s.next (s.next slot) l
    rw [hlink]
    exact hpath
  · obtain ⟨hq, hne⟩ := hmem q x hm
    simp [hne, hown q x hq]
  · by_cases hqp : q = p
    · subst hqp
      simpa [State.goto, State.setOwned] using (h.nodup q).erase slot
    · simpa [State.goto, State.setOwned, hqp] using h.nodup q
  all_goals
    have hqp : q ≠ p := by
      rintro rfl
      simp at hq
    rw [goto_pc_ne _ hqp] at hq
  · simpa [State.goto, State.setOwned, hqp] using h.giving q pc x hq hs
  · exact h.link q x old hq

theorem walkTo_slot (count head : ℕ) (current : Option ℕ) (found : List ℕ) :
    (walkTo count head current found).slot? = none := by
  unfold walkTo
  split
  · split_ifs <;> rfl
  · rfl

/-- **What one access preserves.** -/
theorem Inv.access (h : Inv s) {spurious : Bool} {pc : Pc} (hpc : s.pc p = some pc)
    (hok : ¬Stale s (.access p spurious)) :
    Inv (s.access p spurious pc) := by
  cases pc with
  | loadHead | loadHeads count =>
    refine h.goto_free fun pc hx => ?_
    obtain ⟨head, -, rfl⟩ := Option.map_eq_some_iff.mp hx
    first | rfl | exact walkTo_slot _ _ _ _
  | loadNext slot =>
    refine h.goto_free fun pc hx => ?_
    cases hx
    rfl
  | walk count head current found =>
    refine h.goto_free fun pc hx => ?_
    cases hx
    exact walkTo_slot _ _ _ _
  | take slot next =>
    simp only [State.access]
    split_ifs with hcas
    · obtain ⟨hhead, rfl⟩ := hcas
      have hseg : Seg s.next s.head [slot] next := by
        refine ⟨hhead, ?_⟩
        by_contra hne
        exact hok ⟨_, hpc, hhead, hne⟩
      refine (h.taken (p := p) hseg fun pc hp => ?_).goto_free fun pc hx => by cases hx
      cases hpc.symm.trans hp
      rfl
    · refine h.goto_free fun pc hx => ?_
      obtain ⟨head, -, rfl⟩ := Option.map_eq_some_iff.mp hx
      rfl
  | takes count head next found =>
    simp only [State.access]
    split_ifs with hcas
    · obtain ⟨hhead, rfl⟩ := hcas
      have hseg : Seg s.next s.head found next := by
        by_contra hne
        exact hok ⟨_, hpc, hhead, hne⟩
      refine (h.taken (p := p) hseg fun pc hp => ?_).goto_free fun pc hx => by cases hx
      cases hpc.symm.trans hp
      rfl
    · refine h.goto_free fun pc hx => ?_
      cases hx
      rfl
  | loadOld slot =>
    refine h.goto (fun pc slot' hx hs => ?_) fun slot' old hx => by cases hx
    cases hx
    exact h.giving p _ slot' hpc hs
  | link slot old => exact h.linked hpc
  | give slot old =>
    simp only [State.access]
    split_ifs with hcas
    · obtain ⟨rfl, rfl⟩ := hcas
      exact h.given hpc
    · refine h.goto (fun pc slot' hx hs => ?_) fun slot' old hx => by cases hx
      cases hx
      exact h.giving p _ slot' hpc hs

/-- **What one step preserves.** -/
theorem inv_step {l : Label P} (h : Inv s) (hok : ¬Stale s l) (hst : step s l = some s') : Inv s' := by
  cases l with
  | alloc p =>
    obtain ⟨-, hst⟩ := Option.ite_none_right_eq_some.mp hst
    cases hst
    exact h.goto_free fun pc hx => by cases hx; rfl
  | allocMany p count =>
    obtain ⟨-, hst⟩ := Option.ite_none_right_eq_some.mp hst
    cases hst
    exact h.goto_free fun pc hx => by cases hx; rfl
  | dealloc p slot =>
    obtain ⟨⟨-, hm⟩, hst⟩ := Option.ite_none_right_eq_some.mp hst
    cases hst
    refine h.goto (fun pc slot' hx hs => ?_) fun slot' old hx => by cases hx
    cases hx
    cases hs
    exact hm
  | access p spurious =>
    obtain ⟨pc, hpc, rfl⟩ := Option.map_eq_some_iff.mp hst
    exact h.access hpc hok

/-- **No slot has two owners and no owned slot is free**, in a run in which no compare-and-swap takes slots with links
that are out of date. -/
theorem one_owner (hs : Reach (system P) (fun s l => ¬Stale s l) s) : Exclusive s := by
  refine (hs.invariant (I := Inv) ?_ fun s t l h hok hst => inv_step h hok hst).exclusive
  rintro s rfl
  exact inv_start

end Steps

/-- One thread takes a slot and another one four; the first gives its slot back. -/
theorem one_owner_given : ∃ s : State Bool, s.owned false = [] ∧ s.owned true = [1, 2, 3, 4] ∧ s.head = some 0 ∧
    Exclusive s :=
  ⟨_, rfl, rfl, rfl,
    one_owner (reach_exec (fun _ _ h => h) (.init rfl) (show exec _ _ [.alloc false, .access false false,
    .access false false, .access false false, .allocMany true 4, .access true false, .access true false,
    .access true false, .access true false, .access true false, .access true true, .access true false,
    .access true false, .access true false, .access true false, .access true false, .access true false,
    .dealloc false 0, .access false false, .access false false, .access false false] = some _ from rfl) (by decide))⟩

/-- **A slot given twice**: a thread has read that slot 1 follows slot 0, another one takes both and gives slot 0 back,
and the first one's compare-and-swap makes slot 1 free; it takes slot 1 too. -/
theorem slot_given_twice : ∃ s : State Bool, Reachable (system Bool) s ∧ 1 ∈ s.owned false ∧ 1 ∈ s.owned true := by
  have hrun : ∀ ls s, exec (system Bool) (.start Bool) ls = some s → Reachable (system Bool) s :=
    fun ls s h => reachable_exec (.init rfl) h
  refine ⟨_, hrun [.alloc false, .access false false, .access false false, .alloc true, .access true false,
    .access true false, .access true false, .alloc true, .access true false, .access true false, .access true false,
    .dealloc true 0, .access true false, .access true false, .access true false, .access false false, .alloc false,
    .access false false, .access false false, .access false false] _ rfl, ?_, ?_⟩ <;> decide

end Cothread.TaskGroup
