import Cothread.Core.TaskPool

/-!
# `TaskGroup`: the books are right after every operation

`Inv` is kept by the three things that the operations do: slots are taken from the free list (`Inv.reserve`), a slot
that has been taken gets its `TaskMeta` (`Inv.create`), and a task is handed back (`Inv.hand`).
-/

namespace Cothread.TaskPool

open Run Chain
open TaskGroup (poolSize)
open TaskId (encodeId encodeId_eq encodeId_inj)

/-- How the parts of the task group fit together. -/
structure Inv (s : State) : Prop where
  list : ∃ l, Path s.group.freeSlots s.group.freeHead l ∧ l.Nodup ∧ ∀ slot, slot ∈ l ↔ slot < poolSize ∧ slot ∉ s.slots
  distinct : s.slots.Nodup
  lt : ∀ slot ∈ s.slots, slot < poolSize
  pool : ∀ slot a, s.group.taskPool slot = some a → a < s.group.made ∧ (s.group.metas a).slotIndex = slot ∧
    (s.group.metas a).generation = s.group.generations slot
  unused : ∀ slot a, s.group.taskPool slot = some a → slot ∉ s.allocated.map Entry.slot →
    s.group.metas a = { slotIndex := slot, generation := s.group.generations slot, stack := (s.group.metas a).stack }
  entry : ∀ e ∈ s.allocated, s.group.taskPool e.slot = some e.task ∧ e.id = encodeId e.slot (s.group.generations e.slot)
  counted : ∀ slot, s.group.generations slot = (1 + s.deallocs slot) % 2 ^ 32
  few : ∀ slot, s.deallocs slot < 2 ^ 32
  stale : ∀ id ∈ s.stale, ∃ slot k, slot < poolSize ∧ k < s.deallocs slot ∧ id = encodeId slot ((1 + k) % 2 ^ 32)

/-! ## Ids -/

/-- What an id decodes to. -/
theorem decodeId_encodeId (g : Group) {slot gen : ℕ} (hs : slot < poolSize) (hg : gen < 2 ^ 32) :
    g.decodeId (encodeId slot gen) = (g.taskPool slot).filter fun a => (g.metas a).generation = gen := by
  have hlt : slot < 2 ^ 32 := hs.trans (by decide)
  have hslot : encodeId slot gen &&& 0xFFFFFFFF = slot := TaskId.slotOf_encodeId hs gen
  have hgen : (encodeId slot gen >>> 32) % 2 ^ 32 = gen := by
    rw [encodeId_eq hs, Nat.shiftRight_eq_div_pow]
    omega
  simp only [Group.decodeId, hslot, hgen, if_neg (Nat.not_le.mpr hs)]

/-- The id of an allocated task decodes to it. -/
theorem Inv.decodes {s : State} (h : Inv s) {e : Entry} (he : e ∈ s.allocated) :
    s.group.decodeId e.id = some e.task := by
  obtain ⟨hpool, hid⟩ := h.entry e he
  obtain ⟨-, -, hgen⟩ := h.pool _ _ hpool
  have hlt : e.slot < poolSize := h.lt _ (List.mem_append_right _ (List.mem_map_of_mem he))
  have h32 : s.group.generations e.slot < 2 ^ 32 := by
    rw [h.counted]
    exact Nat.mod_lt _ (by decide)
  rw [hid, decodeId_encodeId _ hlt h32, hpool, Option.filter_some, if_pos (decide_eq_true hgen)]

/-- A stale id does not decode. -/
theorem Inv.decodes_stale {s : State} (h : Inv s) {id : ℕ} (hid : id ∈ s.stale) : s.group.decodeId id = none := by
  obtain ⟨slot, k, hlt, hk, rfl⟩ := h.stale id hid
  rw [decodeId_encodeId _ hlt (Nat.mod_lt _ (by decide)), Option.filter_eq_none_iff]
  intro a ha
  obtain ⟨-, -, hgen⟩ := h.pool _ _ ha
  have hfew := h.few slot
  rw [decide_eq_true_eq, hgen, h.counted]
  omega

/-! ## What the operations do -/

theorem inv_start : Inv .start where
  list := ⟨List.range' 0 poolSize, TaskGroup.path_range (P := Unit) 16383 0 rfl, List.nodup_range', fun slot => by
    simp [State.start, State.slots, List.mem_range'_1]⟩
  distinct := List.nodup_nil
  lt _ hm := by cases hm
  pool _ _ ha := by cases ha
  unused _ _ ha := by cases ha
  entry _ hm := by cases hm
  counted _ := rfl
  few _ := Nat.two_pow_pos 32
  stale _ hm := by cases hm

/-- The first slots of the free list are taken. -/
theorem Inv.reserve {s : State} (h : Inv s) {found : List ℕ} {current : Option ℕ}
    (hseg : Seg s.group.freeSlots s.group.freeHead found current) :
    Inv { s with group := { s.group with freeHead := current }, reserved := found ++ s.reserved } := by
  obtain ⟨l, hpath, hnd, hmem⟩ := h.list
  obtain ⟨t, rfl, hrest⟩ := hpath.split hseg
  obtain ⟨hfound, ht, hdis⟩ := List.nodup_append.mp hnd
  have hfree : ∀ slot ∈ found, slot < poolSize ∧ slot ∉ s.slots :=
    fun slot hf => (hmem slot).mp (List.mem_append_left t hf)
  have hslots : ({ s with group := { s.group with freeHead := current }, reserved := found ++ s.reserved }
      : State).slots = found ++ s.slots := List.append_assoc _ _ _
  refine ⟨⟨t, hrest, ht, fun slot => ?_⟩, ?_, ?_, h.pool, h.unused, h.entry, h.counted, h.few, h.stale⟩
  · rw [hslots, List.mem_append, not_or]
    constructor
    · intro hm
      obtain ⟨hlt, hn⟩ := (hmem slot).mp (List.mem_append_right _ hm)
      exact ⟨hlt, fun hf => hdis slot hf slot hm rfl, hn⟩
    · rintro ⟨hlt, hf, hn⟩
      exact (List.mem_append.mp ((hmem slot).mpr ⟨hlt, hn⟩)).resolve_left hf
  · rw [hslots]
    exact List.nodup_append.mpr ⟨hfound, h.distinct, fun a ha b hb hab => (hfree a ha).2 (hab ▸ hb)⟩
  · intro slot hm
    rw [hslots] at hm
    exact (List.mem_append.mp hm).elim (fun hf => (hfree slot hf).1) (h.lt slot)

/-- The walk of `AllocMultipleSlots` is a segment of the free list. -/
theorem walk_seg (next : ℕ → Option ℕ) (n : ℕ) (p : Option ℕ) : Seg next p (walk next n p).1 (walk next n p).2 := by
  induction n generalizing p with
  | zero => rfl
  | succ n ih =>
    cases p with
    | none => rfl
    | some slot => exact ⟨rfl, ih (next slot)⟩

/-- The `TaskMeta` of a slot: the one in the pool, which is up to date, or a new one. -/
theorem Inv.getOrCreate {s : State} (h : Inv s) (slot : ℕ) :
    (∃ a, s.group.taskPool slot = some a ∧ s.group.getOrCreate slot = (s.group, a)) ∨
      s.group.taskPool slot = none ∧ s.group.getOrCreate slot =
        ({ s.group with
            metas := Function.update s.group.metas s.group.made
              { slotIndex := slot, generation := s.group.generations slot }
            taskPool := Function.update s.group.taskPool slot (some s.group.made)
            made := s.group.made + 1 }, s.group.made) := by
  cases hp : s.group.taskPool slot with
  | none => exact .inr ⟨rfl, by rw [Group.getOrCreate, hp]⟩
  | some a =>
    obtain ⟨-, hslot, hgen⟩ := h.pool slot a hp
    have hsame : { s.group.metas a with slotIndex := slot, generation := s.group.generations slot } =
        s.group.metas a := by
      rw [← hgen, ← hslot]
    refine .inl ⟨a, rfl, ?_⟩
    rw [Group.getOrCreate, hp]
    simp only [hsame, Function.update_eq_self]

/-- A slot that has been taken gets its `TaskMeta`. -/
theorem Inv.create {s : State} (h : Inv s) {slot : ℕ} (hm : slot ∈ s.reserved) :
    Inv ({ s with reserved := s.reserved.erase slot }.enter (s.group.getOrCreate slot).1 slot
      (s.group.getOrCreate slot).2) := by
  have hperm : s.slots.Perm (s.reserved.erase slot ++ slot :: s.allocated.map Entry.slot) :=
    ((List.perm_cons_erase hm).append_right _).trans List.perm_middle.symm
  have hin : slot ∈ s.slots := List.mem_append_left _ hm
  have hout : slot ∉ s.allocated.map Entry.slot := fun ha => (List.nodup_append.mp h.distinct).2.2 slot hm slot ha rfl
  obtain ⟨l, hpath, hnd, hmem⟩ := h.list
  have hlist : ∀ x, x ∈ l ↔ x < poolSize ∧ x ∉ s.reserved.erase slot ++ slot :: s.allocated.map Entry.slot :=
    fun x => by rw [hmem, hperm.mem_iff]
  have hlt : ∀ x ∈ s.reserved.erase slot ++ slot :: s.allocated.map Entry.slot, x < poolSize :=
    fun x hx => h.lt x (hperm.mem_iff.mpr hx)
  obtain ⟨a, hp, hg⟩ | ⟨hp, hg⟩ := h.getOrCreate slot
  · obtain ⟨-, hslot, hgen⟩ := h.pool slot a hp
    rw [hg]
    refine ⟨⟨l, hpath, hnd, hlist⟩, hperm.nodup_iff.mp h.distinct, hlt, h.pool, fun x b hb hx => ?_, ?_, h.counted,
      h.few, h.stale⟩
    · exact h.unused x b hb fun hx' => hx (List.mem_cons_of_mem _ hx')
    · rintro e (_ | ⟨_, he⟩)
      · exact ⟨hp, by rw [hslot, hgen]; rfl⟩
      · exact h.entry e he
  · rw [hg]
    -- the old `TaskMeta`s have other addresses, and their slots are others
    have hold : ∀ {x b}, Function.update s.group.taskPool slot (some s.group.made) x = some b →
        x = slot ∧ b = s.group.made ∨ x ≠ slot ∧ b ≠ s.group.made ∧ s.group.taskPool x = some b := by
      intro x b hb
      by_cases hx : x = slot
      · subst hx
        exact .inl ⟨rfl, by simpa using hb.symm⟩
      · rw [Function.update_of_ne hx] at hb
        exact .inr ⟨hx, Nat.ne_of_lt (h.pool x b hb).1, hb⟩
    refine ⟨⟨l, hpath, hnd, hlist⟩, hperm.nodup_iff.mp h.distinct, hlt, fun x b hb => ?_, fun x b hb hx => ?_, ?_,
      h.counted, h.few, h.stale⟩
    · obtain ⟨rfl, rfl⟩ | ⟨-, hne, hb⟩ := hold hb
      · simp [State.enter]
      · obtain ⟨h₁, h₂, h₃⟩ := h.pool x b hb
        simp only [State.enter, Function.update_of_ne hne]
        exact ⟨Nat.lt_succ_of_lt h₁, h₂, h₃⟩
    · obtain ⟨rfl, rfl⟩ | ⟨-, hne, hb⟩ := hold hb
      · exact absurd List.mem_cons_self hx
      · simp only [State.enter, Function.update_of_ne hne]
        exact h.unused x b hb fun hx' => hx (List.mem_cons_of_mem _ hx')
    · rintro e (_ | ⟨_, he⟩)
      · simp [State.enter]
      · have hne : e.slot ≠ slot := fun heq => hout (heq ▸ List.mem_map_of_mem he)
        simp only [State.enter, Function.update_of_ne hne]
        exact h.entry e he

/-- A task is handed back. -/
theorem Inv.hand {s : State} (h : Inv s) {e : Entry} (he : e ∈ s.allocated) (hfew : s.deallocs e.slot + 1 < 2 ^ 32) :
    Inv { s with
      group := s.group.deallocTaskMeta (some e.task)
      allocated := s.allocated.erase e
      stale := e.id :: s.stale
      deallocs := Function.update s.deallocs e.slot (s.deallocs e.slot + 1) } := by
  obtain ⟨hpool, hid⟩ := h.entry e he
  obtain ⟨hmade, hslot, hgen⟩ := h.pool _ _ hpool
  have hperm : s.slots.Perm (e.slot :: (s.reserved ++ (s.allocated.erase e).map Entry.slot)) :=
    (((List.perm_cons_erase he).map Entry.slot).append_left _).trans List.perm_middle
  have hnd' := hperm.nodup_iff.mp h.distinct
  obtain ⟨hout, hnd'⟩ := List.nodup_cons.mp hnd'
  have hin : e.slot ∈ s.slots := hperm.mem_iff.mpr List.mem_cons_self
  obtain ⟨l, hpath, hnd, hmem⟩ := h.list
  have hel : e.slot ∉ l := fun hl => ((hmem _).mp hl).2 hin
  -- another slot has another `TaskMeta`
  have hother : ∀ {x a}, s.group.taskPool x = some a → x ≠ e.slot → a ≠ e.task := by
    rintro x a ha hx rfl
    exact hx ((h.pool x _ ha).2.1.symm.trans hslot)
  have hgroup : s.group.deallocTaskMeta (some e.task) = { s.group with
      generations := Function.update s.group.generations e.slot ((s.group.generations e.slot + 1) % 2 ^ 32)
      metas := Function.update s.group.metas e.task
        ((s.group.metas e.task).reset ((s.group.generations e.slot + 1) % 2 ^ 32))
      freeSlots := Function.update s.group.freeSlots e.slot s.group.freeHead
      freeHead := some e.slot } := by
    simp only [Group.deallocTaskMeta, hslot]
  rw [hgroup]
  refine ⟨⟨e.slot :: l, hpath.push hel, List.nodup_cons.mpr ⟨hel, hnd⟩, fun x => ?_⟩, hnd', fun x hx => ?_,
    fun x a ha => ?_, fun x a ha hx => ?_, fun e' he' => ?_, fun x => ?_, fun x => ?_, ?_⟩
  · rw [List.mem_cons, hmem, hperm.mem_iff, List.mem_cons]
    show _ ↔ x < poolSize ∧ x ∉ s.reserved ++ (s.allocated.erase e).map Entry.slot
    have hlt := h.lt e.slot hin
    by_cases hx : x = e.slot
    · subst hx
      simp [hlt, hout]
    · simp [hx]
  · exact h.lt x (hperm.mem_iff.mpr (List.mem_cons_of_mem _ hx))
  · by_cases hx : x = e.slot
    · subst hx
      obtain rfl : e.task = a := Option.some.inj (hpool.symm.trans ha)
      simp [TaskMeta.reset, hmade, hslot]
    · simp only [Function.update_of_ne (hother ha hx), Function.update_of_ne hx]
      exact h.pool x a ha
  · by_cases hxe : x = e.slot
    · subst hxe
      obtain rfl : e.task = a := Option.some.inj (hpool.symm.trans ha)
      simp [TaskMeta.reset, hslot]
    · simp only [Function.update_of_ne (hother ha hxe), Function.update_of_ne hxe]
      refine h.unused x a ha fun hm => ?_
      obtain ⟨e', he', rfl⟩ := List.mem_map.mp hm
      exact hx (List.mem_map_of_mem ((List.mem_erase_of_ne fun heq => hxe (congrArg Entry.slot heq)).mpr he'))
  · have hne : e'.slot ≠ e.slot := fun heq =>
      hout (List.mem_append_right _ (heq ▸ List.mem_map_of_mem he'))
    simp only [Function.update_of_ne hne]
    exact h.entry e' (List.mem_of_mem_erase he')
  · by_cases hx : x = e.slot
    · subst hx
      simp only [Function.update_self, h.counted]
      omega
    · simp only [Function.update_of_ne hx]
      exact h.counted x
  · by_cases hx : x = e.slot
    · subst hx
      simpa using hfew
    · simp only [Function.update_of_ne hx]
      exact h.few x
  · have hmono : ∀ x, s.deallocs x ≤ Function.update s.deallocs e.slot (s.deallocs e.slot + 1) x := by
      intro x
      by_cases hx : x = e.slot
      · subst hx
        simp
      · simp [hx]
    rintro id (_ | ⟨_, hm⟩)
    · refine ⟨e.slot, s.deallocs e.slot, h.lt _ hin, ?_, ?_⟩
      · simp
      · rw [hid, h.counted]
    · obtain ⟨x, k, h₁, h₂, h₃⟩ := h.stale id hm
      exact ⟨x, k, h₁, Nat.lt_of_lt_of_le h₂ (hmono x), h₃⟩

/-- The owner of a task writes its fields. -/
theorem Inv.use {s : State} (h : Inv s) {task : ℕ} {m : TaskMeta} (he : ∃ e ∈ s.allocated, e.task = task)
    (hs : m.slotIndex = (s.group.metas task).slotIndex) (hg : m.generation = (s.group.metas task).generation) :
    Inv { s with group := { s.group with metas := Function.update s.group.metas task m } } := by
  obtain ⟨e, he, rfl⟩ := he
  obtain ⟨hpool, -⟩ := h.entry e he
  refine ⟨h.list, h.distinct, h.lt, fun x a ha => ?_, fun x a ha hx => ?_, h.entry, h.counted, h.few, h.stale⟩
  · obtain ⟨h₁, h₂, h₃⟩ := h.pool x a ha
    by_cases hae : a = e.task
    · subst hae
      simp only [Function.update_self, hs, hg]
      exact ⟨h₁, h₂, h₃⟩
    · simp only [Function.update_of_ne hae]
      exact ⟨h₁, h₂, h₃⟩
  · have hae : a ≠ e.task := by
      rintro rfl
      have hslot : x = e.slot := (h.pool x _ ha).2.1.symm.trans (h.pool _ _ hpool).2.1
      exact hx (hslot ▸ List.mem_map_of_mem he)
    simp only [Function.update_of_ne hae]
    exact h.unused x a ha hx

/-! ## Every run -/

/-- **What one operation preserves.** -/
theorem inv_step {s t : State} {l : Label} (h : Inv s) (hfew : Few s l) (hst : step s l = some t) : Inv t := by
  cases l with
  | allocTaskMeta =>
    cases hhead : s.group.freeHead with
    | none =>
      simp only [step, hhead, Group.allocTaskMeta, Option.some.injEq] at hst
      subst hst
      exact h
    | some slot =>
      have htaken := h.reserve (show Seg s.group.freeSlots s.group.freeHead [slot] _ from ⟨hhead, rfl⟩)
      have hcreated := htaken.create List.mem_cons_self
      have herase : ([slot] ++ s.reserved).erase slot = s.reserved := List.erase_cons_head ..
      simp only [step, hhead, Group.allocTaskMeta, Option.some.injEq] at hst
      subst hst
      simp only [herase] at hcreated
      exact hcreated
  | allocMultipleSlots count =>
    simp only [step, Group.allocMultipleSlots, Option.some.injEq] at hst
    subst hst
    split_ifs with hc
    · simpa using h
    · exact h.reserve (walk_seg s.group.freeSlots (min count.toNat 16) s.group.freeHead)
  | getOrCreateTaskMeta slot =>
    simp only [step, Group.getOrCreateTaskMeta] at hst
    split at hst
    · rename_i g task hg
      obtain ⟨hm, hst⟩ := Option.ite_none_right_eq_some.mp hst
      cases hst
      split_ifs at hg
      · cases hg
      · cases hg
        exact h.create hm
    · cases hst
  | deallocTaskMeta task =>
    obtain ⟨e, hfind, rfl⟩ := Option.map_eq_some_iff.mp hst
    have he := List.mem_of_find?_eq_some hfind
    obtain rfl : e.task = task := by simpa using List.find?_some hfind
    have hslot := (h.pool _ _ (h.entry e he).1).2.1
    exact h.hand he (hslot ▸ hfew)
  | use task m =>
    obtain ⟨he, hst⟩ := Option.ite_none_right_eq_some.mp hst
    cases hst
    exact h.use (by simpa using he) rfl rfl

/-- What `GetOrCreateTaskMeta` returns for a reserved slot. -/
theorem Inv.created {s : State} (h : Inv s) {slot : ℕ} (hm : slot ∈ s.reserved) :
    ∃ task, (s.group.getOrCreateTaskMeta slot).2 = some task ∧
      ((s.group.getOrCreateTaskMeta slot).1.metas task).slotIndex = slot ∧ ∀ e ∈ s.allocated, e.task ≠ task := by
  have hlt : slot < poolSize := h.lt slot (List.mem_append_left _ hm)
  have hout : slot ∉ s.allocated.map Entry.slot := fun ha => (List.nodup_append.mp h.distinct).2.2 slot hm slot ha rfl
  have hrange : ¬((slot : ℤ) < 0 ∨ (poolSize : ℤ) ≤ slot) := by omega
  have hcall : s.group.getOrCreateTaskMeta slot =
      ((s.group.getOrCreate slot).1, some (s.group.getOrCreate slot).2) := by
    rw [Group.getOrCreateTaskMeta, if_neg hrange, Int.toNat_natCast]
  rw [hcall]
  obtain ⟨a, hp, hg⟩ | ⟨-, hg⟩ := h.getOrCreate slot
  · rw [hg]
    refine ⟨a, rfl, (h.pool slot a hp).2.1, ?_⟩
    rintro e he rfl
    have hslot : e.slot = slot := (h.pool _ _ (h.entry e he).1).2.1.symm.trans (h.pool slot _ hp).2.1
    exact hout (hslot ▸ List.mem_map_of_mem he)
  · rw [hg]
    exact ⟨_, rfl, by simp, fun e he => Nat.ne_of_lt (h.pool _ _ (h.entry e he).1).1⟩

theorem Inv.proper {s : State} (h : Inv s) : Bookkeeping s where
  freeList := h.list
  distinct := h.distinct
  created _ hm := h.created hm
  slotIndex e he := (h.pool _ _ (h.entry e he).1).2.1
  decodes e he := by
    obtain ⟨hpool, hid⟩ := h.entry e he
    rw [(h.pool _ _ hpool).2.2]
    exact ⟨hid, h.decodes he⟩
  stale id hid := h.decodes_stale hid
  exhausted hnull slot hlt := by
    obtain ⟨l, hpath, -, hmem⟩ := h.list
    cases l with
    | nil =>
      by_contra hn
      exact List.not_mem_nil ((hmem slot).mpr ⟨hlt, hn⟩)
    | cons x l =>
      rw [Group.allocTaskMeta, hpath.1] at hnull
      cases hnull

/-- **The books are right after any operations**, while no slot is handed back 2^32 times. -/
theorem bookkeeping (s : State) (hs : Reach system Few s) : Bookkeeping s :=
  (hs.invariant (I := Inv) (by rintro s rfl; exact inv_start) fun _ _ _ h hfew hst => inv_step h hfew hst).proper

/-- Two tasks, one of them handed back and its slot given out again; four more slots are reserved. -/
theorem bookkeeping_reused : ∃ s : State, s.reserved = [3, 4, 5] ∧ s.stale = [encodeId 0 1] ∧
    s.allocated = [⟨2, 2, encodeId 2 1⟩, ⟨0, 0, encodeId 0 2⟩, ⟨1, 1, encodeId 1 1⟩] ∧ Bookkeeping s :=
  ⟨_, rfl, rfl, rfl, bookkeeping _ (reach_exec (fun _ _ h => h) (.init rfl) (show exec system .start [.allocTaskMeta,
    .allocTaskMeta, .use 0 { fn := some 7 }, .deallocTaskMeta 0, .allocTaskMeta, .allocMultipleSlots 4,
    .getOrCreateTaskMeta 2] = some _ from rfl) (by decide))⟩

end Cothread.TaskPool
