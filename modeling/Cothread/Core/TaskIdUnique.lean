import Cothread.Core.TaskId
import Cothread.Lib.Once
import Mathlib.Data.List.Count

/-!
# `bthread_t`: an id names one bthread

While no last reference is released on a worker whose cache has room, no id is given out twice, and the id of a bthread
that has finished and been joined or detached does not decode (`ids_unique`); otherwise both fail (`id_given_twice`). A
slot is in one place at a time: the free list, a cache, or in use under its current id; and a slot in use has the
references that its end and its joiner have not dropped yet (`Inv`).
-/

namespace Cothread.TaskId

open Run Places
open TaskGroup (poolSize)

variable {W : Type*}

/-! ## Ids -/

theorem slotOf_eq (id : ℕ) : slotOf id = id % 2 ^ 32 := Nat.and_two_pow_sub_one_eq_mod id 32

theorem encodeId_eq {slot : ℕ} (hs : slot < poolSize) (gen : ℕ) : encodeId slot gen = gen * 2 ^ 32 + slot := by
  have hlt : slot < 2 ^ 32 := hs.trans (by decide)
  unfold encodeId
  rw [← Nat.shiftLeft_add_eq_or_of_lt hlt, Nat.shiftLeft_eq]

theorem slotOf_encodeId {slot : ℕ} (hs : slot < poolSize) (gen : ℕ) : slotOf (encodeId slot gen) = slot := by
  have hlt : slot < 2 ^ 32 := hs.trans (by decide)
  rw [slotOf_eq, encodeId_eq hs]
  omega

/-- Ids of different slots or generations differ. -/
theorem encodeId_inj {a b g g' : ℕ} (ha : a < poolSize) (hb : b < poolSize) (h : encodeId a g = encodeId b g') :
    a = b ∧ g = g' := by
  have hab : a = b := by rw [← slotOf_encodeId ha g, h, slotOf_encodeId hb]
  rw [encodeId_eq ha, encodeId_eq hb] at h
  omega

/-- The id that the slot would be given now. -/
def State.id (s : State W) (slot : ℕ) : ℕ := encodeId slot (s.generations slot)

/-- How many references the end of the bthread and its joiner have dropped. -/
def State.drops (s : State W) (id : ℕ) : Int :=
  (if id ∈ s.finished then 1 else 0) + if id ∈ s.released then 1 else 0

/-! ## The invariant -/

/-- Where a slot can be. -/
inductive Place (W : Type*)
  | free
  | cache (w : W)
  | used  -- its current id has been given out

def State.count (s : State W) (slot : ℕ) : Place W → ℕ
  | .free => s.free.count slot
  | .cache w => (s.cache w).count slot
  | .used => if s.id slot ∈ s.ids then 1 else 0

/-- A slot is in one place; a slot in use has a reference for its end and one for its joiner, as far as these are still
to come. -/
structure Inv (s : State W) : Prop where
  once : ∀ slot < poolSize, Once (s.count slot)
  range : ∀ slot, slot ∈ s.free ∨ (∃ w, slot ∈ s.cache w) → slot < poolSize
  gens : ∀ slot, s.generations slot = (1 + s.reuses slot) % 2 ^ 32
  metas : ∀ slot m, s.pool slot = some m → m.generation = s.generations slot
  given : ∀ id ∈ s.ids, ∃ slot k, slot < poolSize ∧ k ≤ s.reuses slot ∧ id = encodeId slot ((1 + k) % 2 ^ 32)
  used : ∀ slot < poolSize, s.id slot ∈ s.ids → ∃ m, s.pool slot = some m ∧ 0 < m.refCount ∧
    m.refCount + s.drops (s.id slot) ≤ 2
  alive : ∀ slot < poolSize, ∀ m, s.pool slot = some m → 0 < m.refCount → s.id slot ∈ s.ids
  nodup : s.ids.Nodup
  running : ∀ id ∈ s.running, id ∈ s.ids
  finished : ∀ id ∈ s.finished, id ∈ s.ids
  released : ∀ id ∈ s.released, id ∈ s.ids

variable {s s' : State W} {slot : ℕ}

/-- What an id that decodes says. -/
theorem decodeId_some {tid : ℕ} (h : Inv s) (hd : s.decodeId tid = some slot) :
    slot < poolSize ∧ tid = s.id slot ∧ ∃ m, s.pool slot = some m := by
  simp only [State.decodeId] at hd
  split_ifs at hd with hc
  cases hd
  obtain ⟨hlt, m, hm, hgen⟩ := hc
  refine ⟨hlt, ?_, m, hm⟩
  have hslot : tid &&& 0xFFFFFFFF = tid % 2 ^ 32 := slotOf_eq tid
  rw [State.id, ← h.metas _ m hm, hgen, encodeId_eq hlt, hslot, Nat.shiftRight_eq_div_pow]
  exact (Nat.div_add_mod' tid (2 ^ 32)).symm

theorem Inv.unique (h : Inv s) : Unique s where
  nodup := h.nodup
  stale id hf hr := by
    cases hd : s.decodeId id with
    | none => rfl
    | some slot =>
      obtain ⟨hlt, rfl, -⟩ := decodeId_some h hd
      obtain ⟨m, -, hpos, hle⟩ := h.used slot hlt (h.finished _ hf)
      simp only [State.drops, if_pos hf, if_pos hr] at hle
      omega

/-- The slot is in no list. -/
def Out (s : State W) (slot : ℕ) : Prop := slot ∉ s.free ∧ ∀ w, slot ∉ s.cache w

/-- The slot is in no list, and its current id has not been given out. -/
structure Held (s : State W) (slot : ℕ) : Prop where
  lt : slot < poolSize
  out : Out s slot
  unused : s.id slot ∉ s.ids

/-- A slot in use is in no list. -/
theorem Inv.out (h : Inv s) (hlt : slot < poolSize) (hid : s.id slot ∈ s.ids) : Out s slot := by
  have hused : 0 < s.count slot .used := by simp [State.count, hid]
  refine ⟨fun hm => ?_, fun w hm => ?_⟩
  · cases (h.once slot hlt).unique hused (show 0 < s.count slot .free from List.count_pos_iff.mpr hm)
  · cases (h.once slot hlt).unique hused (show 0 < s.count slot (.cache w) from List.count_pos_iff.mpr hm)

theorem Held.count (h : Held s slot) (a : Place W) : s.count slot a = 0 := by
  cases a with
  | free => exact List.count_eq_zero.mpr h.out.1
  | cache w => exact List.count_eq_zero.mpr (h.out.2 w)
  | used => exact if_neg h.unused

/-- Slots move between the lists. -/
theorem Inv.relocate (h : Inv s) (free : List ℕ) (cache : W → List ℕ)
    (honce : ∀ slot < poolSize, Once (State.count { s with free := free, cache := cache } slot))
    (hmem : ∀ slot, slot ∈ free ∨ (∃ w, slot ∈ cache w) → slot ∈ s.free ∨ ∃ w, slot ∈ s.cache w) :
    Inv { s with free := free, cache := cache } :=
  { h with once := honce, range := fun slot hm => h.range slot (hmem slot hm) }

/-! ## The task group -/

theorem getMeta_of_some {m : TaskMeta} (hm : s.pool slot = some m) : s.getMeta slot = m := by
  rw [State.getMeta, hm, Option.getD_some]

theorem Inv.generation (h : Inv s) (slot : ℕ) : (s.getMeta slot).generation = s.generations slot := by
  unfold State.getMeta
  cases hm : s.pool slot with
  | none => rfl
  | some m => exact h.metas slot m hm

theorem getMeta_pos (hpos : 0 < (s.getMeta slot).refCount) : s.pool slot = some (s.getMeta slot) := by
  unfold State.getMeta at hpos ⊢
  cases hm : s.pool slot with
  | none => simp [hm] at hpos
  | some m => rfl

/-- A slot is in use just when it has a reference. -/
theorem Inv.used_iff (h : Inv s) (hlt : slot < poolSize) : s.id slot ∈ s.ids ↔ 0 < (s.getMeta slot).refCount := by
  constructor
  · intro hid
    obtain ⟨m, hm, hpos, -⟩ := h.used slot hlt hid
    rwa [getMeta_of_some hm]
  · intro hpos
    exact h.alive slot hlt _ (getMeta_pos hpos) hpos

/-- The fields of a `TaskMeta` change, and its references with the uses of its id. -/
theorem Inv.setMeta (h : Inv s) {m : TaskMeta} (hgen : m.generation = s.generations slot)
    (hused : slot < poolSize → s.id slot ∈ s.ids → 0 < m.refCount ∧ m.refCount + s.drops (s.id slot) ≤ 2)
    (halive : slot < poolSize → 0 < m.refCount → s.id slot ∈ s.ids) : Inv (s.setMeta slot m) := by
  refine { h with metas := fun a x hx => ?_, used := fun a ha hid => ?_, alive := fun a ha x hx hpos => ?_ } <;>
    by_cases hae : a = slot
  · subst hae
    cases (by simpa [State.setMeta] using hx : m = x)
    exact hgen
  · exact h.metas a x (by simpa [State.setMeta, hae] using hx)
  · subst hae
    exact ⟨m, by simp [State.setMeta], hused ha hid⟩
  · obtain ⟨x, hx, hr⟩ := h.used a ha hid
    exact ⟨x, by simpa [State.setMeta, hae] using hx, hr⟩
  · subst hae
    cases (by simpa [State.setMeta] using hx : m = x)
    exact halive ha hpos
  · exact h.alive a ha x (by simpa [State.setMeta, hae] using hx) hpos

theorem Inv.getOrCreate (h : Inv s) (slot : ℕ) : Inv (s.getOrCreateTaskMeta slot) := by
  refine h.setMeta rfl (fun hlt hid => ?_) fun hlt hpos => (h.used_iff hlt).mpr hpos
  obtain ⟨m, hm, hr⟩ := h.used slot hlt hid
  rwa [getMeta_of_some hm]

/-- Only the pool changes. -/
theorem getOrCreate_frame (s : State W) (l : List ℕ) :
    ∃ pool, l.foldl State.getOrCreateTaskMeta s = { s with pool := pool } := by
  induction l generalizing s with
  | nil => exact ⟨s.pool, rfl⟩
  | cons x l ih =>
    obtain ⟨pool, hp⟩ := ih (s.getOrCreateTaskMeta x)
    exact ⟨pool, hp⟩

theorem Inv.getOrCreates (h : Inv s) (l : List ℕ) : Inv (l.foldl State.getOrCreateTaskMeta s) := by
  induction l generalizing s with
  | nil => exact h
  | cons x l ih => exact ih (h.getOrCreate x)

/-- The next generation of a slot is new. -/
theorem Inv.next_unused (h : Inv s) (hlt : slot < poolSize) (hbound : s.reuses slot + 1 < 2 ^ 32) :
    encodeId slot ((s.generations slot + 1) % 2 ^ 32) ∉ s.ids := by
  intro hm
  obtain ⟨a, k, ha, hk, he⟩ := h.given _ hm
  obtain ⟨rfl, hg⟩ := encodeId_inj hlt ha he
  have hgens := h.gens slot
  rw [hgens] at hg
  omega

theorem id_dealloc (slot : ℕ) :
    (s.deallocTaskMeta slot).id slot = encodeId slot ((s.generations slot + 1) % 2 ^ 32) := by
  simp [State.id, State.deallocTaskMeta]

/-- **A slot is handed back to the task group**: its generation advances, and it is free. -/
theorem Inv.dealloc (h : Inv s) (hlt : slot < poolSize) (hout : Out s slot) (hbound : s.reuses slot + 1 < 2 ^ 32) :
    Inv (s.deallocTaskMeta slot) := by
  have hid : ∀ a, a ≠ slot → (s.deallocTaskMeta slot).id a = s.id a := fun a ha => by
    simp [State.id, State.deallocTaskMeta, ha]
  have hnew : (s.deallocTaskMeta slot).id slot ∉ s.ids := by
    rw [id_dealloc]
    exact h.next_unused hlt hbound
  refine ⟨fun a ha => ?_, fun a hm => ?_, fun a => ?_, fun a m hm => ?_, fun id hm => ?_, fun a ha hm => ?_,
    fun a ha m hm hpos => ?_, h.nodup, h.running, h.finished, h.released⟩
  · by_cases has : a = slot
    · subst has
      refine Once.insert (b := .free) (c := fun _ => 0) (fun _ => rfl) ?_ fun i hi => Nat.le_of_eq ?_
      · simp [State.count, State.deallocTaskMeta, List.count_eq_zero.mpr hout.1]
      · cases i with
        | free => exact absurd rfl hi
        | cache w => exact List.count_eq_zero.mpr (hout.2 w)
        | used => exact if_neg hnew
    · refine (h.once a ha).mono fun i => Nat.le_of_eq ?_
      cases i with
      | free => simp [State.count, State.deallocTaskMeta, List.count_cons_of_ne (Ne.symm has)]
      | cache w => rfl
      | used => simp only [State.count, hid a has]; rfl
  · rcases hm with hm | hm
    · rcases List.mem_cons.mp hm with rfl | hm
      · exact hlt
      · exact h.range a (Or.inl hm)
    · exact h.range a (Or.inr hm)
  · by_cases has : a = slot
    · subst has
      have := h.gens a
      simp only [State.deallocTaskMeta, Function.update_self]
      omega
    · simpa [State.deallocTaskMeta, has] using h.gens a
  · by_cases has : a = slot
    · subst has
      cases (by simpa [State.deallocTaskMeta, State.setMeta] using hm : _ = m)
      simp [State.deallocTaskMeta]
    · simpa [State.deallocTaskMeta, has] using h.metas a m
        (by simpa [State.deallocTaskMeta, State.setMeta, has] using hm)
  · obtain ⟨a, k, ha, hk, he⟩ := h.given id hm
    refine ⟨a, k, ha, hk.trans ?_, he⟩
    by_cases has : a = slot
    · subst has; simp [State.deallocTaskMeta]
    · simp [State.deallocTaskMeta, has]
  · by_cases has : a = slot
    · subst has
      exact absurd hm hnew
    · rw [hid a has] at hm ⊢
      obtain ⟨m, hp, hr⟩ := h.used a ha hm
      exact ⟨m, by simpa [State.deallocTaskMeta, State.setMeta, has] using hp, hr⟩
  · by_cases has : a = slot
    · subst has
      cases (by simpa [State.deallocTaskMeta, State.setMeta] using hm : _ = m)
      cases hpos
    · rw [hid a has]
      exact h.alive a ha m (by simpa [State.deallocTaskMeta, State.setMeta, has] using hm) hpos

/-! ## Acquiring a `TaskMeta` -/

/-- Taking a slot from the free list. -/
theorem Inv.alloc (h : Inv s) {free : List ℕ} (hf : s.free = slot :: free) :
    Inv { s with free := free } ∧ Held { s with free := free } slot := by
  have hlt : slot < poolSize := h.range slot (Or.inl (by simp [hf]))
  have hone := h.once slot hlt
  have hpos : 0 < s.count slot .free := List.count_pos_iff.mpr (by simp [hf])
  refine ⟨h.relocate free s.cache (fun a ha => (h.once a ha).mono fun i => ?_) fun a hm => ?_, hlt,
    ⟨fun hm => ?_, fun w hm => ?_⟩,
    fun hm => ?_⟩
  · cases i with
    | free =>
      simp only [State.count, hf]
      exact List.count_le_count_cons
    | _ => exact Nat.le_refl _
  · rw [hf]
    exact hm.imp_left (List.mem_cons_of_mem _)
  · have hle := hone.le_one .free
    have hpos' := List.count_pos_iff.mpr hm
    simp only [State.count, hf, List.count_cons_self] at hle hpos'
    omega
  · cases hone.unique hpos (show 0 < s.count slot (.cache w) from List.count_pos_iff.mpr hm)
  · cases hone.unique hpos (show 0 < s.count slot .used by simp [State.count, show s.id slot ∈ s.ids from hm])

theorem Held.getOrCreate {a : ℕ} (h : Held s slot) : Held (s.getOrCreateTaskMeta a) slot := ⟨h.lt, h.out, h.unused⟩

/-- What the acquisition of a `TaskMeta` leaves. -/
def Acquired (r : State W × Option ℕ) : Prop := Inv r.1 ∧ ∀ slot, r.2 = some slot → Held r.1 slot

theorem Inv.allocTaskMeta (h : Inv s) : Acquired s.allocTaskMeta := by
  unfold State.allocTaskMeta
  split
  · exact ⟨h, nofun⟩
  · next slot free hf =>
    obtain ⟨h1, h2⟩ := h.alloc hf
    refine ⟨h1.getOrCreate slot, fun a ha => ?_⟩
    cases ha
    exact h2.getOrCreate

variable [DecidableEq W]

theorem Inv.popCache (h : Inv s) (w : W) : Acquired (s.popCache w) := by
  unfold State.popCache
  split
  · exact ⟨h, nofun⟩
  · next slot c hc =>
    have hlt : slot < poolSize := h.range slot (Or.inr ⟨w, by simp [hc]⟩)
    have hone := h.once slot hlt
    have hpos : 0 < s.count slot (.cache w) := List.count_pos_iff.mpr (by simp [hc])
    refine ⟨h.relocate s.free _ (fun a ha => (h.once a ha).mono fun i => ?_) fun a hm => ?_, fun a ha => ?_⟩
    · cases i with
      | cache v =>
        by_cases hv : v = w
        · subst hv
          simp only [State.count, Function.update_self, hc]
          exact List.count_le_count_cons
        · simp [State.count, hv]
      | _ => exact Nat.le_refl _
    · refine hm.imp_right fun ⟨v, hv⟩ => ⟨v, ?_⟩
      by_cases hvw : v = w
      · subst hvw
        rw [hc]
        exact List.mem_cons_of_mem _ (by simpa using hv)
      · simpa [hvw] using hv
    · cases ha
      refine ⟨hlt, ⟨fun hm => ?_, fun v hm => ?_⟩, fun hm => ?_⟩
      · cases hone.unique hpos (show 0 < s.count slot .free from List.count_pos_iff.mpr hm)
      · by_cases hv : v = w
        · subst hv
          have hle := hone.le_one (.cache v)
          have hpos' := List.count_pos_iff.mpr hm
          simp only [State.count, State.setCache, Function.update_self, hc, List.count_cons_self] at hle hpos'
          omega
        · have hm' : slot ∈ s.cache v := by simpa [State.setCache, hv] using hm
          cases hone.unique hpos (show 0 < s.count slot (.cache v) from List.count_pos_iff.mpr hm')
          exact hv rfl
      · cases hone.unique hpos (show 0 < s.count slot .used by simp [State.count, show s.id slot ∈ s.ids from hm])

theorem Inv.refillTaskCache (h : Inv s) (w : W) : Inv (s.refillTaskCache w) := by
  unfold State.refillTaskCache
  -- the slots first move to the cache, and then their `TaskMeta` are brought up to date
  have hmove : Inv ({ s with free := s.free.drop taskCacheSize }.setCache w
      ((s.free.take taskCacheSize).reverse ++ s.cache w)) := by
    refine h.relocate _ _ (fun a ha => (h.once a ha).move (a := .free) (b := .cache w) nofun ?_ fun i hi hw => ?_)
      fun a hm => ?_
    · have hsplit := congrArg (List.count a) (List.take_append_drop taskCacheSize s.free)
      simp only [List.count_append] at hsplit
      simp only [State.count, Function.update_self, List.count_append, List.count_reverse]
      omega
    · cases i with
      | free => exact absurd rfl hi
      | cache v => simp [State.count, show v ≠ w from fun e => hw (e ▸ rfl)]
      | used => exact Nat.le_refl _
    · rcases hm with hm | ⟨v, hv⟩
      · exact Or.inl (List.mem_of_mem_drop hm)
      · by_cases hvw : v = w
        · subst hvw
          rcases List.mem_append.mp
            (by simpa using hv : a ∈ (s.free.take taskCacheSize).reverse ++ s.cache v) with hv | hv
          · exact Or.inl (List.mem_of_mem_take (List.mem_reverse.mp hv))
          · exact Or.inr ⟨v, hv⟩
        · exact Or.inr ⟨v, by simpa [hvw] using hv⟩
  have hcomm : ∀ (l c : List ℕ) (r : State W), (l.foldl State.getOrCreateTaskMeta r).setCache w c =
      l.foldl State.getOrCreateTaskMeta (r.setCache w c) := by
    intro l c
    induction l with
    | nil => exact fun r => rfl
    | cons x l ih => exact fun r => ih (r.getOrCreateTaskMeta x)
  rw [hcomm]
  exact hmove.getOrCreates _

theorem Inv.acquireTaskMeta (h : Inv s) (w : W) : Acquired (s.acquireTaskMeta w) := by
  unfold State.acquireTaskMeta
  split
  · exact (h.refillTaskCache w).popCache w
  · exact h.popCache w

theorem Inv.acquire (h : Inv s) (w : Option W) : Acquired (s.acquire w) := by
  cases w with
  | none => exact h.allocTaskMeta
  | some w =>
    have hw := h.acquireTaskMeta w
    simp only [State.acquire]
    split
    · next s1 slot he => rwa [he] at hw
    · next s1 he =>
      rw [he] at hw
      exact hw.1.allocTaskMeta

/-! ## The operations -/

omit [DecidableEq W] in
/-- A new id is given out. -/
theorem Inv.give (h : Inv s) (hh : Held s slot) {m : TaskMeta} (hgen : m.generation = s.generations slot)
    (href : m.refCount = 2) :
    Inv { s.setMeta slot m with ids := s.id slot :: s.ids, running := s.id slot :: s.running } := by
  have hne : ∀ a < poolSize, a ≠ slot → s.id a ≠ s.id slot := fun a ha has he => has (encodeId_inj ha hh.lt he).1
  refine ⟨fun a ha => ?_, h.range, h.gens, fun a x hx => ?_, fun id hm => ?_, fun a ha hm => ?_,
    fun a ha x hx hpos => ?_,
    List.nodup_cons.mpr ⟨hh.unused, h.nodup⟩, fun id hm => ?_, fun id hm => List.mem_cons_of_mem _ (h.finished id hm),
    fun id hm => List.mem_cons_of_mem _ (h.released id hm)⟩
  · by_cases has : a = slot
    · subst has
      refine Once.insert (b := .used) hh.count (by simp only [State.count]; split_ifs <;> simp) fun i hi => ?_
      cases i with
      | used => exact absurd rfl hi
      | _ => exact Nat.le_refl _
    · refine (h.once a ha).mono fun i => ?_
      cases i with
      | used =>
        have hmem : s.id a ∈ s.id slot :: s.ids ↔ s.id a ∈ s.ids := by simp [hne a ha has]
        exact Nat.le_of_eq (if_congr hmem rfl rfl)
      | _ => exact Nat.le_refl _
  · by_cases has : a = slot
    · subst has
      cases (by simpa [State.setMeta] using hx : m = x)
      exact hgen
    · exact h.metas a x (by simpa [State.setMeta, has] using hx)
  · rcases List.mem_cons.mp hm with rfl | hm
    · exact ⟨slot, s.reuses slot, hh.lt, Nat.le_refl _, by rw [State.id, h.gens]⟩
    · exact h.given id hm
  · by_cases has : a = slot
    · subst has
      have hfin : s.id a ∉ s.finished := fun hf => hh.unused (h.finished _ hf)
      have hrel : s.id a ∉ s.released := fun hr => hh.unused (h.released _ hr)
      refine ⟨m, by simp [State.setMeta], by omega, ?_⟩
      show m.refCount + s.drops (s.id a) ≤ 2
      simp only [State.drops, if_neg hfin, if_neg hrel]
      omega
    · rcases List.mem_cons.mp hm with he | hm
      · exact absurd he (hne a ha has)
      · obtain ⟨x, hx, hr⟩ := h.used a ha hm
        exact ⟨x, by simpa [State.setMeta, has] using hx, hr⟩
  · by_cases has : a = slot
    · subst has
      exact List.mem_cons_self
    · exact List.mem_cons_of_mem _ (h.alive a ha x (by simpa [State.setMeta, has] using hx) hpos)
  · exact List.mem_cons.mpr ((List.mem_cons.mp hm).imp_right (h.running id))

omit [DecidableEq W] in
theorem Inv.setUp (h : Inv s) (hh : Held s slot) (stackOk : Bool)
    (hbound : (s.setUp slot stackOk).1.reuses slot < 2 ^ 32) : Inv (s.setUp slot stackOk).1 := by
  simp only [State.setUp] at hbound ⊢
  split_ifs at hbound ⊢ with hc
  · have hgive := h.give hh (m := { s.getMeta slot with state := .ready, refCount := 2, stack := true })
      (h.generation slot) rfl
    simpa only [State.id, h.generation slot] using hgive
  · exact h.dealloc hh.lt hh.out (by simpa [State.deallocTaskMeta] using hbound)

omit [DecidableEq W] in
/-- What the bthreads and their joiners have done is recorded. -/
theorem Inv.history (h : Inv s) {running finished released : List ℕ} (hrun : ∀ id ∈ running, id ∈ s.ids)
    (hfin : ∀ id ∈ finished, id ∈ s.ids) (hrel : ∀ id ∈ released, id ∈ s.ids)
    (hdrops : ∀ a < poolSize, ∀ m, s.pool a = some m → s.id a ∈ s.ids →
      m.refCount + State.drops { s with finished := finished, released := released } (s.id a) ≤ 2) :
    Inv { s with running := running, finished := finished, released := released } :=
  { h with
    running := hrun
    finished := hfin
    released := hrel
    used := fun a ha hm => by
      obtain ⟨m, hp, hpos, -⟩ := h.used a ha hm
      exact ⟨m, hp, hpos, hdrops a ha m hp hm⟩ }

omit [DecidableEq W] in
/-- What the fields were does not matter when the slot is handed back to the task group. -/
theorem dealloc_setMeta {m : TaskMeta} (hstack : m.stack = (s.getMeta slot).stack) :
    (s.setMeta slot m).deallocTaskMeta slot = s.deallocTaskMeta slot := by
  simp [State.deallocTaskMeta, State.setMeta, State.getMeta, hstack]

/-- **A reference is released**, not the last one on a worker whose cache has room; `released` and `finished` record
it. -/
theorem Inv.release (h : Inv s) (hlt : slot < poolSize) {w : Option W} {x : TaskState}
    {r : State W} (hr : r = (s.setMeta slot { s.getMeta slot with state := x }).release w slot)
    (hroom : (s.getMeta slot).refCount = 1 → ∀ v, w = some v → ¬(s.cache v).length < taskCacheSize)
    (hbound : r.reuses slot < 2 ^ 32) {running finished released : List ℕ} (hrun : ∀ id ∈ running, id ∈ s.ids)
    (hfin : ∀ id ∈ finished, id ∈ s.ids) (hrel : ∀ id ∈ released, id ∈ s.ids)
    (hdrops : ∀ a < poolSize, State.drops { s with finished := finished, released := released } (s.id a) ≤
      s.drops (s.id a) + if a = slot then 1 else 0) :
    Inv { r with running := running, finished := finished, released := released } := by
  have hget : (s.setMeta slot { s.getMeta slot with state := x }).getMeta slot =
    { s.getMeta slot with state := x } := by
    simp [State.getMeta, State.setMeta]
  have hset : ∀ m : TaskMeta, (s.setMeta slot { s.getMeta slot with state := x }).setMeta slot m =
    s.setMeta slot m := by
    intro m
    simp [State.setMeta]
  simp only [State.release, hget, hset] at hr
  by_cases hlast : (s.getMeta slot).refCount = 1
  · rw [if_pos hlast] at hr
    have hdealloc : r = s.deallocTaskMeta slot := by
      rw [hr]
      cases w with
      | none => exact dealloc_setMeta rfl
      | some v => exact (if_neg (hroom hlast v rfl)).trans (dealloc_setMeta rfl)
    subst hdealloc
    have hid : s.id slot ∈ s.ids := (h.used_iff hlt).mpr (by omega)
    have hbound' : s.reuses slot + 1 < 2 ^ 32 := by simpa [State.deallocTaskMeta] using hbound
    refine (h.dealloc hlt (h.out hlt hid) hbound').history hrun hfin hrel fun a ha m hm hida => ?_
    have has : a ≠ slot := by
      rintro rfl
      exact h.next_unused hlt hbound' (id_dealloc a ▸ hida)
    have hsame : (s.deallocTaskMeta slot).id a = s.id a := by simp [State.id, State.deallocTaskMeta, has]
    obtain ⟨m', hm', -, hle⟩ := h.used a ha (hsame ▸ hida)
    cases hm'.symm.trans (by simpa [State.deallocTaskMeta, State.setMeta, has] using hm)
    have hd := hdrops a ha
    rw [if_neg has] at hd
    rw [hsame]
    exact (Int.add_le_add_left (hd.trans (Int.le_of_eq (Int.add_zero _))) _).trans hle
  · rw [if_neg hlast] at hr
    subst hr
    have hstep : Inv
      (s.setMeta slot { s.getMeta slot with state := x, refCount := (s.getMeta slot).refCount - 1 }) := by
      refine h.setMeta (h.generation slot) (fun _ hid => ?_) fun _ hpos => (h.used_iff hlt).mpr ?_
      · obtain ⟨m, hm, hpos, hle⟩ := h.used slot hlt hid
        rw [getMeta_of_some hm] at hlast ⊢
        exact ⟨by show 0 < m.refCount - 1; omega, by show m.refCount - 1 + _ ≤ 2; omega⟩
      · have : 0 < (s.getMeta slot).refCount - 1 := hpos
        omega
    refine hstep.history hrun hfin hrel fun a ha m hm hida => ?_
    obtain ⟨m', hm', -, hle⟩ := h.used a ha hida
    have hd := hdrops a ha
    show m.refCount + State.drops { s with finished := finished, released := released } (s.id a) ≤ 2
    by_cases has : a = slot
    · subst has
      cases (by simpa [State.setMeta] using hm : _ = m)
      rw [if_pos rfl] at hd
      show (s.getMeta a).refCount - 1 + _ ≤ 2
      rw [getMeta_of_some hm']
      omega
    · cases hm'.symm.trans (by simpa [State.setMeta, has] using hm)
      rw [if_neg has] at hd
      omega

omit [DecidableEq W] in
theorem dealloc_reuses (s : State W) (slot a : ℕ) : s.reuses a ≤ (s.deallocTaskMeta slot).reuses a := by
  by_cases hax : a = slot
  · subst hax; simp [State.deallocTaskMeta]
  · simp [State.deallocTaskMeta, hax]

omit [DecidableEq W] in
theorem deallocs_reuses (s : State W) (l : List ℕ) (a : ℕ) :
    s.reuses a ≤ (l.foldl State.deallocTaskMeta s).reuses a := by
  induction l generalizing s with
  | nil => exact Nat.le_refl _
  | cons x l ih => exact (dealloc_reuses s x a).trans (ih (s.deallocTaskMeta x))

omit [DecidableEq W] in
/-- Slots that are in no list are handed back one after the other. -/
theorem Inv.deallocs {l : List ℕ} (hl : l.Nodup) (h : Inv s) (hlt : ∀ x ∈ l, x < poolSize) (hout : ∀ x ∈ l, Out s x)
    (hbound : ∀ a, (l.foldl State.deallocTaskMeta s).reuses a < 2 ^ 32) : Inv (l.foldl State.deallocTaskMeta s) := by
  induction l generalizing s with
  | nil => exact h
  | cons x l ih =>
    obtain ⟨hx, hnd⟩ := List.nodup_cons.mp hl
    have hreuse := (deallocs_reuses (s.deallocTaskMeta x) l x).trans_lt (hbound x)
    refine ih hnd (h.dealloc (hlt x List.mem_cons_self) (hout x List.mem_cons_self)
      (by simpa [State.deallocTaskMeta] using hreuse)) (fun y hy => hlt y (List.mem_cons_of_mem x hy))
        (fun y hy => ?_) hbound
    obtain ⟨h1, h2⟩ := hout y (List.mem_cons_of_mem x hy)
    refine ⟨fun hm => ?_, h2⟩
    rcases List.mem_cons.mp hm with rfl | hm
    · exact hx hy
    · exact h1 hm

theorem Inv.drain (h : Inv s) (w : W) (hbound : ∀ a, (s.drainTaskCache w).reuses a < 2 ^ 32) :
    Inv (s.drainTaskCache w) := by
  have hcomm : ∀ (l : List ℕ) (r : State W), (l.foldl State.deallocTaskMeta r).setCache w [] =
      l.foldl State.deallocTaskMeta (r.setCache w []) := by
    intro l
    induction l with
    | nil => exact fun r => rfl
    | cons x l ih => exact fun r => ih (r.deallocTaskMeta x)
  unfold State.drainTaskCache at hbound ⊢
  rw [hcomm] at hbound ⊢
  have hone : ∀ x ∈ s.cache w, x < poolSize ∧ (s.cache w).count x ≤ 1 ∧ Out (s.setCache w []) x := by
    intro x hx
    have hlt := h.range x (Or.inr ⟨w, hx⟩)
    have hpos : 0 < s.count x (.cache w) := List.count_pos_iff.mpr hx
    refine ⟨hlt, (h.once x hlt).le_one (.cache w), fun hm => ?_, fun v hv => ?_⟩
    · cases (h.once x hlt).unique hpos (show 0 < s.count x .free from List.count_pos_iff.mpr hm)
    · by_cases hvw : v = w
      · subst hvw
        simp [State.setCache] at hv
      · have hv' : x ∈ s.cache v := by simpa [State.setCache, hvw] using hv
        cases (h.once x hlt).unique hpos (show 0 < s.count x (.cache v) from List.count_pos_iff.mpr hv')
        exact hvw rfl
  have hempty : Inv (s.setCache w []) := by
    refine h.relocate s.free _ (fun a ha => (h.once a ha).mono fun i => ?_) fun a hm => hm.imp_right ?_
    · cases i with
      | cache v =>
        by_cases hv : v = w
        · subst hv; simp [State.count]
        · simp [State.count, hv]
      | _ => exact Nat.le_refl _
    · rintro ⟨v, hv⟩
      by_cases hvw : v = w
      · subst hvw
        simp at hv
      · exact ⟨v, by simpa [hvw] using hv⟩
  refine Inv.deallocs (List.nodup_reverse.mpr (List.nodup_iff_count_le_one.mpr fun a => ?_)) hempty
    (fun x hx => (hone x (List.mem_reverse.mp hx)).1) (fun x hx => (hone x (List.mem_reverse.mp hx)).2.2) hbound
  by_cases ha : a ∈ s.cache w
  · exact (hone a ha).2.1
  · rw [List.count_eq_zero.mpr ha]
    exact Nat.zero_le 1

/-! ## Slots are reused more and more often -/

theorem acquire_reuses (s : State W) (w : Option W) : (s.acquire w).1.reuses = s.reuses := by
  have halloc : ∀ r : State W, r.allocTaskMeta.1.reuses = r.reuses := by
    intro r
    unfold State.allocTaskMeta
    split <;> rfl
  have hpop : ∀ (r : State W) (v : W), (r.popCache v).1.reuses = r.reuses := by
    intro r v
    unfold State.popCache
    split <;> rfl
  have hacquire : ∀ v : W, (s.acquireTaskMeta v).1.reuses = s.reuses := by
    intro v
    unfold State.acquireTaskMeta
    split
    · rw [hpop, State.refillTaskCache]
      obtain ⟨pool, hp⟩ := getOrCreate_frame { s with free := s.free.drop taskCacheSize } (s.free.take taskCacheSize)
      simp only [hp]
      rfl
    · exact hpop s v
  cases w with
  | none => exact halloc s
  | some v =>
    simp only [State.acquire]
    split
    · next s1 slot he => exact (congrArg (fun r => r.1.reuses) he).symm.trans (hacquire v)
    · next s1 he => exact (halloc s1).trans ((congrArg (fun r => r.1.reuses) he).symm.trans (hacquire v))

theorem release_reuses (s : State W) (w : Option W) (slot a : ℕ) : s.reuses a ≤ (s.release w slot).reuses a := by
  simp only [State.release]
  split_ifs
  · cases w with
    | none => exact dealloc_reuses _ slot a
    | some w =>
      simp only [State.releaseTaskMeta]
      split_ifs
      · exact Nat.le_refl _
      · exact dealloc_reuses _ slot a
  · exact Nat.le_refl _

theorem step_reuses {l : Label W} (hst : step s l = some s') (a : ℕ) : s.reuses a ≤ s'.reuses a := by
  cases l with
  | create w stackOk =>
    cases hst
    rw [← acquire_reuses s w]
    simp only [State.create]
    split
    · next s1 slot he =>
      rw [he]
      simp only [State.setUp]
      split_ifs
      · exact Nat.le_refl _
      · exact dealloc_reuses s1 slot a
    · next s1 he =>
      rw [he]
  | finish w id =>
    obtain ⟨-, hst⟩ := Option.ite_none_right_eq_some.mp hst
    cases hst
    exact release_reuses (s.setMeta (slotOf id) { s.getMeta (slotOf id) with state := .finished }) (some w)
      (slotOf id) a
  | join w tid =>
    simp only [step] at hst
    split at hst
    · obtain ⟨-, hst⟩ := Option.ite_none_right_eq_some.mp hst
      cases hst
      exact release_reuses s w _ a
    · cases hst
      exact Nat.le_refl _
  | detach tid =>
    simp only [step] at hst
    split at hst
    · cases hst
      exact release_reuses s none _ a
    · cases hst
      exact Nat.le_refl _
  | drain w =>
    cases hst
    exact deallocs_reuses s _ a

/-! ## Runs -/

/-- A release changes no history. -/
theorem release_history (s : State W) (w : Option W) (slot : ℕ) :
    (s.release w slot).ids = s.ids ∧ (s.release w slot).running = s.running ∧
      (s.release w slot).finished = s.finished ∧ (s.release w slot).released = s.released := by
  simp only [State.release]
  split_ifs
  · cases w with
    | none => exact ⟨rfl, rfl, rfl, rfl⟩
    | some w =>
      simp only [State.releaseTaskMeta]
      split_ifs <;> exact ⟨rfl, rfl, rfl, rfl⟩
  · exact ⟨rfl, rfl, rfl, rfl⟩

/-- A bthread ends. -/
theorem Inv.finish (h : Inv s) {w : W} {id : ℕ} (hid : id ∈ s.running) (hok : ¬ToCache s (.finish w id))
    (hbound : ∀ a, (s.finish w id).reuses a < 2 ^ 32) : Inv (s.finish w id) := by
  obtain ⟨slot, k, hlt, -, rfl⟩ := h.given id (h.running id hid)
  have hslot := slotOf_encodeId hlt ((1 + k) % 2 ^ 32)
  have hfin : s.finish w (encodeId slot ((1 + k) % 2 ^ 32)) =
      { (s.setMeta slot { s.getMeta slot with state := .finished }).release (some w) slot with
        running := s.running.erase (encodeId slot ((1 + k) % 2 ^ 32))
        finished := encodeId slot ((1 + k) % 2 ^ 32) :: s.finished
        released := s.released } := by
    obtain ⟨-, -, -, hrel⟩ := release_history (s.setMeta slot { s.getMeta slot with state := .finished }) (some w) slot
    simp only [State.finish, hslot]
    congr 1
  rw [hfin]
  refine h.release hlt rfl (fun hlast v hv hroom => ?_) ?_ (fun x hx => h.running x (List.mem_of_mem_erase hx))
    (fun x hx => ?_) h.released fun a ha => ?_
  · cases hv
    exact hok (by simp only [ToCache, hslot]; exact ⟨hlast, hroom⟩)
  · have := hbound slot
    rw [hfin] at this
    exact this
  · rcases List.mem_cons.mp hx with rfl | hx
    · exact h.running _ hid
    · exact h.finished x hx
  · by_cases has : a = slot
    · rw [if_pos has]
      simp only [State.drops]
      split_ifs <;> omega
    · have hne : s.id a ≠ encodeId slot ((1 + k) % 2 ^ 32) := fun he => has (encodeId_inj ha hlt he).1
      simp only [State.drops, List.mem_cons, hne, false_or, if_neg has]
      omega

/-- A bthread is joined or detached. -/
theorem Inv.joined (h : Inv s) {w : Option W} {tid : ℕ} (hd : s.decodeId tid = some slot)
    (hroom : (s.getMeta slot).refCount = 1 → ∀ v, w = some v → ¬(s.cache v).length < taskCacheSize)
    (hbound : ∀ a, (s.release w slot).reuses a < 2 ^ 32) : Inv ((s.release w slot).record tid) := by
  obtain ⟨hlt, rfl, m, hm⟩ := decodeId_some h hd
  obtain ⟨hids, hrun, hfin, hrel⟩ := release_history s w slot
  have hself : s.setMeta slot { s.getMeta slot with state := (s.getMeta slot).state } = s := by
    show { s with pool := Function.update s.pool slot (some (s.getMeta slot)) } = s
    rw [getMeta_of_some hm, ← hm, Function.update_eq_self]
  have hrec : (s.release w slot).record (s.id slot) = { s.release w slot with
      running := s.running
      finished := s.finished
      released := if s.id slot ∈ s.ids then s.id slot :: s.released else s.released } := by
    simp only [State.record, hids, hrel]
    congr 1
  rw [hrec]
  refine h.release hlt (x := (s.getMeta slot).state) (by rw [hself]) hroom (hbound slot) h.running h.finished
    (fun x hx => ?_) fun a ha => ?_
  · split_ifs at hx with hid
    · rcases List.mem_cons.mp hx with rfl | hx
      · exact hid
      · exact h.released x hx
    · exact h.released x hx
  · by_cases has : a = slot
    · rw [if_pos has]
      simp only [State.drops]
      split_ifs <;> omega
    · have hne : s.id a ≠ s.id slot := fun he => has (encodeId_inj ha hlt he).1
      have hrel : s.id a ∈ (if s.id slot ∈ s.ids then s.id slot :: s.released else s.released) ↔
        s.id a ∈ s.released := by
        split_ifs <;> simp [hne]
      simp only [State.drops, hrel, if_neg has]
      omega

/-- **What one step preserves.** -/
theorem inv_step {l : Label W} (h : Inv s) (hok : ¬ToCache s l) (hst : step s l = some s')
    (hbound : ∀ a, s'.reuses a < 2 ^ 32) : Inv s' := by
  cases l with
  | create w stackOk =>
    cases hst
    have hacq := h.acquire w
    simp only [State.create] at hbound ⊢
    split
    · next s1 slot he =>
      rw [he] at hacq hbound
      exact hacq.1.setUp (hacq.2 slot rfl) stackOk (hbound slot)
    · next s1 he =>
      rw [he] at hacq
      exact hacq.1
  | finish w id =>
    obtain ⟨hid, hst⟩ := Option.ite_none_right_eq_some.mp hst
    cases hst
    exact h.finish hid hok hbound
  | join w tid =>
    simp only [step] at hst
    split at hst
    · next slot hd =>
      obtain ⟨hfin, hst⟩ := Option.ite_none_right_eq_some.mp hst
      cases hst
      refine h.joined hd (fun hlast v hv hroom => ?_) hbound
      subst hv
      exact hok ⟨slot, hd, hfin, hlast, hroom⟩
    · cases hst
      exact h
  | detach tid =>
    simp only [step] at hst
    split at hst
    · next slot hd =>
      cases hst
      exact h.joined hd (fun _ v hv => by cases hv) hbound
    · cases hst
      exact h
  | drain w =>
    cases hst
    exact h.drain w hbound

omit [DecidableEq W] in
theorem inv_start : Inv (State.start W) where
  once slot _ := by
    refine Once.insert (b := .free) (c := fun _ => 0) (fun _ => rfl)
      (List.nodup_iff_count_le_one.mp List.nodup_range' slot)
      fun i hi => Nat.le_of_eq ?_
    cases i with
    | free => exact absurd rfl hi
    | cache w => rfl
    | used => rfl
  range slot hm := by
    rcases hm with hm | ⟨w, hm⟩
    · have := (List.mem_range'_1.mp hm).2
      omega
    · cases hm
  gens _ := rfl
  metas _ _ hm := by cases hm
  given _ hm := by cases hm
  used _ _ hm := by cases hm
  alive _ _ _ hm := by cases hm
  nodup := List.nodup_nil
  running _ hm := by cases hm
  finished _ hm := by cases hm
  released _ hm := by cases hm

/-- **Ids are unique**, in a run in which no last reference is released on a worker whose cache has room and no slot has
been reused 2^32 times. -/
theorem ids_unique (hs : Reach (system W) (fun s l => ¬ToCache s l) s) (hbound : ∀ slot, s.reuses slot < 2 ^ 32) :
    Unique s := by
  suffices hinv : (∀ slot, s.reuses slot < 2 ^ 32) → Inv s from (hinv hbound).unique
  refine hs.invariant (I := fun s => (∀ slot, s.reuses slot < 2 ^ 32) → Inv s) ?_ fun s t l ih hok hst hb => ?_
  · rintro s rfl _
    exact inv_start
  · exact inv_step (ih fun a => (step_reuses hst a).trans_lt (hb a)) hok hst hb

/-- A bthread is created from a pthread, ends on a worker and is detached; the next one in its slot has a new id. -/
theorem ids_unique_reused : ∃ s : State Unit, s.ids = [2 * 2 ^ 32, 2 ^ 32] ∧ s.decodeId (2 ^ 32) = none ∧ Unique s := by
  refine ⟨_, ?_, ?_, ids_unique (reach_exec (fun _ _ h => h) (.init rfl) (show exec _ _ [.create none true,
    .finish () (2 ^ 32), .detach (2 ^ 32), .create none true] = some _ from rfl) (by decide)) fun slot => ?_⟩
  · decide
  · decide
  · show Function.update (fun _ => 0) 0 1 slot < 2 ^ 32
    by_cases h : slot = 0 <;> simp [h]

/-- **An id given twice**: a bthread that has ended is joined on a worker; its `TaskMeta` goes to the worker's cache,
and the next bthread that the worker creates gets its id. -/
theorem id_given_twice : ∃ s : State Unit, Reachable (system Unit) s ∧ s.ids = [2 ^ 32, 2 ^ 32] ∧
    (2 ^ 32 ∈ s.finished ∧ 2 ^ 32 ∈ s.released) ∧ s.decodeId (2 ^ 32) = some 0 := by
  have hrun : ∀ ls s, exec (system Unit) (.start Unit) ls = some s → Reachable (system Unit) s :=
    fun ls s h => reachable_exec (.init rfl) h
  refine ⟨_, hrun [.create none true, .finish () (2 ^ 32), .join (some ()) (2 ^ 32), .create (some ()) true] _ rfl, ?_⟩
  decide

end Cothread.TaskId
