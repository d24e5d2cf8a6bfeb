import Cothread.Core.TaskBooks
import Cothread.Core.TaskSteps

/-!
# `bthread_create`: a new bthread and the past of its `TaskMeta`

`DeallocTaskMeta` resets `waiter` and deletes the join butex, `bthread_create` sets the other fields, and `is_waiting`
is never left set. But `ReleaseTaskMeta` puts a `TaskMeta` into the cache as it is, and `bthread_create` then overwrites
its `join_butex` with null: `wakeup`, `timed_out` and `timer_id` of the last wait live on, and the butex is lost
(`remembers`, `blank_of_create`). A timer that is still armed when its `TaskMeta` is handed back writes it afterwards.
In runs that do neither, every `bthread_create` enqueues the same `TaskMeta`, and no butex is lost (`forgets`).
-/

namespace Cothread.TaskLife

open Run Places
open TaskId (taskCacheSize)

variable {W : Type*}

/-- The fields that waiting, joining and running read. -/
structure Seen where
  state : TaskState
  refCount : Int
  joinWaiters : Int
  joinButex : Option ℕ
  isWaiting : Bool
  wakeup : Bool
  timedOut : Bool
  timerId : Int
  fn : Option ℕ
  arg : Option ℕ
  result : Option ℕ
  deriving DecidableEq

def TaskMeta.seen (m : TaskMeta) : Seen where
  state := m.waiter.taskState
  refCount := m.refCount
  joinWaiters := m.joinWaiters
  joinButex := m.joinButex
  isWaiting := m.waiter.isWaiting
  wakeup := m.waiter.wakeup
  timedOut := m.waiter.timedOut
  timerId := m.waiter.timerId
  fn := m.fn
  arg := m.arg
  result := m.result

/-- The fields of a new `TaskMeta` that `bthread_create` has set up. -/
def Seen.new (fn : ℕ) (arg : Option ℕ) : Seen where
  state := .ready
  refCount := 2
  joinWaiters := 0
  joinButex := none
  isWaiting := false
  wakeup := false
  timedOut := false
  timerId := 0
  fn := some fn
  arg := arg
  result := none

/-- **No join butex is lost**: it is deleted, or some `TaskMeta` has it. -/
def Kept (s : State W) : Prop := ∀ b < s.butexCount, b ∈ s.deleted ∨ ∃ slot, (s.getMeta slot).joinButex = some b

/-- What `bthread_create`, its bthreads and the workers do. -/
def OfBthreads : Label W → Prop
  | .spawn .. | .taskJoin _ | .taskDetach _ => False
  | _ => True

instance : DecidablePred (OfBthreads (W := W))
  | .spawn .. | .taskJoin _ | .taskDetach _ => .isFalse not_false
  | .create .. | .run _ | .wait .. | .wake .. | .fire .. | .finish .. | .handle .. | .join .. | .joiner .. | .detach _
  | .drain _ => .isTrue trivial

/-- The histories of `bthread_create` and of its bthreads. -/
def bthreads (W : Type*) [DecidableEq W] : System (State W) (Label W) := (system W).restrict OfBthreads

/-- When `ReleaseTaskMeta` keeps the `TaskMeta` in the cache of the worker, it is blank. -/
def State.Wiped (s : State W) (w : W) (slot : ℕ) : Prop :=
  (s.getMeta slot).refCount = 1 → (s.taskCache w).length < taskCacheSize → Blank (s.getMeta slot)

/-- Only blank `TaskMeta`s are put into a cache, timers fire only for a `TaskMeta` that is in use, and a bthread is
joined or detached once. -/
def Clean (s : State W) : Label W → Prop
  | .fire slot _ => slot ∈ s.runs ∨ slot ∈ s.holds
  | .handle w slot => s.Wiped w slot
  | .joiner (some w) c => c.pc = .release → s.Wiped w c.slot
  | .join self tid => ∀ slot ∈ s.decodeId tid, self ≠ some slot → slot ∈ s.joinable
  | .detach tid => ∀ slot ∈ s.decodeId tid, slot ∈ s.joinable
  | _ => True

section Decisions

instance (m : TaskMeta) : Decidable (Blank m) :=
  decidable_of_iff (m.joinButex = none ∧ m.waiter.wakeup = false ∧ m.waiter.timedOut = false ∧ m.waiter.timerId = 0)
    ⟨fun ⟨h, h', h'', h'''⟩ => ⟨h, h', h'', h'''⟩,
      fun h => ⟨h.joinButex, h.wakeup, h.timedOut, h.timerId⟩⟩

instance (s : State W) (w : W) (slot : ℕ) : Decidable (s.Wiped w slot) :=
  inferInstanceAs (Decidable (_ → _ → _))

instance (s : State W) : DecidablePred (Clean s)
  | .fire .. => inferInstanceAs (Decidable (_ ∨ _))
  | .handle w slot => inferInstanceAs (Decidable (s.Wiped w slot))
  | .joiner (some _) _ => inferInstanceAs (Decidable (_ → _))
  | .join self tid => inferInstanceAs (Decidable (∀ slot ∈ s.decodeId tid, self ≠ some slot → slot ∈ s.joinable))
  | .detach tid => inferInstanceAs (Decidable (∀ slot ∈ s.decodeId tid, slot ∈ s.joinable))
  | .create .. | .spawn .. | .run _ | .wait .. | .wake .. | .finish .. | .taskJoin _ | .joiner none _ | .taskDetach _
  | .drain _ => .isTrue trivial

end Decisions

/-! ## Join butexes -/

/-- A join butex that a `TaskMeta` has exists, and no other `TaskMeta` has it. -/
structure Owned (s : State W) : Prop where
  lt : ∀ a b, (s.getMeta a).joinButex = some b → b < s.butexCount
  live : ∀ a b, (s.getMeta a).joinButex = some b → b ∉ s.deleted
  one : ∀ a a' b, (s.getMeta a).joinButex = some b → (s.getMeta a').joinButex = some b → a = a'
  deleted : ∀ b ∈ s.deleted, b < s.butexCount

/-- No `TaskMeta` gets a join butex, and only a `TaskMeta` that has one deletes it. -/
structure Fewer (s t : State W) : Prop where
  count : t.butexCount = s.butexCount
  had : ∀ a b, (t.getMeta a).joinButex = some b → (s.getMeta a).joinButex = some b
  gone : ∀ b ∈ t.deleted, b ∈ s.deleted ∨ ∃ a, (s.getMeta a).joinButex = some b ∧ (t.getMeta a).joinButex = none

/-- The `TaskMeta`s keep their join butexes, or delete them. -/
structure Passes (s t : State W) : Prop extends Fewer s t where
  deleted : ∀ b ∈ s.deleted, b ∈ t.deleted
  keeps : ∀ a b, (s.getMeta a).joinButex = some b → b ∈ t.deleted ∨ (t.getMeta a).joinButex = some b

section Steps

variable {s t u : State W} {slot : ℕ}

theorem Kept.pass (h : Kept s) (hst : Passes s t) : Kept t := by
  intro b hb
  rw [hst.count] at hb
  obtain hdel | ⟨a, ha⟩ := h b hb
  · exact .inl (hst.deleted b hdel)
  · exact (hst.keeps a b ha).imp_right fun ha => ⟨a, ha⟩

theorem Owned.fewer (h : Owned s) (hst : Fewer s t) : Owned t where
  lt _ _ hb := hst.count ▸ h.lt _ _ (hst.had _ _ hb)
  live a _ hb hdel := by
    have hs := hst.had a _ hb
    obtain hdel | ⟨a', ha', hnone⟩ := hst.gone _ hdel
    · exact h.live a _ hs hdel
    · obtain rfl := h.one a a' _ hs ha'
      cases hnone.symm.trans hb
  one a a' b hb hb' := h.one a a' b (hst.had a b hb) (hst.had a' b hb')
  deleted b hb := by
    rw [hst.count]
    obtain hb | ⟨a, ha, -⟩ := hst.gone b hb
    · exact h.deleted b hb
    · exact h.lt a b ha

theorem Fewer.trans (h : Fewer s t) (h' : Fewer t u) : Fewer s u where
  count := h'.count.trans h.count
  had a b hb := h.had a b (h'.had a b hb)
  gone b hb := by
    obtain hb | ⟨a, ha, hnone⟩ := h'.gone b hb
    · obtain hb | ⟨a, ha, hnone⟩ := h.gone b hb
      · exact .inl hb
      · refine .inr ⟨a, ha, Option.eq_none_iff_forall_not_mem.mpr fun c hc => ?_⟩
        cases hnone.symm.trans (h'.had a c hc)
    · exact .inr ⟨a, h.had a b ha, hnone⟩

theorem Passes.trans (h : Passes s t) (h' : Passes t u) : Passes s u where
  toFewer := h.toFewer.trans h'.toFewer
  deleted b hb := h'.deleted b (h.deleted b hb)
  keeps a b ha := by
    obtain hdel | ha := h.keeps a b ha
    · exact .inl (h'.deleted b hdel)
    · exact h'.keeps a b ha

/-- No `TaskMeta` changes its join butex. -/
theorem Passes.same (hcount : t.butexCount = s.butexCount) (hdel : t.deleted = s.deleted)
    (hmeta : ∀ a, (t.getMeta a).joinButex = (s.getMeta a).joinButex) : Passes s t where
  count := hcount
  deleted _ hb := hdel ▸ hb
  keeps a _ ha := .inr ((hmeta a).trans ha)
  had a _ hb := (hmeta a).symm.trans hb
  gone _ hb := .inl (hdel ▸ hb)

theorem passes_setMeta {m : TaskMeta} (hm : m.joinButex = (s.getMeta slot).joinButex) :
    Passes s (s.setMeta slot m) :=
  .same rfl rfl (forall_getMeta (P := fun a m => m.joinButex = (s.getMeta a).joinButex) hm fun _ _ => rfl)

theorem passes_dealloc (s : State W) (slot : ℕ) : Passes s (s.deallocTaskMeta slot) where
  count := rfl
  deleted _ hb := List.mem_append_right _ hb
  keeps a b hb := by
    by_cases ha : a = slot
    · subst ha
      exact .inl (List.mem_append_left _ (Option.mem_toList.mpr hb))
    · rw [getMeta_dealloc_of_ne ha]
      exact .inr hb
  had a b hb := by
    by_cases ha : a = slot
    · subst ha
      rw [getMeta_dealloc_self] at hb
      cases hb
    · rwa [getMeta_dealloc_of_ne ha] at hb
  gone b hb := by
    obtain hb | hb := List.mem_append.mp hb
    · exact .inr ⟨slot, Option.mem_toList.mp hb, by rw [getMeta_dealloc_self]; rfl⟩
    · exact .inl hb

variable [DecidableEq W]

theorem respects_passes : Respects (Passes (W := W)) where
  refl _ := .same rfl rfl fun _ => rfl
  trans := .trans
  writes _ _ _ _ _ _ := passes_setMeta rfl
  lists _ _ _ _ _ _ := .same rfl rfl fun _ => rfl
  cache _ _ _ := .same rfl rfl fun _ => rfl
  dealloc := passes_dealloc

theorem passes_taken (h : Taken s slot t) : Passes s t := by
  have hmeta : ∀ a, (t.getMeta a).joinButex = (s.getMeta a).joinButex := by
    intro a
    obtain ⟨g, ha⟩ := h.getMeta a
    rw [ha]
  refine .same ?_ ?_ hmeta <;> cases h <;> rfl

theorem passes_drain (s : State W) (w : W) : Passes s ((s.drainStackPool w).drainTaskCache w) := by
  have hpool : Passes s (s.drainStackPool w) := .same rfl rfl fun _ => rfl
  exact hpool.trans (respects_passes.drainTaskCache _ w)

/-- A join butex is made, or one that another joiner has made is found. -/
inductive Makes (s : State W) (slot : ℕ) : State W → Prop
  | new {calls : List Call} (hnone : (s.getMeta slot).joinButex = none) :
    Makes s slot { s.setMeta slot { s.getMeta slot with joinButex := some s.butexCount } with
      butexCount := s.butexCount + 1, calls := calls }
  | found {calls : List Call} :
    Makes s slot { s with butexCount := s.butexCount + 1, deleted := s.butexCount :: s.deleted, calls := calls }

/-- The exchange of the join butex. -/
theorem makes_createButex (s : State W) (w : Option W) {c : Call} (hc : c.pc = .createButex) :
    Makes s c.slot (s.access w c) := by
  obtain ⟨kind, slot, pc⟩ := c
  cases hc
  simp only [State.access]
  split_ifs with hnone
  · exact .new (Option.isNone_iff_eq_none.mp hnone)
  · exact .found

omit [DecidableEq W] in
theorem Kept.make (h : Kept s) (hst : Makes s slot t) : Kept t := by
  intro b hb
  have hlt : b = s.butexCount ∨ b < s.butexCount := by
    have hlt : b < s.butexCount + 1 := by cases hst <;> exact hb
    omega
  cases hst with
  | new hnone =>
    obtain rfl | hlt := hlt
    · exact .inr ⟨slot, congrArg TaskMeta.joinButex (getMeta_setMeta_self s _)⟩
    · refine (h b hlt).imp_right fun ⟨a, ha⟩ => ⟨a, ?_⟩
      have hne : a ≠ slot := by
        rintro rfl
        rw [hnone] at ha
        cases ha
      exact (congrArg TaskMeta.joinButex (getMeta_setMeta_of_ne s _ hne)).trans ha
  | found =>
    obtain rfl | hlt := hlt
    · exact .inl List.mem_cons_self
    · exact (h b hlt).imp_left (List.mem_cons_of_mem _)

omit [DecidableEq W] in
theorem Owned.make (h : Owned s) (hst : Makes s slot t) : Owned t := by
  cases hst with
  | new hnone =>
    -- the new butex is the slot's, and the others are where they were
    have hcases : ∀ a b, ((s.setMeta slot { s.getMeta slot with joinButex := some s.butexCount }).getMeta a).joinButex =
        some b → a = slot ∧ b = s.butexCount ∨ (s.getMeta a).joinButex = some b :=
      forall_getMeta
        (P := fun a m => ∀ b, m.joinButex = some b → a = slot ∧ b = s.butexCount ∨ (s.getMeta a).joinButex = some b)
        (fun b hb => .inl ⟨rfl, (Option.some.inj hb).symm⟩) fun _ _ _ hb => .inr hb
    constructor
    case lt =>
      intro a b hb
      obtain ⟨-, rfl⟩ | hb := hcases a b hb
      · exact Nat.lt_succ_self _
      · exact Nat.lt_succ_of_lt (h.lt a b hb)
    case live =>
      intro a b hb hdel
      obtain ⟨-, rfl⟩ | hb := hcases a b hb
      · exact Nat.lt_irrefl _ (h.deleted _ hdel)
      · exact h.live a b hb hdel
    case one =>
      intro a a' b hb hb'
      obtain ⟨ha, heq⟩ | hb := hcases a b hb <;> obtain ⟨ha', heq'⟩ | hb' := hcases a' b hb'
      · exact ha.trans ha'.symm
      · exact absurd (h.lt a' b hb') (heq ▸ Nat.lt_irrefl _)
      · exact absurd (h.lt a b hb) (heq' ▸ Nat.lt_irrefl _)
      · exact h.one a a' b hb hb'
    case deleted => exact fun b hb => Nat.lt_succ_of_lt (h.deleted b hb)
  | found =>
    constructor
    case lt => exact fun a b hb => Nat.lt_succ_of_lt (h.lt a b hb)
    case live =>
      intro a b hb hdel
      obtain rfl | hdel := List.mem_cons.mp hdel
      · exact Nat.lt_irrefl _ (h.lt a _ hb)
      · exact h.live a b hb hdel
    case one => exact h.one
    case deleted =>
      intro b hb
      obtain rfl | hb := List.mem_cons.mp hb
      · exact Nat.lt_succ_self _
      · exact Nat.lt_succ_of_lt (h.deleted b hb)

/-! ## The creation of a bthread -/

section Begin

omit [DecidableEq W]

theorem getMeta_begin_self (s : State W) (slot size fn : ℕ) (arg : Option ℕ) :
    (s.begin slot size fn arg).getMeta slot = { s.getMeta slot with
      fn := some fn, arg := arg, result := none, refCount := 2, joinWaiters := 0, joinButex := none
      waiter := { (s.getMeta slot).waiter with taskState := .ready } } := getMeta_setMeta_self s _

theorem getMeta_begin_of_ne {a : ℕ} (ha : a ≠ slot) (size fn : ℕ) (arg : Option ℕ) :
    (s.begin slot size fn arg).getMeta a = s.getMeta a := getMeta_setMeta_of_ne s _ ha

/-- The `TaskMeta` that is enqueued. -/
theorem begin_seen {place : ℕ → Place W} (h : Books s place) (hp : place slot = .hand) (hblank : Blank (s.getMeta slot))
    (size fn : ℕ) (arg : Option ℕ) : ((s.begin slot size fn arg).getMeta slot).seen = .new fn arg := by
  have hwaiting := (h.calm slot).not_waiting (h.settled slot (by rw [hp]; nofun))
  rw [getMeta_begin_self]
  simp only [TaskMeta.seen, Seen.new, hwaiting, hblank.wakeup, hblank.timedOut, hblank.timerId]

/-- The join butex of the `TaskMeta` is forgotten. -/
theorem fewer_begin (s : State W) (slot size fn : ℕ) (arg : Option ℕ) : Fewer s (s.begin slot size fn arg) where
  count := rfl
  had a b hb := by
    by_cases ha : a = slot
    · rw [ha, getMeta_begin_self] at hb
      cases hb
    · rwa [getMeta_begin_of_ne ha] at hb
  gone _ hb := .inl hb

theorem passes_begin (hbutex : (s.getMeta slot).joinButex = none) (size fn : ℕ) (arg : Option ℕ) :
    Passes s (s.begin slot size fn arg) where
  toFewer := fewer_begin s slot size fn arg
  deleted _ hb := hb
  keeps a b ha := by
    have hne : a ≠ slot := by
      rintro rfl
      cases hbutex.symm.trans ha
    rw [getMeta_begin_of_ne hne]
    exact .inr ha

/-- What is left of the past, if nothing can be seen of it. -/
theorem blank_of_begin (h : Owned s) {size fn : ℕ} {arg : Option ℕ}
    (hseen : ((s.begin slot size fn arg).getMeta slot).seen = .new fn arg) (hkept : Kept (s.begin slot size fn arg)) :
    Blank (s.getMeta slot) := by
  rw [getMeta_begin_self] at hseen
  refine ⟨?_, congrArg Seen.wakeup hseen, congrArg Seen.timedOut hseen, congrArg Seen.timerId hseen⟩
  refine Option.eq_none_iff_forall_not_mem.mpr fun b hb => ?_
  -- the butex would be nobody's
  obtain hdel | ⟨a, ha⟩ := hkept b (h.lt slot b hb)
  · exact h.live slot b hb hdel
  · have heq := h.one a slot b ((fewer_begin s slot size fn arg).had a b ha) hb
    rw [heq, getMeta_begin_self] at ha
    cases ha

end Begin

/-- The `TaskMeta` is taken, and gets a stack if it has none. -/
theorem Created.begins {w : Option W} {size fn : ℕ} {arg : Option ℕ} {r : State W × Except Error ℕ}
    (hc : Created s w size fn arg r) (hr : r.2 = .ok slot) :
    ∃ u, Passes s u ∧ r.1 = u.begin slot size fn arg ∧ (Blank (u.getMeta slot) → Blank (s.getMeta slot)) := by
  have hblank : ∀ {m m' : TaskMeta}, m'.joinButex = m.joinButex → m'.waiter = m.waiter → Blank m' → Blank m := by
    intro m m' hbutex hwaiter h
    exact ⟨hbutex ▸ h.joinButex, hwaiter ▸ h.wakeup, hwaiter ▸ h.timedOut, hwaiter ▸ h.timerId⟩
  cases hc with
  | refused _ => cases hr
  | own _ htaken _ =>
    cases hr
    obtain ⟨g, hmeta⟩ := htaken.getMeta slot
    exact ⟨_, passes_taken htaken, rfl, hblank (by rw [hmeta]) (by rw [hmeta])⟩
  | @new t u _ st _ htaken _ hgot =>
    cases hr
    obtain ⟨g, hmeta⟩ := htaken.getMeta slot
    have hu : Passes t u ∧ u.getMeta = t.getMeta := by
      cases hgot <;> exact ⟨.same rfl rfl fun _ => rfl, rfl⟩
    have hset : Passes u (u.setMeta slot { t.getMeta slot with stack := some st, stackSize := size }) :=
      passes_setMeta (by rw [hu.2])
    refine ⟨_, (passes_taken htaken).trans (hu.1.trans hset), rfl, hblank ?_ ?_⟩ <;>
      rw [getMeta_setMeta_self, hmeta]
  | failed _ _ _ => cases hr

theorem fewer_create (s : State W) (w : Option W) (attr : Option ℕ) (fn : ℕ) (arg : Option ℕ) (ok : Bool) :
    Fewer s (s.create w attr (some fn) arg ok).1 := by
  have hc := create_cases s w attr fn arg ok
  cases hr : (s.create w attr (some fn) arg ok).2 with
  | ok slot =>
    obtain ⟨u, hpasses, heq, -⟩ := hc.begins hr
    rw [heq]
    exact hpasses.toFewer.trans (fewer_begin u slot _ fn arg)
  | error e =>
    generalize s.create w attr (some fn) arg ok = r at hc hr
    cases hc with
    | refused _ => exact (Passes.same rfl rfl fun _ => rfl).toFewer
    | own _ _ _ => cases hr
    | new _ _ _ _ => cases hr
    | failed _ htaken _ => exact ((passes_taken htaken).trans (passes_dealloc _ _)).toFewer

/-- **What is enqueued is as good as new, and no join butex is lost, only if the `TaskMeta` was blank.** -/
theorem blank_of_create (h : Owned s) {w : Option W} {attr arg : Option ℕ} {fn : ℕ} {ok : Bool}
    (ht : s.create w attr (some fn) arg ok = (t, .ok slot)) (hseen : (t.getMeta slot).seen = .new fn arg)
    (hkept : Kept t) : Blank (s.getMeta slot) := by
  have hc := create_cases s w attr fn arg ok
  rw [ht] at hc
  obtain ⟨u, hpasses, rfl, hblank⟩ := hc.begins rfl
  exact hblank (blank_of_begin (h.fewer hpasses.toFewer) hseen hkept)

/-- **`bthread_create`** takes a blank `TaskMeta`, so that the one it enqueues is as good as new. -/
theorem Books.create {place : ℕ → Place W} (h : Books s place) {w : Option W} {size fn : ℕ} {arg : Option ℕ}
    {r : State W × Except Error ℕ} (hc : Created s w size fn arg r) :
    (∃ place', Books r.1 place') ∧ Passes s r.1 ∧ ∀ slot, r.2 = .ok slot → (r.1.getMeta slot).seen = .new fn arg := by
  cases hc with
  | refused _ => exact ⟨⟨place, h⟩, .same rfl rfl fun _ => rfl, nofun⟩
  | own _ htaken _ =>
    obtain ⟨place', h', hp, hblank⟩ := h.taken htaken
    refine ⟨⟨_, h'.begin hp _ fn arg⟩, (passes_taken htaken).trans (passes_begin hblank.joinButex _ fn arg), ?_⟩
    rintro slot ⟨⟩
    exact begin_seen h' hp hblank _ fn arg
  | @new t u slot st _ htaken _ hgot =>
    obtain ⟨place', h', hp, hblank⟩ := h.taken htaken
    -- the stack comes from elsewhere
    have hu : Books u place' ∧ Passes t u ∧ u.getMeta slot = t.getMeta slot := by
      cases hgot <;> exact ⟨h'.congr rfl rfl .rfl .rfl rfl fun _ hin hout => absurd hin hout,
        .same rfl rfl fun _ => rfl, rfl⟩
    obtain ⟨hbooks, hpasses, hmeta⟩ := hu
    let m := { t.getMeta slot with stack := some st, stackSize := size }
    have hset := hbooks.setHand hp (m := m) (by rw [hmeta])
    have hblank' : Blank ((u.setMeta slot m).getMeta slot) := by
      rw [getMeta_setMeta_self]
      exact ⟨hblank.joinButex, hblank.wakeup, hblank.timedOut, hblank.timerId⟩
    refine ⟨⟨_, hset.begin hp _ fn arg⟩, ?_, ?_⟩
    · refine (passes_taken htaken).trans (hpasses.trans (.trans (passes_setMeta ?_)
        (passes_begin hblank'.joinButex _ fn arg)))
      rw [hmeta]
    · rintro slot' ⟨⟩
      exact begin_seen hset hp hblank' _ fn arg
  | failed _ htaken _ =>
    obtain ⟨place', h', hp, -⟩ := h.taken htaken
    exact ⟨⟨_, h'.dealloc hp⟩, (passes_taken htaken).trans (passes_dealloc _ _), nofun⟩

/-! ## The steps -/

/-- The slot goes back to a cache or to the task group. -/
theorem Books.releaseTaskMeta {place : ℕ → Place W} (h : Books s place) (hp : place slot = .hand) (w : Option W)
    (hblank : ∀ v ∈ w, (s.taskCache v).length < taskCacheSize → Blank (s.getMeta slot)) :
    ∃ place', Books (State.releaseTaskMeta w s slot) place' := by
  cases w with
  | none => exact ⟨_, h.dealloc hp⟩
  | some w =>
    simp only [State.releaseTaskMeta]
    split_ifs with hroom
    · exact ⟨_, h.cached hp (hblank w rfl hroom) w⟩
    · exact ⟨_, h.dealloc hp⟩

/-- The last reference is released on a worker, or in a pthread. -/
theorem Books.releases {place : ℕ → Place W} (h : Books s place) (hl : Leaves s t slot) (w : Option W)
    (hwiped : ∀ v ∈ w, s.Wiped v slot) : ∃ place', Books (t.release slot (State.releaseTaskMeta w)) place' := by
  refine h.release hl fun hlast u place' hu hp hmeta hcache => hu.releaseTaskMeta hp w fun v hv hroom => ?_
  have hblank := hwiped v hv hlast (hcache ▸ hroom)
  rw [hmeta]
  exact ⟨hblank.joinButex, hblank.wakeup, hblank.timedOut, hblank.timerId⟩

omit [DecidableEq W] in
/-- The next access of a join comes. -/
theorem Books.goto {place : ℕ → Place W} (h : Books s place) {c : Call} (hc : c ∈ s.calls) (pc : JoinPc) (n : ℕ)
    (deleted : List ℕ) :
    Books { s with calls := { c with pc := pc } :: s.calls.erase c, butexCount := n, deleted := deleted } place := by
  refine h.congr rfl rfl .rfl ?_ rfl fun _ hin hout => absurd hin hout
  exact (((List.perm_cons_erase hc).map Call.slot).symm).append_left s.joinable

/-- One access of a join. -/
theorem Books.access {place : ℕ → Place W} (h : Books s place) (w : Option W) {c : Call} (hc : c ∈ s.calls)
    (hwiped : c.pc = .release → ∀ v ∈ w, s.Wiped v c.slot) : ∃ place', Books (s.access w c) place' := by
  obtain ⟨kind, slot, pc⟩ := c
  have hused : place slot = .used := h.holds.2 slot (List.mem_append_right _ (List.mem_map_of_mem hc))
  have hset : ∀ m : TaskMeta, m.waiter = (s.getMeta slot).waiter → m.refCount = (s.getMeta slot).refCount →
      Books (s.setMeta slot m) place := fun m hm href =>
    h.setUsed hused (hm ▸ h.calm slot) href fun hout => hm ▸ h.finished slot hused hout
  cases pc with
  | checkButex => exact ⟨place, h.goto hc _ s.butexCount s.deleted⟩
  | createButex =>
    simp only [State.access]
    split_ifs
    · exact ⟨place, (hset { s.getMeta slot with joinButex := some s.butexCount } rfl rfl).goto hc _ _ s.deleted⟩
    · exact ⟨place, h.goto hc _ _ _⟩
  | testState => exact ⟨place, h.goto hc _ s.butexCount s.deleted⟩
  | register =>
    have hreg := hset { s.getMeta slot with joinWaiters := (s.getMeta slot).joinWaiters + 1 } rfl rfl
    exact ⟨place, hreg.goto hc _ s.butexCount s.deleted⟩
  | leave =>
    have hleave := hset { s.getMeta slot with joinWaiters := (s.getMeta slot).joinWaiters - 1 } rfl rfl
    exact ⟨place, hleave.goto hc _ s.butexCount s.deleted⟩
  | release =>
    have hl : Leaves s { s with calls := s.calls.erase ⟨kind, slot, .release⟩ } slot := by
      refine ⟨rfl, rfl, rfl, rfl, .inr ⟨rfl, ?_⟩⟩
      exact (((List.perm_cons_erase hc).map Call.slot).append_left s.joinable).trans List.perm_middle
    cases kind with
    | bthreadJoin => exact h.releases hl w (hwiped rfl)
    | taskJoin => exact h.release hl fun _ u place' hu hp _ _ => ⟨_, hu.dealloc hp⟩

/-- **What one step preserves.** -/
theorem books_step {place : ℕ → Place W} (h : Books s place) {l : Label W} (hl : OfBthreads l) (hok : Clean s l)
    (hst : step s l = some t) : ∃ place', Books t place' := by
  have hlive : ∀ {slot}, slot ∈ s.alive → place slot = .used := fun ha => h.runs.2 _ (List.mem_append_left _ ha)
  have hrunning : ∀ {slot}, (s.getMeta slot).waiter.taskState = .running →
      (s.getMeta slot).waiter.taskState ≠ .suspended := by
    intro slot hr
    rw [hr]
    nofun
  cases l with
  | spawn | taskJoin | taskDetach => exact hl.elim
  | create w attr fn arg ok =>
    cases hst
    cases fn with
    | none => exact ⟨place, h⟩
    | some fn => exact (h.create (create_cases s w attr fn arg ok)).1
  | run slot =>
    obtain ⟨⟨hin, hready⟩, hst⟩ := Option.ite_none_right_eq_some.mp hst
    cases hst
    exact ⟨place, h.setUsed (hlive hin) ((h.calm slot).run hready) rfl fun hout => absurd hin hout⟩
  | wait slot b timeout change =>
    obtain ⟨⟨hin, -⟩, hst⟩ := Option.ite_none_right_eq_some.mp hst
    cases hst
    have hcalm : Calm { (s.getMeta slot).waiter with waits := (s.getMeta slot).waiter.waits + 1 } :=
      ⟨(h.calm slot).waiting, (h.calm slot).queued⟩
    exact ⟨place, h.setUsed (hlive hin) (hcalm.wait b timeout change) rfl fun hout => absurd hin hout⟩
  | wake slot b =>
    obtain ⟨hqueued, hst⟩ := Option.ite_none_right_eq_some.mp hst
    cases hst
    have hcalm := h.calm slot
    have hs := (hcalm.waiting (hcalm.queued (by rw [hqueued]; rfl))).1
    have hused : place slot = .used := by
      by_contra hp
      exact h.settled slot hp hs
    refine ⟨place, h.setUsed hused (calm_wake _) rfl fun hout => ?_⟩
    cases hs.symm.trans (h.finished slot hused hout)
  | fire slot e =>
    obtain ⟨-, hst⟩ := Option.ite_none_right_eq_some.mp hst
    cases hst
    have hused : place slot = .used := hok.elim (h.runs.2 slot) (h.holds.2 slot)
    exact ⟨place, h.setUsed hused ((h.calm slot).fire e) rfl fun hout => fire_finished (h.finished slot hused hout) e⟩
  | finish slot result =>
    obtain ⟨⟨hin, hr⟩, hst⟩ := Option.ite_none_right_eq_some.mp hst
    cases hst
    have hcalm := (h.calm slot).setState (hrunning hr) .finished
    have hset := h.setUsed (m := { s.getMeta slot with
      result := result, waiter := { (s.getMeta slot).waiter with taskState := .finished } }) (hlive hin) hcalm rfl
      fun hout => absurd hin hout
    refine ⟨place, hset.congr rfl rfl ?_ .rfl rfl fun a ha hout => ?_⟩
    · exact List.perm_middle.trans ((List.perm_cons_erase hin).symm.append_right s.ended)
    · by_cases heq : a = slot
      · rw [heq, getMeta_setMeta_self]
      · exact absurd ((List.mem_erase_of_ne heq).mpr ha) hout
  | handle w slot =>
    obtain ⟨hin, hst⟩ := Option.ite_none_right_eq_some.mp hst
    cases hst
    have hleaves : Leaves s { s with ended := s.ended.erase slot } slot := by
      refine ⟨rfl, rfl, rfl, rfl, .inl ⟨?_, rfl⟩⟩
      exact ((List.perm_cons_erase hin).append_left s.alive).trans List.perm_middle
    exact h.releases hleaves (some w) fun v hv => by
      cases hv
      exact hok
  | join self tid =>
    simp only [step] at hst
    split at hst
    · cases hst
      exact ⟨place, h⟩
    · next slot hdecode =>
      split_ifs at hst with hself
      · cases hst
        exact ⟨place, h⟩
      · cases hst
        have hin := hok slot hdecode hself
        refine ⟨place, h.congr rfl rfl .rfl ?_ rfl fun _ ha hout => absurd ha hout⟩
        exact List.perm_middle.trans ((List.perm_cons_erase hin).symm.append_right _)
  | joiner w c =>
    obtain ⟨hc, hst⟩ := Option.ite_none_right_eq_some.mp hst
    cases hst
    exact h.access w hc fun hpc v hv => by
      cases hv
      exact hok hpc
  | detach tid =>
    simp only [step] at hst
    split at hst
    · cases hst
      exact ⟨place, h⟩
    · next slot hdecode =>
      cases hst
      have hin := hok slot hdecode
      have hleaves : Leaves s { s with joinable := s.joinable.erase slot } slot := by
        refine ⟨rfl, rfl, rfl, rfl, .inr ⟨rfl, ?_⟩⟩
        exact (List.perm_cons_erase hin).append_right _
      exact h.release hleaves fun _ u place' hu hp _ _ => ⟨_, hu.dealloc hp⟩
  | drain w =>
    cases hst
    exact h.drain w

/-- What becomes of the join butexes. -/
theorem step_butex {l : Label W} (hl : OfBthreads l) (hst : step s l = some t) :
    (∃ w attr fn arg ok, t = (s.create w attr (some fn) arg ok).1) ∨
      Passes s t ∨ ∃ slot, Makes s slot t := by
  cases l with
  | spawn | taskJoin | taskDetach => exact hl.elim
  | create w attr fn arg ok =>
    cases hst
    cases fn with
    | none => exact .inr (.inl (.same rfl rfl fun _ => rfl))
    | some fn => exact .inl ⟨w, attr, fn, arg, ok, rfl⟩
  | joiner w c =>
    by_cases hc : c.pc = .createButex
    · obtain ⟨-, hst⟩ := Option.ite_none_right_eq_some.mp hst
      cases hst
      exact .inr (.inr ⟨_, makes_createButex s w hc⟩)
    · exact .inr (.inl (respects_passes.step hst hc))
  | drain w =>
    cases hst
    exact .inr (.inl (passes_drain s w))
  | _ => exact .inr (.inl (respects_passes.step hst trivial))

theorem kept_step {place : ℕ → Place W} (hb : Books s place) (h : Kept s) {l : Label W} (hl : OfBthreads l)
    (hst : step s l = some t) : Kept t := by
  obtain ⟨w, attr, fn, arg, ok, rfl⟩ | hpasses | ⟨slot, hmakes⟩ := step_butex hl hst
  · exact h.pass (hb.create (create_cases s w attr fn arg ok)).2.1
  · exact h.pass hpasses
  · exact h.make hmakes

theorem owned_step (h : Owned s) {l : Label W} (hl : OfBthreads l) (hst : step s l = some t) : Owned t := by
  obtain ⟨w, attr, fn, arg, ok, rfl⟩ | hpasses | ⟨slot, hmakes⟩ := step_butex hl hst
  · exact h.fewer (fewer_create s w attr fn arg ok)
  · exact h.fewer hpasses.toFewer
  · exact h.make hmakes

end Steps

/-! ## Every run -/

theorem books_start : Books (State.start W) fun _ => .free where
  free := ⟨List.nodup_range', fun _ _ => rfl⟩
  cache _ := shelf_nil
  runs := shelf_nil
  holds := shelf_nil
  blank _ _ _ := ⟨rfl, rfl, rfl, rfl⟩
  settled _ _ := nofun
  calm _ := calm_quiet rfl rfl
  refs _ := nofun
  finished _ := nofun

theorem reach_owned [DecidableEq W] {s : State W} (hs : Reachable (bthreads W) s) : Owned s := by
  refine hs.of_restrict.invariant (I := Owned) ?_ ?_
  · rintro s rfl
    exact ⟨nofun, nofun, nofun, nofun⟩
  · intro s t l h hok hst
    exact owned_step h hok.1 hst

theorem reach_books [DecidableEq W] {s : State W} (hs : Reach (bthreads W) Clean s) :
    (∃ place, Books s place) ∧ Kept s := by
  refine hs.of_restrict.invariant (I := fun s => (∃ place, Books s place) ∧ Kept s) ?_ ?_
  · rintro s rfl
    exact ⟨⟨_, books_start⟩, fun b hb => absurd hb (Nat.not_lt_zero b)⟩
  · rintro s t l ⟨⟨place, hb⟩, hk⟩ ⟨hl, hok⟩ hst
    exact ⟨books_step hb hl hok hst, kept_step hb hk hl hst⟩

/-- **A new bthread has no past**: after any two histories that put only blank `TaskMeta`s into caches, in which timers
fire only for `TaskMeta`s in use and bthreads are joined or detached once, the same call of `bthread_create` enqueues
`TaskMeta`s that agree, and it loses no join butex. -/
theorem forgets [DecidableEq W] {s₁ s₂ t₁ t₂ : State W} {w₁ w₂ : Option W} {attr fn arg : Option ℕ} {ok₁ ok₂ : Bool}
    {slot₁ slot₂ : ℕ} (hs₁ : Reach (bthreads W) Clean s₁) (hs₂ : Reach (bthreads W) Clean s₂)
    (ht₁ : s₁.create w₁ attr fn arg ok₁ = (t₁, .ok slot₁)) (ht₂ : s₂.create w₂ attr fn arg ok₂ = (t₂, .ok slot₂)) :
    (t₁.getMeta slot₁).seen = (t₂.getMeta slot₂).seen ∧ Kept t₁ ∧ Kept t₂ := by
  cases fn with
  | none => cases ht₁
  | some fn =>
    obtain ⟨⟨_, hb₁⟩, hk₁⟩ := reach_books hs₁
    obtain ⟨⟨_, hb₂⟩, hk₂⟩ := reach_books hs₂
    obtain ⟨-, hpasses₁, hseen₁⟩ := hb₁.create (create_cases s₁ w₁ attr fn arg ok₁)
    obtain ⟨-, hpasses₂, hseen₂⟩ := hb₂.create (create_cases s₂ w₂ attr fn arg ok₂)
    rw [ht₁] at hpasses₁ hseen₁
    rw [ht₂] at hpasses₂ hseen₂
    exact ⟨(hseen₁ slot₁ rfl).trans (hseen₂ slot₂ rfl).symm, hk₁.pass hpasses₁, hk₂.pass hpasses₂⟩

/-- A worker creates a bthread, which waits, is woken and ends, and is detached before its end is handled. -/
def wokenRun : List (Label Unit) :=
  [ .create (some ()) none (some 7) none true, .run 3, .wait 3 5 none none, .wake 3 5, .run 3, .finish 3 none,
    .detach (TaskId.encodeId 3 1), .handle () 3 ]

theorem forgets_woken : ∃ s t u : State Unit,
    (State.start Unit).create (some ()) none (some 9) (some 8) true = (t, .ok 3) ∧
    s.create (some ()) none (some 9) (some 8) true = (u, .ok 3) ∧ s.taskCache () = [3, 2, 1, 0] ∧
    (t.getMeta 3).seen = (u.getMeta 3).seen ∧ Kept t ∧ Kept u := by
  have hrun : (exec (bthreads Unit) (.start Unit) wokenRun).any (fun s => decide
      ((s.create (some ()) none (some 9) (some 8) true).2 = .ok 3 ∧ s.taskCache () = [3, 2, 1, 0])) = true := by
    decide +kernel
  have hok : execOk (bthreads Unit) Clean (.start Unit) wokenRun = true := by decide +kernel
  have hnew : ((State.start Unit).create (some ()) none (some 9) (some 8) true).2 = .ok 3 := by decide +kernel
  obtain ⟨s, hs, hslot, hcache⟩ := of_exec_any hrun
  refine ⟨s, _, _, Prod.ext rfl hnew, Prod.ext rfl hslot, hcache, ?_⟩
  exact forgets (.init rfl) (reach_exec (fun _ _ h => h) (.init rfl) hs hok) (Prod.ext rfl hnew) (Prod.ext rfl hslot)

/-- The wait of the bthread times out. -/
def timedRun : List (Label Unit) :=
  [ .create (some ()) none (some 7) none true, .run 3, .wait 3 5 (some 1) none, .fire 3 ⟨1, 1, false⟩, .run 3,
    .finish 3 none, .detach (TaskId.encodeId 3 1), .handle () 3 ]

/-- The bthread is joined on a worker. -/
def joinedRun : List (Label Unit) := List.flatten
  [ [.create (some ()) none (some 7) none true, .run 3, .join none (TaskId.encodeId 3 1),
      .joiner none ⟨.bthreadJoin, 3, .checkButex⟩, .joiner none ⟨.bthreadJoin, 3, .createButex⟩, .finish 3 none,
      .handle () 3],
    [.testState, .release].map fun pc => .joiner (some ()) ⟨.bthreadJoin, 3, pc⟩ ]

/-- **The past shows**: after a wait that timed out the new `TaskMeta` starts with `timed_out` set, and after a join its
join butex is lost. -/
theorem remembers :
    (∃ s t u : State Unit, Reachable (bthreads Unit) s ∧
      (State.start Unit).create (some ()) none (some 9) none true = (t, .ok 3) ∧
      s.create (some ()) none (some 9) none true = (u, .ok 3) ∧
      (t.getMeta 3).waiter.timedOut = false ∧ (u.getMeta 3).waiter.timedOut = true) ∧
    ∃ s t : State Unit, Reachable (bthreads Unit) s ∧ s.create (some ()) none (some 9) none true = (t, .ok 3) ∧
      ¬ Kept t := by
  constructor
  · have hrun : (exec (bthreads Unit) (.start Unit) timedRun).any (fun s => decide
        ((s.create (some ()) none (some 9) none true).2 = .ok 3 ∧
          ((s.create (some ()) none (some 9) none true).1.getMeta 3).waiter.timedOut = true)) = true := by
      decide +kernel
    have hnew : ((State.start Unit).create (some ()) none (some 9) none true).2 = .ok 3 ∧
        (((State.start Unit).create (some ()) none (some 9) none true).1.getMeta 3).waiter.timedOut = false := by
      decide +kernel
    obtain ⟨s, hs, hslot, htimed⟩ := of_exec_any hrun
    exact ⟨s, _, _, reachable_exec (.init rfl) hs, Prod.ext rfl hnew.1, Prod.ext rfl hslot, hnew.2, htimed⟩
  · have hrun : (exec (bthreads Unit) (.start Unit) joinedRun).any (fun s => decide
        ((s.create (some ()) none (some 9) none true).2 = .ok 3 ∧ ¬ Blank (s.getMeta 3) ∧
          ((s.create (some ()) none (some 9) none true).1.getMeta 3).seen = .new 9 none)) = true := by
      decide +kernel
    obtain ⟨s, hs, hslot, hblank, hseen⟩ := of_exec_any hrun
    have hreach : Reachable (bthreads Unit) s := reachable_exec (.init rfl) hs
    have ht : s.create (some ()) none (some 9) none true = (_, .ok 3) := Prod.ext rfl hslot
    exact ⟨s, _, hreach, ht, fun hkept => hblank (blank_of_create (reach_owned hreach) ht hseen hkept)⟩

end Cothread.TaskLife
