import Cothread.Core.TaskTaken
import Cothread.Lib.Shelf

/-!
# `TaskMeta`: where it is, and what it remembers

A slot is free, in the cache of a worker, used by a bthread, or in the hands of the call that has just taken it or is
about to hand it back (`Place`). `Books` says that a slot lies in the lists of its place only, that the reference count
of a used one counts its unfinished bthread and its joiner, and that a free or cached `TaskMeta` is blank: no wait and
no join has left anything in it. It is kept by taking a slot (`Books.taken`), enqueuing its bthread (`Books.begin`),
releasing a reference (`Books.drop`, `Books.hand`) and handing the slot back (`Books.dealloc`, `Books.cached`).
-/

namespace Cothread.TaskLife

open Places

variable {W : Type*}

/-- Where a slot is. -/
inductive Place (W : Type*)
  | free
  | cache (w : W)
  | used
  | hand  -- of the call that takes it or hands it back

/-- What waits and joins leave in a `TaskMeta`, and `bthread_create` does not set or delete, is at its initial value. -/
structure Blank (m : TaskMeta) : Prop where
  joinButex : m.joinButex = none
  wakeup : m.waiter.wakeup = false
  timedOut : m.waiter.timedOut = false
  timerId : m.waiter.timerId = 0

/-- The task is in a wait list only while it is suspended, and `is_waiting` is set only then. -/
structure Calm (w : TimedWait.State ℕ) : Prop where
  waiting : w.isWaiting = true → w.taskState = .suspended ∧ w.waitingButex.isSome = true
  queued : w.queued.isSome = true → w.isWaiting = true

/-- The slots of the bthreads that have not been handled. -/
def State.runs (s : State W) : List ℕ := s.alive ++ s.ended

/-- The slots of the bthreads that have not been joined or detached, or whose join has not released its reference. -/
def State.holds (s : State W) : List ℕ := s.joinable ++ s.calls.map Call.slot

structure Books (s : State W) (place : ℕ → Place W) : Prop where
  free : Shelf place s.free .free
  cache : ∀ w, Shelf place (s.taskCache w) (.cache w)
  runs : Shelf place s.runs .used
  holds : Shelf place s.holds .used
  blank : ∀ slot, place slot ≠ .used → place slot ≠ .hand → Blank (s.getMeta slot)
  settled : ∀ slot, place slot ≠ .used → (s.getMeta slot).waiter.taskState ≠ .suspended
  calm : ∀ slot, Calm (s.getMeta slot).waiter
  refs : ∀ slot, place slot = .used → (s.getMeta slot).refCount = s.runs.count slot + s.holds.count slot
  finished : ∀ slot, place slot = .used → slot ∉ s.alive → (s.getMeta slot).waiter.taskState = .finished

/-! ## Waits -/

section Waits

variable {w : TimedWait.State ℕ}

theorem Calm.not_waiting (h : Calm w) (hs : w.taskState ≠ .suspended) : w.isWaiting = false :=
  Bool.eq_false_iff.mpr fun hw => hs (h.waiting hw).1

theorem Calm.not_queued (h : Calm w) (hs : w.taskState ≠ .suspended) : w.queued.isSome = false :=
  Bool.eq_false_iff.mpr fun hq => hs (h.waiting (h.queued hq)).1

/-- The state of the task changes while it does not wait. -/
theorem Calm.setState (h : Calm w) (hs : w.taskState ≠ .suspended) (state : TaskState) :
    Calm { w with taskState := state } where
  waiting hw := absurd hw (by rw [h.not_waiting hs]; exact Bool.false_ne_true)
  queued hq := absurd hq (by rw [h.not_queued hs]; exact Bool.false_ne_true)

theorem calm_quiet (hw : w.isWaiting = false) (hq : w.queued = none) : Calm w where
  waiting h := absurd h (by rw [hw]; exact Bool.false_ne_true)
  queued h := absurd h (by rw [hq]; exact Bool.false_ne_true)

theorem Calm.wait (h : Calm w) (b : ℕ) (timeout : Option Int) (change : Option TimedWait.Change) :
    Calm (w.wait b timeout change) := by
  unfold TimedWait.State.wait
  split
  · exact h
  · split_ifs
    · exact h
    · split
      · exact h
      · exact calm_quiet rfl rfl
      · exact ⟨fun _ => ⟨rfl, rfl⟩, fun _ => rfl⟩

theorem calm_wake (w : TimedWait.State ℕ) : Calm w.wake := calm_quiet rfl rfl

theorem Calm.timeoutCallback (h : Calm w) (e : TimedWait.Timer) : Calm (w.timeoutCallback e) := by
  unfold TimedWait.State.timeoutCallback
  split
  · exact h
  split
  · -- the task is taken out of the wait list
    cases hw : w.isWaiting with
    | true =>
      have hbutex := (h.waiting hw).2
      exact calm_quiet (by simp only [hbutex, if_true]) (by simp only [hbutex, true_and, if_true])
    | false =>
      have hq : w.queued = none := by
        cases hq : w.queued with
        | none => rfl
        | some b => exact absurd (h.queued (by rw [hq]; rfl)) (by rw [hw]; exact Bool.false_ne_true)
      exact calm_quiet (by simp only [ite_self]) (by simp only [hq, ite_self])
  · exact ⟨h.waiting, h.queued⟩

theorem Calm.fire (h : Calm w) (e : TimedWait.Timer) : Calm (w.fire e) :=
  ⟨(h.timeoutCallback e).waiting, (h.timeoutCallback e).queued⟩

theorem Calm.run {m : TaskMeta} (h : Calm m.waiter) (hr : m.waiter.taskState = .ready) : Calm m.run.waiter := by
  have hs : m.waiter.taskState ≠ .suspended := by rw [hr]; nofun
  have hq : m.waiter.queued = none := Option.not_isSome_iff_eq_none.mp (by rw [h.not_queued hs]; nofun)
  unfold TaskMeta.run
  split_ifs <;> exact calm_quiet (h.not_waiting hs) hq

/-- A timer does not bring a finished task back. -/
theorem fire_finished (h : w.taskState = .finished) (e : TimedWait.Timer) : (w.fire e).taskState = .finished := by
  unfold TimedWait.State.fire TimedWait.State.timeoutCallback
  split
  · exact h
  · rw [if_neg (by rw [h]; nofun)]
    exact h

end Waits

/-! ## Slots in use -/

section Used

variable {s t : State W} {place : ℕ → Place W} {slot : ℕ}

/-- The lists of the bthreads and of the calls are rearranged. -/
theorem Books.congr (h : Books s place) (hfree : t.free = s.free) (hcache : t.taskCache = s.taskCache)
    (hruns : t.runs.Perm s.runs) (hholds : t.holds.Perm s.holds) (hmeta : t.getMeta = s.getMeta)
    (halive : ∀ slot ∈ s.alive, slot ∉ t.alive → (s.getMeta slot).waiter.taskState = .finished) : Books t place where
  free := by
    rw [hfree]
    exact h.free
  cache w := by
    rw [hcache]
    exact h.cache w
  runs := h.runs.perm hruns
  holds := h.holds.perm hholds
  blank := by
    rw [hmeta]
    exact h.blank
  settled := by
    rw [hmeta]
    exact h.settled
  calm := by
    rw [hmeta]
    exact h.calm
  refs a ha := by
    rw [hmeta, hruns.count_eq, hholds.count_eq]
    exact h.refs a ha
  finished a ha hout := by
    rw [hmeta]
    by_cases hin : a ∈ s.alive
    · exact halive a hin hout
    · exact h.finished a ha hin

/-- A wait or a join writes a `TaskMeta` that is in use. -/
theorem Books.setUsed (h : Books s place) {m : TaskMeta} (hp : place slot = .used) (hcalm : Calm m.waiter)
    (href : m.refCount = (s.getMeta slot).refCount) (hover : slot ∉ s.alive → m.waiter.taskState = .finished) :
    Books (s.setMeta slot m) place where
  free := h.free
  cache := h.cache
  runs := h.runs
  holds := h.holds
  blank := forall_getMeta (P := fun a m => place a ≠ .used → place a ≠ .hand → Blank m) (fun hne => absurd hp hne)
    fun a _ => h.blank a
  settled := forall_getMeta (P := fun a m => place a ≠ .used → m.waiter.taskState ≠ .suspended)
    (fun hne => absurd hp hne) fun a _ => h.settled a
  calm := forall_getMeta (P := fun _ m => Calm m.waiter) hcalm fun a _ => h.calm a
  refs := forall_getMeta (P := fun a m => place a = .used → m.refCount = s.runs.count a + s.holds.count a)
    (fun hp => href.trans (h.refs slot hp)) fun a _ => h.refs a
  finished := forall_getMeta (P := fun a m => place a = .used → a ∉ s.alive → m.waiter.taskState = .finished)
    (fun _ => hover) fun a _ => h.finished a

/-- One of the bthread and the join of a slot is gone from its list; its reference is about to be released. -/
structure Leaves (s t : State W) (slot : ℕ) : Prop where
  free : t.free = s.free
  cache : t.taskCache = s.taskCache
  alive : t.alive = s.alive
  getMeta : t.getMeta = s.getMeta
  lists : s.runs.Perm (slot :: t.runs) ∧ t.holds = s.holds ∨ t.runs = s.runs ∧ s.holds.Perm (slot :: t.holds)

theorem Leaves.count (hl : Leaves s t slot) (a : ℕ) :
    t.runs.count a + t.holds.count a + (if a = slot then 1 else 0) = s.runs.count a + s.holds.count a := by
  have hcons : ∀ l : List ℕ, (slot :: l).count a = l.count a + if a = slot then 1 else 0 := by
    intro l
    by_cases ha : a = slot
    · rw [ha, List.count_cons_self, if_pos rfl]
    · rw [List.count_cons_of_ne (Ne.symm ha), if_neg ha, Nat.add_zero]
  obtain ⟨hruns, hholds⟩ | ⟨hruns, hholds⟩ := hl.lists
  · rw [hholds, hruns.count_eq, hcons]
    omega
  · rw [hruns, hholds.count_eq, hcons]
    omega

/-- What is left of a shelf. -/
theorem Leaves.shelves (hl : Leaves s t slot) (h : Books s place) :
    Shelf place t.runs .used ∧ Shelf place t.holds .used := by
  have hrest : ∀ {l l' : List ℕ}, Shelf place l .used → l.Perm (slot :: l') → Shelf place l' .used :=
    fun hshelf hp => (hshelf.perm hp.symm).sublist (List.sublist_cons_self slot _)
  obtain ⟨hruns, hholds⟩ | ⟨hruns, hholds⟩ := hl.lists
  · exact ⟨hrest h.runs hruns, hholds ▸ h.holds⟩
  · exact ⟨hruns ▸ h.runs, hrest h.holds hholds⟩

/-- The slot of the reference that is about to be released is in use. -/
theorem Leaves.used (hl : Leaves s t slot) (h : Books s place) : place slot = .used := by
  obtain ⟨hruns, -⟩ | ⟨-, hholds⟩ := hl.lists
  · exact h.runs.2 slot (hruns.mem_iff.mpr List.mem_cons_self)
  · exact h.holds.2 slot (hholds.mem_iff.mpr List.mem_cons_self)

/-- A reference is released, and was not the last. -/
theorem Books.drop (h : Books s place) (hl : Leaves s t slot) {m : TaskMeta}
    (hm : m = { s.getMeta slot with refCount := (s.getMeta slot).refCount - 1 }) : Books (t.setMeta slot m) place where
  free := by
    rw [show (t.setMeta slot m).free = s.free from hl.free]
    exact h.free
  cache w := by
    rw [show (t.setMeta slot m).taskCache = s.taskCache from hl.cache]
    exact h.cache w
  runs := (hl.shelves h).1
  holds := (hl.shelves h).2
  blank := forall_getMeta (P := fun a m => place a ≠ .used → place a ≠ .hand → Blank m)
    (fun hne => absurd (hl.used h) hne) fun a _ => by
      rw [hl.getMeta]
      exact h.blank a
  settled := forall_getMeta (P := fun a m => place a ≠ .used → m.waiter.taskState ≠ .suspended)
    (fun hne => absurd (hl.used h) hne) fun a _ => by
      rw [hl.getMeta]
      exact h.settled a
  calm := forall_getMeta (P := fun _ m => Calm m.waiter) (hm ▸ h.calm slot) fun a _ => by
    rw [hl.getMeta]
    exact h.calm a
  refs := by
    refine forall_getMeta (P := fun a m => place a = .used → m.refCount = t.runs.count a + t.holds.count a) ?_ ?_
    · intro hp
      have href := h.refs slot hp
      have hcount := hl.count slot
      rw [if_pos rfl] at hcount
      rw [hm]
      simp only
      omega
    · intro a ha hp
      have href := h.refs a hp
      have hcount := hl.count a
      rw [if_neg ha] at hcount
      rw [hl.getMeta]
      omega
  finished := forall_getMeta (P := fun a m => place a = .used → a ∉ t.alive → m.waiter.taskState = .finished)
    (fun hp hout => hm ▸ h.finished slot hp (hl.alive ▸ hout)) fun a _ hp hout => by
      rw [hl.getMeta]
      exact h.finished a hp (hl.alive ▸ hout)

/-- Without references nobody is left. -/
theorem Books.unused (h : Books s place) (hp : place slot = .used) (href : (s.getMeta slot).refCount = 0) :
    slot ∉ s.runs ∧ slot ∉ s.holds := by
  have hcount := h.refs slot hp
  constructor <;> intro hin <;> have hpos := List.count_pos_iff.mpr hin <;> omega

/-- The last reference has been released, and the call hands the slot back. -/
theorem Books.hand (h : Books s place) (hp : place slot = .used) (hruns : slot ∉ s.runs) (hholds : slot ∉ s.holds) :
    Books s (Function.update place slot .hand) where
  free := h.free.update (h.free.notMem (by rw [hp]; nofun)) _
  cache w := (h.cache w).update ((h.cache w).notMem (by rw [hp]; nofun)) _
  runs := h.runs.update hruns _
  holds := h.holds.update hholds _
  blank a := by
    by_cases ha : a = slot
    · rw [ha, Function.update_self]
      exact fun _ hne => absurd rfl hne
    · rw [Function.update_of_ne ha]
      exact h.blank a
  settled a := by
    by_cases ha : a = slot
    · intro _
      rw [ha, h.finished slot hp fun hin => hruns (List.mem_append_left _ hin)]
      nofun
    · rw [Function.update_of_ne ha]
      exact h.settled a
  calm := h.calm
  refs a := by
    by_cases ha : a = slot
    · rw [ha, Function.update_self]
      nofun
    · rw [Function.update_of_ne ha]
      exact h.refs a
  finished a := by
    by_cases ha : a = slot
    · rw [ha, Function.update_self]
      nofun
    · rw [Function.update_of_ne ha]
      exact h.finished a

/-- **A reference is released**, and the last one hands the slot back. -/
theorem Books.release (h : Books s place) (hl : Leaves s t slot) {back : State W → ℕ → State W}
    (hback : (s.getMeta slot).refCount = 1 → ∀ u place', Books u place' → place' slot = .hand →
      u.getMeta slot = { s.getMeta slot with refCount := (s.getMeta slot).refCount - 1 } →
      u.taskCache = s.taskCache → ∃ place'', Books (back u slot) place'') :
    ∃ place', Books (t.release slot back) place' := by
  have hdrop := h.drop hl rfl
  simp only [State.release, hl.getMeta]
  split_ifs with hlast
  · obtain ⟨hruns, hholds⟩ := hdrop.unused (hl.used h) (by rw [getMeta_setMeta_self, hlast]; rfl)
    exact hback hlast _ _ (hdrop.hand (hl.used h) hruns hholds) (Function.update_self ..) (getMeta_setMeta_self ..)
      hl.cache
  · exact ⟨place, hdrop⟩

end Used

/-! ## Slots in the hands of a call -/

section Hand

variable {s t : State W} {place place' : ℕ → Place W} {slot : ℕ}

/-- Free and cached slots are moved, and their generations are brought up to date. -/
theorem Books.move (h : Books s place) (hfree : Shelf place' t.free .free)
    (hcache : ∀ w, Shelf place' (t.taskCache w) (.cache w)) (halive : t.alive = s.alive) (hruns : t.runs = s.runs)
    (hholds : t.holds = s.holds) (hmeta : ∀ a, ∃ g, t.getMeta a = { s.getMeta a with generation := g })
    (hplace : ∀ a, place' a = place a ∨ place a ≠ .used ∧ place a ≠ .hand ∧ place' a ≠ .used) : Books t place' := by
  -- no slot starts or ceases to be in use
  have hused : ∀ a, place' a = .used ↔ place a = .used := by
    intro a
    obtain ha | ⟨hne, -, hne'⟩ := hplace a
    · rw [ha]
    · exact iff_of_false hne' hne
  have hkeep : ∀ l, Shelf place l .used → Shelf place' l .used :=
    fun l hl => ⟨hl.1, fun a ha => (hused a).mpr (hl.2 a ha)⟩
  constructor
  case free => exact hfree
  case cache => exact hcache
  case runs => exact hkeep _ (hruns ▸ h.runs)
  case holds => exact hkeep _ (hholds ▸ h.holds)
  case blank =>
    intro a hne hne'
    obtain ⟨g, ha⟩ := hmeta a
    have hblank : Blank (s.getMeta a) := by
      obtain hp | ⟨hp, hp', -⟩ := hplace a
      · exact h.blank a (hp ▸ hne) (hp ▸ hne')
      · exact h.blank a hp hp'
    rw [ha]
    exact ⟨hblank.joinButex, hblank.wakeup, hblank.timedOut, hblank.timerId⟩
  case settled =>
    intro a hne
    obtain ⟨g, ha⟩ := hmeta a
    rw [ha]
    exact h.settled a fun hp => hne ((hused a).mpr hp)
  case calm =>
    intro a
    obtain ⟨g, ha⟩ := hmeta a
    rw [ha]
    exact h.calm a
  case refs =>
    intro a hp
    obtain ⟨g, ha⟩ := hmeta a
    rw [ha, hruns, hholds]
    exact h.refs a ((hused a).mp hp)
  case finished =>
    intro a hp hout
    obtain ⟨g, ha⟩ := hmeta a
    rw [ha]
    exact h.finished a ((hused a).mp hp) (halive ▸ hout)

/-- The first slots of the free list are moved to an empty cache. -/
theorem Books.refill [DecidableEq W] (h : Books s place) {w : W} {front rest : List ℕ} {pool : ℕ → Option TaskMeta}
    (hcache : s.taskCache w = []) (hfree : s.free = front ++ rest) (hpool : UpToDate s pool) :
    Books { s with free := rest, taskCache := Function.update s.taskCache w front.reverse, pool := pool }
      fun a => if a ∈ front then .cache w else place a := by
  have hshelf := h.free
  rw [hfree] at hshelf
  obtain ⟨hfront, hrest, hdis⟩ := List.nodup_append.mp hshelf.1
  have hin : ∀ a ∈ front, place a = .free := fun a ha => hshelf.2 a (List.mem_append_left rest ha)
  refine h.move ?_ (fun v => ?_) rfl rfl rfl hpool.getMeta fun a => ?_
  · refine ⟨hrest, fun a ha => ?_⟩
    have hout : a ∉ front := fun hf => hdis a hf a ha rfl
    exact (if_neg hout).trans (hshelf.2 a (List.mem_append_right front ha))
  · by_cases hv : v = w
    · subst hv
      simp only [Function.update_self]
      exact ⟨List.nodup_reverse.mpr hfront, fun a ha => if_pos (List.mem_reverse.mp ha)⟩
    · simp only [Function.update_of_ne hv]
      refine (h.cache v).congr fun a ha => if_neg fun hf => ?_
      cases ((h.cache v).2 a ha).symm.trans (hin a hf)
  · by_cases hf : a ∈ front
    · rw [if_pos hf, hin a hf]
      exact .inr ⟨nofun, nofun, nofun⟩
    · exact .inl (if_neg hf)

/-- A slot is taken from where it is. -/
theorem Books.take (h : Books s place) {p : Place W} (hp : place slot = p) (hused : p ≠ .used) (hhand : p ≠ .hand)
    (hfree : Shelf (Function.update place slot .hand) t.free .free)
    (hcache : ∀ w, Shelf (Function.update place slot .hand) (t.taskCache w) (.cache w)) (halive : t.alive = s.alive)
    (hruns : t.runs = s.runs) (hholds : t.holds = s.holds)
    (hmeta : ∀ a, ∃ g, t.getMeta a = { s.getMeta a with generation := g }) :
    Books t (Function.update place slot .hand) ∧ Blank (t.getMeta slot) := by
  constructor
  · refine h.move hfree hcache halive hruns hholds hmeta fun a => ?_
    by_cases ha : a = slot
    · rw [ha, hp, Function.update_self]
      exact .inr ⟨hused, hhand, nofun⟩
    · exact .inl (Function.update_of_ne ha ..)
  · obtain ⟨g, ha⟩ := hmeta slot
    have hblank := h.blank slot (hp ▸ hused) (hp ▸ hhand)
    rw [ha]
    exact ⟨hblank.joinButex, hblank.wakeup, hblank.timedOut, hblank.timerId⟩

/-- The top of a cache is taken. -/
theorem Books.takeCache [DecidableEq W] (h : Books s place) {w : W} {c : List ℕ} (hcache : s.taskCache w = slot :: c) :
    Books { s with taskCache := Function.update s.taskCache w c } (Function.update place slot .hand) ∧
      Blank (s.getMeta slot) := by
  have hshelf := h.cache w
  rw [hcache] at hshelf
  have hslot := hshelf.2 slot List.mem_cons_self
  refine h.take (t := { s with taskCache := Function.update s.taskCache w c }) hslot nofun nofun ?_ (fun v => ?_)
    rfl rfl rfl fun a => ⟨(s.getMeta a).generation, rfl⟩
  · exact h.free.update (h.free.notMem (by rw [hslot]; nofun)) _
  · by_cases hv : v = w
    · subst hv
      simp only [Function.update_self]
      exact hshelf.take _
    · simp only [Function.update_of_ne hv]
      refine (h.cache v).update ((h.cache v).notMem ?_) _
      rw [hslot]
      exact fun heq => hv (Place.cache.inj heq).symm

/-- **A slot is taken** for a new bthread. -/
theorem Books.taken [DecidableEq W] (h : Books s place) (ht : Taken s slot t) :
    ∃ place', Books t place' ∧ place' slot = .hand ∧ Blank (t.getMeta slot) := by
  cases ht with
  | @free free pool hfree hpool =>
    have hshelf := h.free
    rw [hfree] at hshelf
    have hslot := hshelf.2 slot List.mem_cons_self
    obtain ⟨hbooks, hblank⟩ := h.take (t := { s with free := free, pool := pool }) hslot nofun nofun (hshelf.take _)
      (fun w => (h.cache w).update ((h.cache w).notMem (by rw [hslot]; nofun)) _) rfl rfl rfl hpool.getMeta
    exact ⟨_, hbooks, Function.update_self .., hblank⟩
  | cache hcache =>
    obtain ⟨hbooks, hblank⟩ := h.takeCache hcache
    exact ⟨_, hbooks, Function.update_self .., hblank⟩
  | @refill w front rest pool hcache hfree hpool =>
    -- the slots are put into the cache, and the last of them is its top
    have hsplit : s.free = (front ++ [slot]) ++ rest := by
      rw [hfree, List.append_assoc, List.singleton_append]
    have hrefill := h.refill hcache hsplit hpool
    rw [List.reverse_append, List.reverse_singleton, List.singleton_append] at hrefill
    have htop : Function.update s.taskCache w (slot :: front.reverse) w = slot :: front.reverse :=
      Function.update_self ..
    obtain ⟨hbooks, hblank⟩ := hrefill.takeCache htop
    simp only [Function.update_idem] at hbooks
    exact ⟨_, hbooks, Function.update_self .., hblank⟩

/-- The slot in the hands of a call is in no list. -/
theorem Books.not_mem (h : Books s place) (hp : place slot = .hand) :
    slot ∉ s.free ∧ (∀ w, slot ∉ s.taskCache w) ∧ slot ∉ s.runs ∧ slot ∉ s.holds := by
  refine ⟨h.free.notMem ?_, fun w => (h.cache w).notMem ?_, h.runs.notMem ?_, h.holds.notMem ?_⟩ <;>
    rw [hp] <;> nofun

/-- The slot in the hands of a call is put somewhere, and nothing else moves. -/
theorem Books.put (h : Books s place) {p : Place W} {m : TaskMeta}
    (hfree : Shelf (Function.update place slot p) t.free .free)
    (hcache : ∀ w, Shelf (Function.update place slot p) (t.taskCache w) (.cache w))
    (hruns : Shelf (Function.update place slot p) t.runs .used)
    (hholds : Shelf (Function.update place slot p) t.holds .used) (hself : t.getMeta slot = m)
    (hmeta : ∀ a, a ≠ slot → t.getMeta a = s.getMeta a) (hcalm : Calm m.waiter)
    (hblank : p ≠ .used → p ≠ .hand → Blank m) (hsettled : p ≠ .used → m.waiter.taskState ≠ .suspended)
    (hcount : ∀ a, a ≠ slot → t.runs.count a + t.holds.count a = s.runs.count a + s.holds.count a)
    (href : p = .used → m.refCount = t.runs.count slot + t.holds.count slot)
    (hover : p = .used → slot ∉ t.alive → m.waiter.taskState = .finished)
    (halive : ∀ a, a ≠ slot → a ∈ s.alive → a ∈ t.alive) : Books t (Function.update place slot p) := by
  -- the slot itself, and the others
  have hsplit : ∀ {P : ℕ → TaskMeta → Place W → Prop}, P slot m p → (∀ a, a ≠ slot → P a (s.getMeta a) (place a)) →
      ∀ a, P a (t.getMeta a) (Function.update place slot p a) := by
    intro P hslot hother a
    by_cases ha : a = slot
    · rw [ha, hself, Function.update_self]
      exact hslot
    · rw [hmeta a ha, Function.update_of_ne ha]
      exact hother a ha
  constructor
  case free => exact hfree
  case cache => exact hcache
  case runs => exact hruns
  case holds => exact hholds
  case blank =>
    exact hsplit (P := fun _ m p => p ≠ .used → p ≠ .hand → Blank m) hblank fun a _ => h.blank a
  case settled =>
    exact hsplit (P := fun _ m p => p ≠ .used → m.waiter.taskState ≠ .suspended) hsettled fun a _ => h.settled a
  case calm => exact hsplit (P := fun _ m _ => Calm m.waiter) hcalm fun a _ => h.calm a
  case refs =>
    refine hsplit (P := fun a m p => p = .used → m.refCount = t.runs.count a + t.holds.count a) href fun a ha hp => ?_
    have hcount := hcount a ha
    have href := h.refs a hp
    omega
  case finished =>
    refine hsplit (P := fun a m p => p = .used → a ∉ t.alive → m.waiter.taskState = .finished) hover
      fun a ha hp hout => h.finished a hp fun hin => hout (halive a ha hin)

/-- The stack of a `TaskMeta` that has just been taken. -/
theorem Books.setHand (h : Books s place) (hp : place slot = .hand) {m : TaskMeta}
    (hm : m.waiter = (s.getMeta slot).waiter) : Books (s.setMeta slot m) place := by
  have hsame : Function.update place slot .hand = place := by
    rw [← hp, Function.update_eq_self]
  have hput := h.put (t := s.setMeta slot m) (p := .hand) (by rw [hsame]; exact h.free)
    (by rw [hsame]; exact h.cache) (by rw [hsame]; exact h.runs) (by rw [hsame]; exact h.holds)
    (getMeta_setMeta_self s m) (fun a ha => getMeta_setMeta_of_ne s m ha) (hm ▸ h.calm slot)
    (fun _ hne => absurd rfl hne) (fun _ => hm ▸ h.settled slot (by rw [hp]; nofun)) (fun _ _ => rfl) nofun nofun
    fun _ _ ha => ha
  rwa [hsame] at hput

/-- **The bthread is enqueued.** -/
theorem Books.begin (h : Books s place) (hp : place slot = .hand) (size fn : ℕ) (arg : Option ℕ) :
    Books (s.begin slot size fn arg) (Function.update place slot .used) := by
  obtain ⟨hfree, hcache, hruns, hholds⟩ := h.not_mem hp
  have hsettled := h.settled slot (by rw [hp]; nofun)
  have hcons : ∀ a, a ≠ slot → (s.begin slot size fn arg).runs.count a + (s.begin slot size fn arg).holds.count a =
      s.runs.count a + s.holds.count a := by
    intro a ha
    show (slot :: s.runs).count a + (slot :: s.holds).count a = _
    rw [List.count_cons_of_ne (Ne.symm ha), List.count_cons_of_ne (Ne.symm ha)]
  refine h.put (h.free.update hfree _) (fun w => (h.cache w).update (hcache w) _) (h.runs.put hruns)
    (h.holds.put hholds) (getMeta_setMeta_self s _) (fun a ha => getMeta_setMeta_of_ne s _ ha)
    ((h.calm slot).setState hsettled .ready) (fun hne => absurd rfl hne) (fun hne => absurd rfl hne) hcons
    (fun _ => ?_) (fun _ hout => absurd List.mem_cons_self hout) fun a _ ha => List.mem_cons_of_mem slot ha
  show (2 : Int) = (slot :: s.runs).count slot + (slot :: s.holds).count slot
  rw [List.count_cons_self, List.count_cons_self, List.count_eq_zero.mpr hruns, List.count_eq_zero.mpr hholds]
  rfl

/-- **The slot is handed back to the task group.** -/
theorem Books.dealloc (h : Books s place) (hp : place slot = .hand) :
    Books (s.deallocTaskMeta slot) (Function.update place slot .free) := by
  obtain ⟨hfree, hcache, hruns, hholds⟩ := h.not_mem hp
  have hcalm := h.calm slot
  have hsettled := h.settled slot (by rw [hp]; simp)
  have hqueued : (s.getMeta slot).waiter.queued = none :=
    Option.not_isSome_iff_eq_none.mp (by rw [hcalm.not_queued hsettled]; simp)
  exact h.put (h.free.put hfree) (fun w => (h.cache w).update (hcache w) _) (h.runs.update hruns _)
    (h.holds.update hholds _) getMeta_dealloc_self (fun a ha => getMeta_dealloc_of_ne ha)
    (calm_quiet (hcalm.not_waiting hsettled) hqueued) (fun _ _ => ⟨rfl, rfl, rfl, rfl⟩) (fun _ => by rintro ⟨⟩)
    (fun _ _ => rfl) (by simp) (by simp) fun _ _ ha => ha

/-- **The slot is handed back to a cache**, with a blank `TaskMeta`. -/
theorem Books.cached [DecidableEq W] (h : Books s place) (hp : place slot = .hand) (hblank : Blank (s.getMeta slot))
    (w : W) : Books (s.setCache w (slot :: s.taskCache w)) (Function.update place slot (.cache w)) := by
  obtain ⟨hfree, hcache, hruns, hholds⟩ := h.not_mem hp
  refine h.put (h.free.update hfree _) (fun v => ?_) (h.runs.update hruns _) (h.holds.update hholds _) rfl
    (fun _ _ => rfl) (h.calm slot) (fun _ _ => hblank) (fun _ => h.settled slot (by rw [hp]; nofun)) (fun _ _ => rfl)
    nofun nofun fun _ _ ha => ha
  by_cases hv : v = w
  · subst hv
    simp only [State.setCache, Function.update_self]
    exact (h.cache v).put (hcache v)
  · simp only [State.setCache, Function.update_of_ne hv]
    exact (h.cache v).update (hcache v) _

/-- The slots in the hands of `~Worker` are handed back one after the other. -/
theorem Books.deallocs (h : Books s place) (l : List ℕ) (hnodup : l.Nodup) (hp : ∀ slot ∈ l, place slot = .hand) :
    ∃ place', Books (l.foldl State.deallocTaskMeta s) place' := by
  induction l generalizing s place with
  | nil => exact ⟨place, h⟩
  | cons x l ih =>
    obtain ⟨hx, hnodup⟩ := List.nodup_cons.mp hnodup
    refine ih (h.dealloc (hp x List.mem_cons_self)) hnodup fun a ha => ?_
    rw [Function.update_of_ne (ne_of_mem_of_not_mem ha hx)]
    exact hp a (List.mem_cons_of_mem x ha)

/-- `DeallocTaskMeta` does not look at the caches. -/
theorem deallocs_setCache [DecidableEq W] (l : List ℕ) (s : State W) (w : W) (c : List ℕ) :
    (l.foldl State.deallocTaskMeta s).setCache w c = l.foldl State.deallocTaskMeta (s.setCache w c) := by
  induction l generalizing s with
  | nil => rfl
  | cons x l ih => exact ih (s.deallocTaskMeta x)

/-- **`~Worker` hands its cache back.** -/
theorem Books.drain [DecidableEq W] (h : Books s place) (w : W) :
    ∃ place', Books ((s.drainStackPool w).drainTaskCache w) place' := by
  have hcached := h.cache w
  have hkeep : ∀ l p, Shelf place l p → p ≠ .cache w →
      Shelf (fun a => if a ∈ s.taskCache w then .hand else place a) l p := by
    intro l p hl hp
    refine hl.congr fun a ha => if_neg fun hin => hp ?_
    exact (hl.2 a ha).symm.trans (hcached.2 a hin)
  have htaken : Books ((s.drainStackPool w).setCache w []) fun a => if a ∈ s.taskCache w then .hand else place a := by
    refine h.move (hkeep _ _ h.free (by simp)) (fun v => ?_) rfl rfl rfl
      (fun a => ⟨(s.getMeta a).generation, rfl⟩) fun a => ?_
    · by_cases hv : v = w
      · subst hv
        simp only [State.setCache, Function.update_self]
        exact shelf_nil
      · simp only [State.setCache, Function.update_of_ne hv]
        exact hkeep _ _ (h.cache v) fun heq => hv (Place.cache.inj heq)
    · by_cases ha : a ∈ s.taskCache w
      · rw [if_pos ha, hcached.2 a ha]
        exact .inr ⟨by simp, by simp, by simp⟩
      · exact .inl (if_neg ha)
  unfold State.drainTaskCache
  rw [deallocs_setCache]
  refine htaken.deallocs _ (List.nodup_reverse.mpr hcached.1) fun a ha => if_pos ?_
  exact List.mem_reverse.mp ha

end Hand

end Cothread.TaskLife
