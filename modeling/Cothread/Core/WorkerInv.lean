import Cothread.Core.WorkerMoves

/-!
# `Worker`: exclusion, and the invariant behind it

`Exclusive` says that a task is executed by one worker at a time; `Exposed` are the steps that lead out of it. The
invariant `Inv` follows a task's current wait: there is at most one place from which the task is going to be executed
(`Claimed`), `Butex` knows the wait in at most one slot (`Entered`), and a task that somebody has made `READY` is not
`SUSPENDED` (`Awake`). This module has the frames of the three parts, and the steps of wakers.
-/

namespace Cothread.Worker

open Run Places
open Butex (Call WaitPc WakePc TimerPc Loop)

variable {W E T B C : Type*}

/-- **Exclusion**: each task is the `current_task_` of at most one worker, and no run queue holds a task that a worker
executes. -/
structure Exclusive (s : State W E T B C) : Prop where
  current : ∀ w v t, (s.worker w).current = some t → (s.worker v).current = some t → w = v
  executing : ∀ w t p, (s.worker w).executing = some t → t ∉ s.mem.ready p

/-! ## The steps that expose a task -/

section Exposed

variable (s : State W E T B C)

/-- A push for this wait comes too late, or too early: the task has left the wait, or is still executed. -/
def State.Hasty (x : T × ℕ) : Prop := x.2 ≠ s.mem.epoch x.1 ∨ s.Executing x.1

/-- The timeout callback has found the task of this wait `SUSPENDED` and has not pushed it yet. -/
def State.TimerHas (x : T × ℕ) : Prop := (s.mem.timer x.1 x.2).any TimerFound = true

/-- `Wake` has found the task of this wait `SUSPENDED` and has not pushed it yet. -/
def State.WakerHas (x : T × ℕ) : Prop := ∃ a pc, s.waker a = some pc ∧ pc.found = some x

/-- A waker is about to push hastily, or to find `SUSPENDED` what the callback has found. -/
def State.Rash (pc : WakerPc T B C) : Prop :=
  (∃ x, pc.pushing = some x ∧ s.Hasty x) ∨
    ∃ x, pc.finding = some x ∧ s.mem.taskState x.1 = .suspended ∧ s.TimerHas x

/-- The step may lead to a task being executed twice. -/
def Exposed : Label W E T B C → Prop
  | .worker w => (∃ pc, s.waker (.inl w) = some pc ∧ s.Rash pc) ∨ (∃ t c, s.worker w = .exec t c ∧ c.SelfPush) ∨
      ∃ t v, s.worker w = .setCurrent t ∧ s.worker v = .swapped t
  | .thread e => ∃ pc, s.waker (.inr e) = some pc ∧ s.Rash pc
  | .timer t n => s.mem.timer t n = some .push ∧ s.Hasty (t, n) ∨
      s.mem.timer t n = some .loadState ∧ s.mem.taskState t = .suspended ∧ s.WakerHas (t, n)
  | _ => False

end Exposed

/-! ## The invariant -/

section Invariant

variable [DecidableEq T] (s : State W E T B C)

/-- The code of the task runs on some worker. -/
def State.Runs (t : T) : Prop := ∃ w c, s.worker w = .exec t c

/-- Each task is in at most one place from which it is going to be executed. -/
structure Claimed : Prop where
  once : ∀ t, Once (s.claims t)
  current : ∀ w v t, (s.worker w).current = some t → (s.worker v).current = some t → w = v
  token : ∀ t l, l.Token → 0 < s.claims t l → ¬s.Runs t
  quiet : ∀ w t c, s.worker w = .exec t c → c.stage ≤ 2 → ∀ l, s.claims t l = 0
  born : ∀ t, s.mem.born t = false → (∀ l, s.claims t l = 0) ∧ ¬s.Runs t

/-- `Butex` knows the current wait of a task in at most one slot, and not before it is queued. -/
structure Entered : Prop where
  once : ∀ t, Once (s.entries t)
  fresh : ∀ w t c, s.worker w = .exec t c → c.stage ≤ 1 → ∀ j, s.entries t j = 0
  unarmed : ∀ w t c, s.worker w = .exec t c → c.stage = 0 → s.mem.timer t (s.mem.epoch t) = none
  kinds : ∀ t l, l.Sync → 0 < s.claims t l → (∀ j, s.entries t j = 0) ∧ s.mem.timer t (s.mem.epoch t) = none

/-- Somebody has made the task `READY`, or its code has not come to `SUSPENDED`. -/
def Awakened (t : T) : Prop :=
  (∃ l, l.Token ∧ 0 < s.claims t l) ∨ (∃ a, (s.waker a).bind WakerPc.stored = some (t, s.mem.epoch t)) ∨
    (s.mem.timer t (s.mem.epoch t)).any TimerStored = true ∨ (∃ w c, s.worker w = .exec t c ∧ ¬c.Asleep) ∨
    s.mem.born t = false

/-- An awakened task is not `SUSPENDED`. -/
def Awake : Prop := ∀ t, Awakened s t → s.mem.taskState t ≠ .suspended

structure Inv : Prop where
  claimed : Claimed s
  entered : Entered s
  awake : Awake s
  books : Books s

end Invariant

theorem Loc.Sync.not_token {l : Loc W E C} (h : l.Sync) : ¬l.Token := by
  cases l <;> first | exact id | cases h

/-! ## Frames -/

section Frames

variable [DecidableEq T] {s s' : State W E T B C}

/-- The tasks' code only goes forward. -/
def Later (s s' : State W E T B C) : Prop :=
  ∀ v t c', s'.worker v = .exec t c' → ∃ c, s.worker v = .exec t c ∧ c.stage ≤ c'.stage

omit [DecidableEq T] in
theorem Later.runs {t : T} (h : Later s s') (hr : s'.Runs t) : s.Runs t := by
  obtain ⟨w, c', hw⟩ := hr
  obtain ⟨c, hc, _⟩ := h w t c' hw
  exact ⟨w, c, hc⟩

theorem Claimed.frame (h : Claimed s) (once : ∀ t, Once (s'.claims t)) (later : Later s s')
    (current : ∀ v t, (s'.worker v).current = some t → (s.worker v).current = some t)
    (born : ∀ t, s'.mem.born t = false → s.mem.born t = false)
    (claim : ∀ t l, 0 < s'.claims t l → (∃ l', 0 < s.claims t l') ∨
      s'.mem.born t = true ∧ ∀ w c, s'.worker w = .exec t c → 3 ≤ c.stage)
    (token : ∀ t l, l.Token → 0 < s'.claims t l → (∃ l', l'.Token ∧ 0 < s.claims t l') ∨ ¬s.Runs t) : Claimed s' where
  once := once
  current w v t hw hv := h.current w v t (current w t hw) (current v t hv)
  token t l hl ht hr := by
    rcases token t l hl ht with ⟨l', hl', h1⟩ | h1
    · exact h.token t l' hl' h1 (later.runs hr)
    · exact h1 (later.runs hr)
  quiet w t c' hw hc l := by
    by_contra hne
    rcases claim t l (Nat.pos_of_ne_zero hne) with ⟨l', h1⟩ | ⟨_, h1⟩
    · obtain ⟨c, hwc, hcc⟩ := later w t c' hw
      rw [h.quiet w t c hwc (by omega) l'] at h1
      omega
    · have := h1 w c' hw
      omega
  born t hb := by
    obtain ⟨h1, h2⟩ := h.born t (born t hb)
    refine ⟨fun l => ?_, fun hr => h2 (later.runs hr)⟩
    by_contra hne
    rcases claim t l (Nat.pos_of_ne_zero hne) with ⟨l', h3⟩ | ⟨h3, _⟩
    · rw [h1 l'] at h3
      omega
    · rw [hb] at h3
      cases h3

theorem Entered.frame (h : Entered s) (once : ∀ t, Once (s'.entries t)) (later : Later s s')
    (entry : ∀ t j, 0 < s'.entries t j → (∃ j', 0 < s.entries t j') ∨
      (∀ w c, s'.worker w = .exec t c → 2 ≤ c.stage) ∧ ∀ l, l.Sync → s'.claims t l = 0)
    (timer : ∀ t, s'.mem.timer t (s'.mem.epoch t) ≠ none → s.mem.timer t (s.mem.epoch t) ≠ none ∨
      (∀ w c, s'.worker w = .exec t c → 1 ≤ c.stage) ∧ ∀ l, l.Sync → s'.claims t l = 0)
    (sync : ∀ t l, l.Sync → 0 < s'.claims t l → (∃ l', l'.Sync ∧ 0 < s.claims t l') ∨
      (∀ j, s'.entries t j = 0) ∧ s'.mem.timer t (s'.mem.epoch t) = none) : Entered s' where
  once := once
  fresh w t c' hw hc j := by
    by_contra hne
    rcases entry t j (Nat.pos_of_ne_zero hne) with ⟨j', h1⟩ | ⟨h1, _⟩
    · obtain ⟨c, hwc, hcc⟩ := later w t c' hw
      rw [h.fresh w t c hwc (by omega) j'] at h1
      omega
    · have := h1 w c' hw
      omega
  unarmed w t c' hw hc := by
    by_contra hne
    rcases timer t hne with h1 | ⟨h1, _⟩
    · obtain ⟨c, hwc, hcc⟩ := later w t c' hw
      exact h1 (h.unarmed w t c hwc (by omega))
    · have := h1 w c' hw
      omega
  kinds t l hl ht := by
    rcases sync t l hl ht with ⟨l', hl', h1⟩ | h1
    · obtain ⟨h2, h3⟩ := h.kinds t l' hl' h1
      refine ⟨fun j => ?_, ?_⟩
      · by_contra hne
        rcases entry t j (Nat.pos_of_ne_zero hne) with ⟨j', h4⟩ | ⟨_, h4⟩
        · rw [h2 j'] at h4
          omega
        · rw [h4 l hl] at ht
          omega
      · by_contra hne
        rcases timer t hne with h4 | ⟨_, h4⟩
        · exact h4 h3
        · rw [h4 l hl] at ht
          omega
    · exact h1

theorem Awake.frame (h : Awake s) (awakened : ∀ t, s'.mem.taskState t = .suspended → Awakened s' t →
    s.mem.taskState t = .suspended ∧ Awakened s t) : Awake s' := by
  intro t ha hs
  obtain ⟨h1, h2⟩ := awakened t hs ha
  exact h t h2 h1

end Frames

/-! ## Wakers -/

section Wakers

variable [DecidableEq W] [DecidableEq E] [DecidableEq T] {s s' : State W E T B C} {a b : W ⊕ E} {m : Mem W T B C}
variable {r : Option (WakerPc T B C)} {t : T}

omit [DecidableEq T] in
theorem Agent.later (h : Agent s s' a m r) : Later s s' := by
  intro v t c' hv
  obtain ⟨c, hc, rfl | ⟨h1, h2, _⟩⟩ := h.code v t c' hv
  · exact ⟨c', hc, le_rfl⟩
  · exact ⟨c, hc, by omega⟩

omit [DecidableEq T] in
/-- What the waker held, what it holds now. -/
theorem Agent.hand {α : Type*} [DecidableEq α] {f : WakerPc T B C → Option α} {x : α} (h : Agent s s' a m r) :
    (if (s'.waker b).bind f = some x then 1 else 0) =
      if b = a then (if r.bind f = some x then 1 else 0) else if (s.waker b).bind f = some x then 1 else 0 := by
  rw [h.waker]
  by_cases hb : b = a
  · subst hb; simp
  · simp [hb]

/-- Nothing comes to this place of the task `t` when the waker `a` goes on. -/
def Kept (s : State W E T B C) (a : W ⊕ E) (m : Mem W T B C) (r : Option (WakerPc T B C)) (t : T) : Loc W E C → Prop
  | .place p => m.ready p = s.mem.ready p
  | .picked _ | .timer => True
  | .parked c => m.waiters c = s.mem.waiters c
  | .new b => b = a → r.bind WakerPc.new = some t → (s.waker a).bind WakerPc.new = some t
  | .popped b => b = a → r.bind WakerPc.popped = some (t, s.mem.epoch t) →
      (s.waker a).bind WakerPc.popped = some (t, s.mem.epoch t)
  | .found b => b = a → r.bind WakerPc.found = some (t, s.mem.epoch t) →
      (s.waker a).bind WakerPc.found = some (t, s.mem.epoch t)

theorem Agent.claims_le (h : Agent s s' a m r) (he : m.epoch = s.mem.epoch) (l : Loc W E C)
    (ht : (m.timer t (s.mem.epoch t)).any TimerFound = true → (s.mem.timer t (s.mem.epoch t)).any TimerFound = true)
    (hl : Kept s a m r t l) : s'.claims t l ≤ s.claims t l := by
  have hone : ∀ {p q : Prop} [Decidable p] [Decidable q], (p → q) → (if p then 1 else 0) ≤ if q then 1 else 0 := by
    intro p q _ _ hpq
    split_ifs with h1 h2 <;> simp_all
  cases l with
  | place p => simp only [State.claims, Mem.claims, h.mem, show m.ready p = s.mem.ready p from hl, le_refl]
  | picked w => simp only [State.claims, Mem.claims, h.picked, le_refl]
  | parked c => simp only [State.claims, Mem.claims, h.mem, show m.waiters c = s.mem.waiters c from hl, he, le_refl]
  | timer =>
    simp only [State.claims, Mem.claims, h.mem, he]
    exact hone ht
  | new b =>
    simp only [State.claims, Mem.claims, h.hand]
    split_ifs with h1 h2 h3 <;> simp_all [Kept]
  | popped b =>
    simp only [State.claims, Mem.claims, h.mem, he, h.hand]
    split_ifs with h1 h2 h3 <;> simp_all [Kept]
  | found b =>
    simp only [State.claims, Mem.claims, h.mem, he, h.hand]
    split_ifs with h1 h2 h3 <;> simp_all [Kept]

omit [DecidableEq T] in
theorem found_of_finding {pc : WakerPc T B C} {x : T × ℕ} (h : pc.finding = some x) : pc.found = none := by
  cases pc with
  | butex b pc => cases pc <;> first | rfl | cases h
  | _ => cases h

omit [DecidableEq T] in
/-- A found wait is in the batch. -/
theorem found_batch {pc : WakerPc T B C} {x : T × ℕ} (h : pc.found = some x ∨ pc.finding = some x) : x ∈ pc.batch := by
  cases pc with
  | butex b pc => cases pc <;> rcases h with h | h <;> cases h <;> exact List.mem_cons_self
  | _ => rcases h with h | h <;> cases h

variable [DecidableEq B] [DecidableEq C] {pc : WakerPc T B C} {p : Place W}

omit [DecidableEq E] in
/-- What holds of the timers does not change when a waker goes on. -/
theorem wakerStep_found (s : State W E T B C) (p : Place W) (pc : WakerPc T B C) {n : ℕ}
    (h : ((s.mem.wakerStep p pc).1.timer t n).any TimerFound = true) :
    (s.mem.timer t n).any TimerFound = true := by
  rcases wakerStep_timer s.mem p pc t n with h1 | ⟨_, h1⟩
  · rwa [h1] at h
  · rw [h1] at h
    cases h

omit [DecidableEq W] [DecidableEq E] [DecidableEq B] [DecidableEq C] in
/-- A waker that finds a task `SUSPENDED` is the only one that holds it. -/
theorem Inv.find_free (h : Inv s) (hw : s.waker a = some pc) (hf : pc.finding = some (t, s.mem.epoch t))
    (hs : s.mem.taskState t = .suspended) (ht : ¬s.TimerHas (t, s.mem.epoch t)) (l : Loc W E C) : s.claims t l = 0 := by
  by_contra hne
  have hpos := Nat.pos_of_ne_zero hne
  have hentry : 0 < s.entries t (.batch a) := by
    simp only [State.entries, Mem.entries, hw]
    exact List.count_pos_iff.mpr (found_batch (Or.inr hf))
  have htoken : ¬l.Token := fun hl => h.awake t (Or.inl ⟨l, hl, hpos⟩) hs
  have hsync : ¬l.Sync := fun hl => by
    rw [(h.entered.kinds t l hl hpos).1] at hentry
    omega
  cases l with
  | place _ | picked _ | new _ => exact htoken trivial
  | parked _ | popped _ => exact hsync trivial
  | timer =>
    simp only [State.claims, Mem.claims] at hpos
    split_ifs at hpos with h1
    · exact ht h1
    · omega
  | found b =>
    simp only [State.claims, Mem.claims] at hpos
    split_ifs at hpos with h1
    · obtain ⟨k, hk, hkf⟩ := Option.bind_eq_some_iff.mp h1
      have hb : 0 < s.entries t (.batch b) := by
        simp only [State.entries, Mem.entries, hk]
        exact List.count_pos_iff.mpr (found_batch (Or.inl hkf))
      have := (h.entered.once t).unique hb hentry
      cases this
      rw [hw] at hk
      cases hk
      rw [found_of_finding hf] at hkf
      cases hkf
    · omega

omit [DecidableEq W] [DecidableEq E] [DecidableEq B] [DecidableEq C] in
/-- What a waker is pushing it holds. -/
theorem pushed_held {n : ℕ} {pc : WakerPc T B C} (hw : s.waker a = some pc)
    (h : pc.new = some t ∨ n = s.mem.epoch t ∧ pc.pushing = some (t, n)) :
    ∃ l : Loc W E C, (l = .new a ∨ l = .popped a ∨ l = .found a) ∧ ∀ u, [t].count u ≤ s.claims u l := by
  have hcount : ∀ u, [t].count u ≤ if t = u then 1 else 0 := fun u => by
    rw [List.count_singleton]
    split_ifs <;> simp_all
  rcases h with h | ⟨rfl, h⟩
  · refine ⟨.new a, Or.inl rfl, fun u => (hcount u).trans ?_⟩
    simp only [State.claims, Mem.claims, hw, Option.bind_some, h]
    split_ifs <;> simp_all
  · have hpf : pc.popped = some (t, s.mem.epoch t) ∨ pc.found = some (t, s.mem.epoch t) := by
      cases pc with
      | butex b pc => cases pc <;> first | exact Or.inr h | cases h
      | push c all x => exact Or.inl h
      | _ => cases h
    rcases hpf with h1 | h1
    · refine ⟨.popped a, Or.inr (Or.inl rfl), fun u => (hcount u).trans ?_⟩
      simp only [State.claims, Mem.claims, hw, Option.bind_some, h1]
      split_ifs <;> simp_all
    · refine ⟨.found a, Or.inr (Or.inr rfl), fun u => (hcount u).trans ?_⟩
      simp only [State.claims, Mem.claims, hw, Option.bind_some, h1]
      split_ifs <;> simp_all

/-- The claims after a step of a waker. -/
theorem Inv.waker_once (h : Inv s) (hw : s.waker a = some pc)
    (ha : Agent s s' a (s.mem.wakerStep p pc).1 (s.mem.wakerStep p pc).2) (hok : ¬s.Rash pc) (t : T) :
    Once (s'.claims t) := by
  have hsame := wakerStep_same (m := s.mem) (p := p) pc
  have hle := ha.claims_le (t := t) hsame.epoch
  have hfound := fun n => wakerStep_found s p pc (t := t) (n := n)
  have hwoke := woke s.mem p pc
  cases hwoke with
  | idle hr hwt hn hp hf =>
    refine (h.claimed.once t).mono fun l => hle l (hfound _) ?_
    cases l with
    | place q => exact congrFun hr q
    | parked c => exact congrFun hwt c
    | picked _ | timer => trivial
    | new b => exact fun _ he => by rw [hw]; exact hn t he
    | popped b => exact fun _ he => by rw [hw]; exact hp _ he
    | found b => exact fun _ he => by rw [hw]; exact hf _ he
  | pop c x q hr hc hwt hn hp hf =>
    refine (h.claimed.once t).move (a := .parked c) (b := .popped a) (by simp) ?_ fun l h1 h2 => hle l (hfound _) ?_
    · simp only [State.claims, Mem.claims, ha.mem, ha.hand, hsame.epoch, hwt, hc, Function.update_self, hp]
      rw [List.count_cons]
      split_ifs <;> simp_all
    · cases l with
      | place q => exact congrFun hr q
      | parked d => exact (congrFun hwt d).trans (Function.update_of_ne (by rintro rfl; exact h1 rfl) _ _)
      | picked _ | timer => trivial
      | new b => exact fun _ he => by rw [hn] at he; cases he
      | popped b => exact fun hb => absurd (by rw [hb]) h2
      | found b => exact fun _ he => by rw [hf] at he; cases he
  | find x hr hwt hfd hs hn hp hf =>
    have hrest : ∀ l, l ≠ Loc.found a → s'.claims t l ≤ s.claims t l := by
      intro l hl
      refine hle l (hfound _) ?_
      cases l with
      | place q => exact congrFun hr q
      | parked d => exact congrFun hwt d
      | picked _ | timer => trivial
      | new b => exact fun _ he => by rw [hn] at he; cases he
      | popped b => exact fun _ he => by rw [hp] at he; cases he
      | found b => exact fun hb => absurd (by rw [hb]) hl
    by_cases hx : x = (t, s.mem.epoch t)
    · subst hx
      refine Once.insert (h.find_free hw hfd hs fun ht => hok (Or.inr ⟨_, hfd, hs, ht⟩)) (b := .found a) ?_ hrest
      simp only [State.claims, Mem.claims]
      split_ifs <;> omega
    · refine (h.claimed.once t).mono fun l => ?_
      by_cases hl : l = .found a
      · subst hl
        simp only [State.claims, Mem.claims, ha.mem, ha.hand, hsame.epoch, hf]
        simp [hx]
      · exact hrest l hl
  | push u hr hwt hpush hn hp hf =>
    have hcur : pc.new = some u ∨ ∃ n, n = s.mem.epoch u ∧ pc.pushing = some (u, n) := by
      refine hpush.imp_right fun ⟨n, h1⟩ => ⟨n, ?_, h1⟩
      by_contra hne
      exact hok (Or.inl ⟨_, h1, Or.inl hne⟩)
    obtain ⟨l0, hl0, hcount⟩ : ∃ l : Loc W E C, (l = .new a ∨ l = .popped a ∨ l = .found a) ∧
        ∀ v, [u].count v ≤ s.claims v l := by
      rcases hcur with h1 | ⟨n, h1, h2⟩
      · exact pushed_held (n := 0) hw (Or.inl h1)
      · exact pushed_held (n := n) hw (Or.inr ⟨h1, h2⟩)
    have hzero : s'.claims t l0 = 0 := by
      rcases hl0 with rfl | rfl | rfl <;> simp [State.claims, Mem.claims, ha.hand, hn, hp, hf]
    refine (h.claimed.once t).move (a := l0) (b := .place p) (by rcases hl0 with rfl | rfl | rfl <;> simp) ?_
      fun l h1 h2 => hle l (hfound _) ?_
    · have h3 := hcount t
      have h4 : s'.claims t (.place p) = s.claims t (.place p) + [u].count t := by
        simp only [State.claims, Mem.claims, ha.mem, hr, Function.update_self, List.count_append]
      omega
    · cases l with
      | place q => exact (congrFun hr q).trans (Function.update_of_ne (by rintro rfl; exact h2 rfl) _ _)
      | parked d => exact congrFun hwt d
      | picked _ | timer => trivial
      | new b => exact fun _ he => by rw [hn] at he; cases he
      | popped b => exact fun _ he => by rw [hp] at he; cases he
      | found b => exact fun _ he => by rw [hf] at he; cases he

/-- Where the claims after a step of a waker come from. -/
inductive Origin (s : State W E T B C) (pc : WakerPc T B C) (t : T) (l : Loc W E C) : Prop
  | same (pos : 0 < s.claims t l)
  | popped (sync : l.Sync) (l' : Loc W E C) (sync' : l'.Sync) (pos : 0 < s.claims t l')
  | found (found : pc.finding = some (t, s.mem.epoch t)) (suspended : s.mem.taskState t = .suspended)
      (token : ¬l.Token) (sync : ¬l.Sync)
  | pushed (l' : Loc W E C) (pos : 0 < s.claims t l') (token : l'.Token ∨ pc.pushing = some (t, s.mem.epoch t))
      (sync : ¬l.Sync)

theorem Inv.waker_origin (hw : s.waker a = some pc)
    (ha : Agent s s' a (s.mem.wakerStep p pc).1 (s.mem.wakerStep p pc).2) (hok : ¬s.Rash pc) {l : Loc W E C}
    (hl : 0 < s'.claims t l) : Origin s pc t l := by
  have hsame := wakerStep_same (m := s.mem) (p := p) pc
  have hkept : Kept s a (s.mem.wakerStep p pc).1 (s.mem.wakerStep p pc).2 t l → Origin s pc t l := fun hk =>
    .same (hl.trans_le (ha.claims_le hsame.epoch l (wakerStep_found s p pc) hk))
  cases woke s.mem p pc with
  | idle hr hwt hn hp hf =>
    refine hkept ?_
    cases l with
    | place q => exact congrFun hr q
    | parked c => exact congrFun hwt c
    | picked _ | timer => trivial
    | new b => exact fun _ he => by rw [hw]; exact hn t he
    | popped b => exact fun _ he => by rw [hw]; exact hp _ he
    | found b => exact fun _ he => by rw [hw]; exact hf _ he
  | pop c x q hr hc hwt hn hp hf =>
    cases l with
    | place q => exact hkept (congrFun hr q)
    | picked _ | timer => exact hkept trivial
    | new b => exact hkept fun _ he => by rw [hn] at he; cases he
    | found b => exact hkept fun _ he => by rw [hf] at he; cases he
    | parked d =>
      by_cases hd : d = c
      · subst hd
        refine .popped trivial (.parked d) trivial ?_
        simp only [State.claims, Mem.claims, ha.mem, hsame.epoch, hwt, hc, Function.update_self,
          List.count_cons] at hl ⊢
        omega
      · exact hkept ((congrFun hwt d).trans (Function.update_of_ne hd _ _))
    | popped b =>
      by_cases hb : b = a
      · subst hb
        refine .popped trivial (.parked c) trivial ?_
        simp only [State.claims, Mem.claims, ha.mem, ha.hand, if_true, hsame.epoch, hp] at hl
        split_ifs at hl with hx
        · cases hx
          simp only [State.claims, Mem.claims, hc]
          exact List.count_pos_iff.mpr List.mem_cons_self
        · omega
      · exact hkept fun h1 => absurd h1 hb
  | find x hr hwt hfd hs hn hp hf =>
    cases l with
    | place q => exact hkept (congrFun hr q)
    | picked _ | timer => exact hkept trivial
    | parked d => exact hkept (congrFun hwt d)
    | new b => exact hkept fun _ he => by rw [hn] at he; cases he
    | popped b => exact hkept fun _ he => by rw [hp] at he; cases he
    | found b =>
      by_cases hb : b = a
      · subst hb
        simp only [State.claims, Mem.claims, ha.mem, ha.hand, if_true, hsame.epoch, hf] at hl
        split_ifs at hl with hx
        · cases hx
          exact .found hfd hs id id
        · omega
      · exact hkept fun h1 => absurd h1 hb
  | push u hr hwt hpush hn hp hf =>
    cases l with
    | parked d => exact hkept (congrFun hwt d)
    | picked _ | timer => exact hkept trivial
    | new b => exact hkept fun _ he => by rw [hn] at he; cases he
    | popped b => exact hkept fun _ he => by rw [hp] at he; cases he
    | found b => exact hkept fun _ he => by rw [hf] at he; cases he
    | place q =>
      by_cases hq : q = p
      · subst hq
        by_cases hut : u = t
        · subst hut
          rcases hpush with h1 | ⟨n, h1⟩
          · refine .pushed (.new a) ?_ (Or.inl trivial) id
            simp [State.claims, Mem.claims, hw, h1]
          · have hn : n = s.mem.epoch u := by
              by_contra hne
              exact hok (Or.inl ⟨_, h1, Or.inl hne⟩)
            subst hn
            obtain ⟨l0, _, hcount⟩ := pushed_held hw (Or.inr ⟨rfl, h1⟩)
            refine .pushed l0 ?_ (Or.inr h1) id
            have := hcount u
            rw [List.count_singleton_self] at this
            omega
        · refine .same ?_
          simp only [State.claims, Mem.claims, ha.mem, hr, Function.update_self, List.count_append,
            List.count_singleton] at hl ⊢
          rw [if_neg (by simpa using hut)] at hl
          omega
      · exact hkept ((congrFun hr q).trans (Function.update_of_ne hq _ _))

omit [DecidableEq W] [DecidableEq E] [DecidableEq B] [DecidableEq C] in
/-- A task that is found `SUSPENDED` is at stage 3, if it runs at all. -/
theorem Inv.found_stage (h : Inv s) (hw : s.waker a = some pc) (hf : pc.finding = some (t, s.mem.epoch t))
    (hs : s.mem.taskState t = .suspended) {v : W} {c : TaskPc T B C} (hv : s.worker v = .exec t c) : 3 ≤ c.stage := by
  have hentry : 0 < s.entries t (.batch a) := by
    simp only [State.entries, Mem.entries, hw]
    exact List.count_pos_iff.mpr (found_batch (Or.inr hf))
  have hfresh : ¬c.stage ≤ 1 := fun hc => by
    rw [h.entered.fresh v t c hv hc] at hentry
    omega
  by_contra hlt
  have hasleep : ¬c.Asleep := by
    have h2 : c.stage = 2 := by omega
    cases c with
    | wait b call pc => cases pc <;> first | exact id | cases h2
    | _ => first | exact id | cases h2
  exact h.awake t (Or.inr (Or.inr (Or.inr (Or.inl ⟨v, c, hv, hasleep⟩)))) hs

theorem Inv.waker_claimed (h : Inv s) (hw : s.waker a = some pc)
    (ha : Agent s s' a (s.mem.wakerStep p pc).1 (s.mem.wakerStep p pc).2) (hok : ¬s.Rash pc) : Claimed s' := by
  have hsame := wakerStep_same (m := s.mem) (p := p) pc
  refine h.claimed.frame (h.waker_once hw ha hok) ha.later (fun v t hv => by rw [← ha.current]; exact hv)
    (fun t hb => by rw [ha.mem, hsame.born] at hb; exact hb) (fun t l hl => ?_) fun t l htok hl => ?_
  · cases Inv.waker_origin hw ha hok hl with
    | same hpos => exact Or.inl ⟨l, hpos⟩
    | popped _ l' _ hpos => exact Or.inl ⟨l', hpos⟩
    | pushed l' hpos => exact Or.inl ⟨l', hpos⟩
    | found hf hs =>
      refine Or.inr ⟨?_, fun v c' hv => ?_⟩
      · rw [ha.mem, hsame.born]
        cases hb : s.mem.born t with
        | true => rfl
        | false => exact absurd hs (h.awake t (Or.inr (Or.inr (Or.inr (Or.inr hb)))))
      · obtain ⟨c, hc, rfl | ⟨_, h2, _⟩⟩ := ha.code v t c' hv
        · exact h.found_stage hw hf hs hc
        · omega
  · cases Inv.waker_origin hw ha hok hl with
    | same hpos => exact Or.inl ⟨l, htok, hpos⟩
    | popped hsync => exact absurd htok hsync.not_token
    | found _ _ hnot => exact absurd htok hnot
    | pushed l' hpos htok' =>
      rcases htok' with htok' | hpush
      · exact Or.inl ⟨l', htok', hpos⟩
      · refine Or.inr fun ⟨v, c, hv⟩ => hok (Or.inl ⟨_, hpush, Or.inr ⟨v, ?_⟩⟩)
        rw [hv]
        rfl

/-- What `Butex` knows of a task after a step of a waker it knew before, in at most one slot. -/
theorem Inv.waker_entries (h : Inv s) (hw : s.waker a = some pc)
    (ha : Agent s s' a (s.mem.wakerStep p pc).1 (s.mem.wakerStep p pc).2) :
    (∀ t, Once (s'.entries t)) ∧ ∀ t j, 0 < s'.entries t j → ∃ j', 0 < s.entries t j' := by
  have hsame := wakerStep_same (m := s.mem) (p := p) pc
  have hbatch : ∀ t b, s'.entries t (.batch b) =
      if b = a then ((s.mem.wakerStep p pc).2.elim [] WakerPc.batch).count (t, s.mem.epoch t) else
        s.entries t (.batch b) := by
    intro t b
    simp only [State.entries, Mem.entries, ha.mem, hsame.epoch, ha.waker]
    by_cases hb : b = a
    · subst hb; simp
    · simp [hb]
  have hold : ∀ t, s.entries t (.batch a) = pc.batch.count (t, s.mem.epoch t) := by
    intro t
    simp only [State.entries, Mem.entries, hw, Option.elim_some]
  rcases wakerStep_batch s.mem p pc with ⟨hq, hsub⟩ | ⟨b, q, hq, hsub, hcount⟩
  · have hle : ∀ t j, s'.entries t j ≤ s.entries t j := by
      intro t j
      cases j with
      | queue b => simp only [State.entries, Mem.entries, ha.mem, hsame.epoch, hq, le_refl]
      | batch b =>
        rw [hbatch]
        split_ifs with hb
        · subst hb
          rw [hold]
          exact hsub.count_le _
        · exact le_refl _
    exact ⟨fun t => (h.entered.once t).mono (hle t), fun t j hj => ⟨j, hj.trans_le (hle t j)⟩⟩
  · have hqueue : ∀ t d, s'.entries t (.queue d) =
        if d = b then q.count (t, s.mem.epoch t) else s.entries t (.queue d) := by
      intro t d
      simp only [State.entries, Mem.entries, ha.mem, hsame.epoch, hq]
      by_cases hd : d = b
      · subst hd; simp
      · simp [hd]
    have hqb : ∀ t, s.entries t (.queue b) = (s.mem.queue b).count (t, s.mem.epoch t) := fun t => rfl
    have hsum : ∀ t, s'.entries t (.queue b) + s'.entries t (.batch a) ≤
      s.entries t (.queue b) + s.entries t (.batch a) := by
      intro t
      rw [hqueue, if_pos rfl, hbatch, if_pos rfl, hold, hqb]
      exact hcount _
    have hle : ∀ t j, j ≠ .queue b → j ≠ .batch a → s'.entries t j ≤ s.entries t j := by
      intro t j h1 h2
      cases j with
      | queue d => rw [hqueue, if_neg (by rintro rfl; exact h1 rfl)]
      | batch d => rw [hbatch, if_neg (by rintro rfl; exact h2 rfl)]
    refine ⟨fun t => (h.entered.once t).move (by simp) (hsum t) (hle t), fun t j hj => ?_⟩
    by_cases h1 : j = .queue b ∨ j = .batch a
    · have h2 := hsum t
      by_cases h3 : 0 < s.entries t (.queue b)
      · exact ⟨_, h3⟩
      · refine ⟨.batch a, ?_⟩
        rcases h1 with rfl | rfl <;> omega
    · exact ⟨j, hj.trans_le (hle t j (fun h => h1 (Or.inl h)) fun h => h1 (Or.inr h))⟩

theorem Inv.waker_entered (h : Inv s) (hw : s.waker a = some pc)
    (ha : Agent s s' a (s.mem.wakerStep p pc).1 (s.mem.wakerStep p pc).2) (hok : ¬s.Rash pc) : Entered s' := by
  have hsame := wakerStep_same (m := s.mem) (p := p) pc
  obtain ⟨honce, hentry⟩ := h.waker_entries hw ha
  refine h.entered.frame honce ha.later (fun t j hj => Or.inl (hentry t j hj)) (fun t ht => Or.inl ?_)
    fun t l hl hpos => ?_
  · rw [ha.mem, hsame.epoch] at ht
    rcases wakerStep_timer s.mem p pc t (s.mem.epoch t) with h1 | ⟨h1, _⟩
    · rwa [h1] at ht
    · rw [h1]
      exact fun hn => by cases hn
  · cases Inv.waker_origin hw ha hok hpos with
    | same hpos => exact Or.inl ⟨l, hl, hpos⟩
    | popped _ l' hl' hpos => exact Or.inl ⟨l', hl', hpos⟩
    | found _ _ _ hnot | pushed _ _ _ hnot => exact absurd hl hnot

omit [DecidableEq T] [DecidableEq B] [DecidableEq C] in
theorem stored_of_pushing {pc : WakerPc T B C} {x : T × ℕ} (h : pc.pushing = some x) : pc.stored = some x := by
  cases pc with
  | butex b pc => cases pc <;> first | exact h | cases h
  | push c all y => exact h
  | _ => cases h

theorem Inv.waker_awake (h : Inv s) (hw : s.waker a = some pc)
    (ha : Agent s s' a (s.mem.wakerStep p pc).1 (s.mem.wakerStep p pc).2) (hok : ¬s.Rash pc) : Awake s' := by
  have hsame := wakerStep_same (m := s.mem) (p := p) pc
  obtain ⟨hst, hstored⟩ := wakerStep_state s.mem p pc
  refine h.awake.frame fun t hs hawk => ?_
  rw [ha.mem] at hs
  refine ⟨hst t hs, ?_⟩
  rcases hawk with ⟨l, htok, hpos⟩ | ⟨b, hb⟩ | htm | ⟨v, c', hv, hc⟩ | hb
  · cases Inv.waker_origin hw ha hok hpos with
    | same hpos => exact Or.inl ⟨l, htok, hpos⟩
    | popped hsync => exact absurd htok hsync.not_token
    | found _ _ hnot => exact absurd htok hnot
    | pushed l' hpos htok' =>
      rcases htok' with htok' | hpush
      · exact Or.inl ⟨l', htok', hpos⟩
      · exact Or.inr (Or.inl ⟨a, by rw [hw]; exact stored_of_pushing hpush⟩)
  · rw [ha.mem, hsame.epoch, ha.waker] at hb
    by_cases hba : b = a
    · subst hba
      rw [Function.update_self] at hb
      rcases hstored _ hb with h1 | h1
      · exact Or.inr (Or.inl ⟨b, by rw [hw]; exact h1⟩)
      · exact absurd hs h1
    · rw [Function.update_of_ne hba] at hb
      exact Or.inr (Or.inl ⟨b, hb⟩)
  · rw [ha.mem, hsame.epoch] at htm
    rcases wakerStep_timer s.mem p pc t (s.mem.epoch t) with h1 | ⟨_, h1⟩
    · rw [h1] at htm
      exact Or.inr (Or.inr (Or.inl htm))
    · rw [h1] at htm
      cases htm
  · obtain ⟨c, hcv, rfl | ⟨_, _, h3, _⟩⟩ := ha.code v t c' hv
    · exact Or.inr (Or.inr (Or.inr (Or.inl ⟨v, c', hcv, hc⟩)))
    · exact Or.inr (Or.inr (Or.inr (Or.inl ⟨v, c, hcv, h3⟩)))
  · rw [ha.mem, hsame.born] at hb
    exact Or.inr (Or.inr (Or.inr (Or.inr hb)))

end Wakers

end Cothread.Worker
