import Cothread.Lib.Once
import Cothread.Timer.TimerThread

/-!
# Where the entries and the timers are

An entry is free, or held by the `Schedule` that fills and inserts it, or in one heap (`Inv.own`). A timer goes
through phases: it gets an id and is `live` in one entry until it is taken for execution or reaped; the callback of a
taken timer starts once. `Inv s phase` says that every timer is in the phase that `phase` gives to its id.
-/

namespace Cothread.Timer

open Run Places

variable {P E C : Type*}

/-- The entry that the thread's `Schedule` holds. -/
def Pc.holds : Pc E C → Option E
  | .fill e _ _ | .assign e _ | .insert e _ _ => some e
  | _ => none

/-- The entry that the thread's `Schedule` has filled and not inserted yet. -/
def Pc.filled : Pc E C → Option E
  | .assign e _ | .insert e _ _ => some e
  | _ => none

/-- The timer whose callback the thread is about to start. -/
def Pc.calls : Pc E C → Option Int
  | .process _ _ (.call _ id _) => some id
  | _ => none

theorem Pc.holds_of_filled {pc : Pc E C} {e : E} (h : pc.filled = some e) : pc.holds = some e := by
  cases pc <;> first | exact h | cases h

/-- The entry carries a timer. -/
def State.Filled (s : State P E C) (e : E) : Prop :=
  (∃ i, e ∈ (s.shard i).heap) ∨ ∃ p, (s.pc p).bind Pc.filled = some e

/-- The callback of the timer is about to start, or has started. -/
def State.Taken (s : State P E C) (id : Int) : Prop := (∃ p, (s.pc p).bind Pc.calls = some id) ∨ s.started id ≠ []

/-- The phase of a timer. -/
inductive Phase (P E : Type*)
  | unborn
  | live (e : E)  -- in the entry
  | taken (p : P)  -- by the thread
  | started
  | reaped

/-- What is recorded of a timer in a phase. -/
def State.Fits (s : State P E C) (id : Int) : Phase P E → Prop
  | .unborn => s.marked id = false ∧ s.started id = []
  | .live e => s.Filled e ∧ (s.entry e).id = id ∧ s.timer id = some ((s.entry e).callback, (s.entry e).deadline) ∧
      s.marked id = (s.entry e).cancelled ∧ s.started id = []
  | .taken p => (s.pc p).bind Pc.calls = some id ∧ s.marked id = false ∧ s.started id = []
  | .started => s.marked id = false ∧ ∃ callback deadline t, s.timer id = some (callback, deadline) ∧
      s.started id = [(callback, t)] ∧ deadline ≤ t
  | .reaped => s.marked id = true ∧ s.started id = []

/-- What a thread's local values say. -/
def State.Ok (s : State P E C) (n : ℕ) : Pc E C → Prop
  | .acquire _ _ | .fill _ _ _ => 0 < n
  | .assign e id => (s.entry e).id = id ∧ 0 < n
  | .insert e id i => (s.entry e).id = id ∧ 0 ≤ i ∧ i < n
  | .process _ _ (.lock now) | .process _ _ (.loop now) => now ≤ s.clock
  | .process _ _ (.call now id callback) => now ≤ s.clock ∧ ∃ deadline, s.timer id = some (callback, deadline) ∧
      deadline ≤ now
  | .cancelled id _ true => s.marked id = true
  | _ => True

/-- A place of an entry. -/
inductive Place (P : Type*)
  | pool
  | thread (p : P)
  | heap (i : Int)
  deriving DecidableEq

variable [DecidableEq E]

def State.count (s : State P E C) (e : E) : Place P → ℕ
  | .pool => if s.free e then 1 else 0
  | .thread p => if (s.pc p).bind Pc.holds = some e then 1 else 0
  | .heap i => (s.shard i).heap.count e

/-- Every entry is in one place. -/
def State.Owned (s : State P E C) : Prop := ∀ e, Once (s.count e)

structure Inv (n : ℕ) (s : State P E C) (phase : Int → Phase P E) : Prop where
  own : s.Owned
  fits : ∀ id, s.Fits id (phase id)
  live : ∀ e, s.Filled e → phase (s.entry e).id = .live e
  calls : ∀ p id, (s.pc p).bind Pc.calls = some id → phase id = .taken p
  unborn : ∀ id, s.nextId ≤ id → phase id = .unborn
  ids : 0 ≤ s.nextId ∧ s.nextId < 2 ^ 31 ∧ 0 ≤ s.shardAssign ∧ s.shardAssign < 2 ^ 31
  heaps : ∀ i e, e ∈ (s.shard i).heap → 0 ≤ i ∧ i < n
  ok : ∀ p pc, s.pc p = some pc → s.Ok n pc

section Frame

variable {n : ℕ} {s t : State P E C} {phase : Int → Phase P E} {id : Int} {f : Phase P E}

omit [DecidableEq E] in
theorem State.Fits.congr (h : s.Fits id f) (hmarked : t.marked id = s.marked id)
    (hstarted : t.started id = s.started id) (htimer : t.timer id = s.timer id)
    (hlive : ∀ e, f = .live e → t.Filled e ∧ t.entry e = s.entry e)
    (htaken : ∀ p, f = .taken p → (t.pc p).bind Pc.calls = (s.pc p).bind Pc.calls) : t.Fits id f := by
  cases f with
  | unborn => exact ⟨hmarked.trans h.1, hstarted.trans h.2⟩
  | live e =>
    obtain ⟨-, hid, htim, hmark, hst⟩ := h
    obtain ⟨hf, he⟩ := hlive e rfl
    exact ⟨hf, by rwa [he], by rw [htimer, htim, he], by rw [hmarked, hmark, he], hstarted.trans hst⟩
  | taken p => exact ⟨(htaken p rfl).trans h.1, hmarked.trans h.2.1, hstarted.trans h.2.2⟩
  | started =>
    obtain ⟨hmark, callback, deadline, c, htim, hst, hle⟩ := h
    exact ⟨hmarked.trans hmark, callback, deadline, c, htimer.trans htim, hstarted.trans hst, hle⟩
  | reaped => exact ⟨hmarked.trans h.1, hstarted.trans h.2⟩

/-- An entry that is in the pool, or that a `Schedule` has not filled yet, carries no timer. -/
theorem not_filled {e : E} (hown : Once (s.count e)) {a : Place P} (ha : 0 < s.count e a) (hheap : ∀ i, a ≠ .heap i)
    (hthread : ∀ p, a = .thread p → (s.pc p).bind Pc.filled = none) : ¬s.Filled e := by
  rintro (⟨i, hi⟩ | ⟨p, hp⟩)
  · have hcount : 0 < s.count e (.heap i) := List.count_pos_iff.mpr hi
    exact hheap i (hown.unique ha hcount)
  · have hholds : (s.pc p).bind Pc.holds = some e := by
      obtain ⟨pc, hpc, hf⟩ := Option.bind_eq_some_iff.mp hp
      exact Option.bind_eq_some_iff.mpr ⟨pc, hpc, Pc.holds_of_filled hf⟩
    have hcount : 0 < s.count e (.thread p) := by
      rw [State.count, if_pos hholds]
      exact one_pos
    rw [hthread p (hown.unique ha hcount)] at hp
    cases hp

end Frame

/-! ## What a step has to keep -/

section Steps

variable {n : ℕ} {s t : State P E C} {phase : Int → Phase P E} {p : P} {c : Option (Pc E C)} {e : E}

omit [DecidableEq E] in
theorem bind_update [DecidableEq P] {α : Type*} {f : Pc E C → Option α} (hpc : t.pc = Function.update s.pc p c)
    (hf : c.bind f = (s.pc p).bind f) (q : P) : (t.pc q).bind f = (s.pc q).bind f := by
  rw [hpc]
  by_cases hq : q = p
  · subst hq
    rw [Function.update_self, hf]
  · rw [Function.update_of_ne hq]

omit [DecidableEq E] in
/-- One thread has gone on. -/
theorem pc_cases [DecidableEq P] (hpc : t.pc = Function.update s.pc p c) {q : P} {pc : Pc E C} (hq : t.pc q = some pc) :
    q = p ∧ c = some pc ∨ q ≠ p ∧ s.pc q = some pc := by
  rw [hpc, Function.update_apply] at hq
  split_ifs at hq with hqp
  · exact Or.inl ⟨hqp, hq⟩
  · exact Or.inr ⟨hqp, hq⟩

/-- Time may have passed, mutexes, cached deadlines and local values may have changed; the entries carry the same
timers. -/
structure Same (s t : State P E C) : Prop where
  clock : s.clock ≤ t.clock
  entry : t.entry = s.entry
  nextId : t.nextId = s.nextId
  timer : t.timer = s.timer
  marked : t.marked = s.marked
  started : t.started = s.started
  filled : ∀ e, t.Filled e ↔ s.Filled e

omit [DecidableEq E] in
theorem Same.ok (h : Same s t) {pc : Pc E C} (hok : s.Ok n pc) : t.Ok n pc := by
  have hclock := h.clock
  cases pc with
  | assign e id | insert e id i =>
    rw [State.Ok, h.entry]
    exact hok
  | process i outer pc =>
    cases pc with
    | clock => trivial
    | lock now | loop now => exact le_trans (α := Int) hok hclock
    | call now id callback =>
      rw [State.Ok, h.timer]
      exact ⟨hok.1.trans hclock, hok.2⟩
  | cancelled id known r =>
    cases r with
    | true => exact (congrFun h.marked id).trans hok
    | false => trivial
  | acquire | fill => exact hok
  | _ => trivial

/-- No timer changes its phase. -/
theorem Inv.same (h : Inv n s phase) (hs : Same s t) (hown : t.Owned)
    (hassign : 0 ≤ t.shardAssign ∧ t.shardAssign < 2 ^ 31)
    (hcalls : ∀ q, (t.pc q).bind Pc.calls = (s.pc q).bind Pc.calls)
    (hheaps : ∀ i e, e ∈ (t.shard i).heap → 0 ≤ i ∧ i < n) (hok : ∀ q pc, t.pc q = some pc → t.Ok n pc) :
    Inv n t phase := by
  refine ⟨hown, fun id => ?_, fun e he => ?_, fun q id hq => ?_, ?_, ?_, hheaps, hok⟩
  · refine (h.fits id).congr (congrFun hs.marked id) (congrFun hs.started id) (congrFun hs.timer id)
      (fun e he => ⟨(hs.filled e).mpr ?_, congrFun hs.entry e⟩) fun q _ => hcalls q
    have := h.fits id
    rw [he] at this
    exact this.1
  · rw [hs.entry]
    exact h.live e ((hs.filled e).mp he)
  · exact h.calls q id ((hcalls q).symm.trans hq)
  · rw [hs.nextId]
    exact h.unborn
  · rw [hs.nextId]
    exact ⟨h.ids.1, h.ids.2.1, hassign⟩

/-- **The timer `k`, and no other, changes its phase**: the one that the entry `e` carries, or that the thread `p` has
taken. -/
theorem Inv.change [DecidableEq P] (h : Inv n s phase) {k : Int} {f : Phase P E}
    (hpc : t.pc = Function.update s.pc p c) (hown : t.Owned) (hentry : ∀ d, d ≠ e → t.entry d = s.entry d)
    (hfilled : ∀ d, d ≠ e → (t.Filled d ↔ s.Filled d))
    (hrecord : ∀ id, id ≠ k → t.marked id = s.marked id ∧ t.started id = s.started id ∧ t.timer id = s.timer id)
    (hmine : ∀ id, phase id = .live e → id = k) (hcall : ∀ id, (s.pc p).bind Pc.calls = some id → id = k)
    (hlive : ∀ d, phase k = .live d → d = e) (htaken : ∀ q, phase k = .taken q → q = p) (hfits : t.Fits k f)
    (hnew : t.Filled e → f = .live e ∧ (t.entry e).id = k)
    (hcalls : ∀ id, c.bind Pc.calls = some id → id = k ∧ f = .taken p)
    (hnext : ∀ id, t.nextId ≤ id → id ≠ k ∧ s.nextId ≤ id)
    (hids : 0 ≤ t.nextId ∧ t.nextId < 2 ^ 31 ∧ 0 ≤ t.shardAssign ∧ t.shardAssign < 2 ^ 31)
    (hheaps : ∀ i e, e ∈ (t.shard i).heap → 0 ≤ i ∧ i < n)
    (hok : ∀ q pc, q ≠ p → s.pc q = some pc → t.Ok n pc) (hokp : ∀ pc, c = some pc → t.Ok n pc) :
    Inv n t (Function.update phase k f) := by
  have hself : ∀ {α : Type} (g : Pc E C → Option α), (t.pc p).bind g = c.bind g := fun g => by
    rw [hpc, Function.update_self]
  have hne : ∀ {α : Type} (g : Pc E C → Option α) {q}, q ≠ p → (t.pc q).bind g = (s.pc q).bind g := fun g q hq => by
    rw [hpc, Function.update_of_ne hq]
  refine ⟨hown, fun id => ?_, fun d hd => ?_, fun q id hq => ?_, fun id hid => ?_, hids, hheaps, fun q pc hq => ?_⟩
  · by_cases hid : id = k
    · subst hid
      rw [Function.update_self]
      exact hfits
    · rw [Function.update_of_ne hid]
      obtain ⟨hmarked, hstarted, htimer⟩ := hrecord id hid
      have hold := h.fits id
      refine hold.congr hmarked hstarted htimer (fun d hd => ?_) fun q hq => hne _ ?_
      · have hde : d ≠ e := fun hde => hid (hmine id (hde ▸ hd))
        rw [hd] at hold
        exact ⟨(hfilled d hde).mpr hold.1, hentry d hde⟩
      · rintro rfl
        rw [hq] at hold
        exact hid (hcall id hold.1)
  · by_cases hde : d = e
    · subst hde
      obtain ⟨hf, hid⟩ := hnew hd
      rw [hid, Function.update_self, hf]
    · have hold := h.live d ((hfilled d hde).mp hd)
      rw [hentry d hde, Function.update_of_ne, hold]
      exact fun hid => hde (hlive d (hid ▸ hold))
  · by_cases hqp : q = p
    · subst hqp
      rw [hself] at hq
      obtain ⟨rfl, hf⟩ := hcalls id hq
      rw [Function.update_self, hf]
    · rw [hne _ hqp] at hq
      have hold := h.calls q id hq
      rw [Function.update_of_ne, hold]
      exact fun hid => hqp (htaken q (hid ▸ hold))
  · obtain ⟨hid, hle⟩ := hnext id hid
    rw [Function.update_of_ne hid]
    exact h.unborn id hle
  · obtain ⟨rfl, hq⟩ | ⟨hqp, hq⟩ := pc_cases hpc hq
    · exact hokp pc hq
    · exact hok q pc hqp hq

/-- No entry moves. -/
theorem State.Owned.stay (h : s.Owned) (hfree : t.free = s.free) (hheap : ∀ i, (t.shard i).heap = (s.shard i).heap)
    (hholds : ∀ q, (t.pc q).bind Pc.holds = (s.pc q).bind Pc.holds) : t.Owned := by
  refine fun d => (h d).mono fun a => ?_
  cases a with
  | pool => rw [State.count, State.count, hfree]
  | thread q => rw [State.count, State.count, hholds]
  | heap i => rw [State.count, State.count, hheap]

/-- One entry moves, from one place to another. -/
theorem State.Owned.move (h : s.Owned) {a b : Place P} (hne : a ≠ b)
    (hmove : t.count e a + t.count e b ≤ s.count e a + s.count e b)
    (hrest : ∀ x, x ≠ a → x ≠ b → t.count e x ≤ s.count e x)
    (hother : ∀ d, d ≠ e → ∀ x, t.count d x ≤ s.count d x) : t.Owned := by
  intro d
  by_cases hd : d = e
  · subst hd
    exact (h d).move hne hmove hrest
  · exact (h d).mono (hother d hd)

/-- No entry and no timer changes. -/
structure Still (s t : State P E C) : Prop where
  clock : s.clock ≤ t.clock
  entry : t.entry = s.entry
  free : t.free = s.free
  heap : ∀ i, (t.shard i).heap = (s.shard i).heap
  nextId : t.nextId = s.nextId
  timer : t.timer = s.timer
  marked : t.marked = s.marked
  started : t.started = s.started

theorem Inv.still (h : Inv n s phase) (hs : Still s t) (hassign : 0 ≤ t.shardAssign ∧ t.shardAssign < 2 ^ 31)
    (hholds : ∀ q, (t.pc q).bind Pc.holds = (s.pc q).bind Pc.holds)
    (hfilled : ∀ q, (t.pc q).bind Pc.filled = (s.pc q).bind Pc.filled)
    (hcalls : ∀ q, (t.pc q).bind Pc.calls = (s.pc q).bind Pc.calls)
    (hok : ∀ q pc, t.pc q = some pc → s.pc q = some pc ∨ t.Ok n pc) : Inv n t phase := by
  have hsame : Same s t := ⟨hs.clock, hs.entry, hs.nextId, hs.timer, hs.marked, hs.started, fun e => by
    simp only [State.Filled, hs.heap, hfilled]⟩
  refine h.same hsame (h.own.stay hs.free hs.heap hholds) hassign hcalls (fun i e he => ?_) fun q pc hq => ?_
  · rw [hs.heap] at he
    exact h.heaps i e he
  · exact (hok q pc hq).elim (fun hq => hsame.ok (h.ok q pc hq)) id

end Steps

end Cothread.Timer
