import Cothread.Sync.CondWorkers
import Mathlib.Data.Finset.Card
import Mathlib.Data.Fintype.EquivFin
import Mathlib.Data.List.Perm.Basic
import Mathlib.Logic.Nontrivial.Basic

/-!
# How many coroutines it takes to lose all workers

A worker in `WaitAwaiter::await_resume` keeps the coroutine that it executes, and no coroutine is executed twice. So all
workers are lost only when there are as many coroutines, and someone else owns the mutex or has wanted it.

- **one place for each coroutine** (`Placed`, `Inv.placed`): it is in one queue, or executed by one worker;
- **the threshold** (`exists_deadlocked_iff`): some run loses all workers exactly when there are two coroutines, and at
  least as many coroutines as workers. With fewer, no order of steps does.

The owner of the mutex is not needed at the end: `Mutex::unlock` clears `LOCKED` and leaves `HAS_WAITERS`, so that the
word is not 0 though nobody owns the mutex.
-/

namespace Cothread.CondWorkers

open Run

variable {C W : Type*}

/-- The coroutine that a worker executes. -/
def WorkerPc.coro : WorkerPc C → Option C
  | .idle => none
  | .runs x | .tries x | .marks x | .retries x | .unmarks x | .parks x | .clears x _ | .enqueues x | .spins x => some x

/-- The coroutines in all queues. -/
def State.queued (s : State C W) : List C := s.ready ++ s.asleep ++ s.lockers ++ s.waiters

/-! ## One place for each coroutine -/

/-- Nobody is in two queues, or executed by two workers, or queued and executed. -/
structure Placed (q : List C) (frame : C → Frame) (worker : W → WorkerPc C) : Prop where
  nodup : q.Nodup
  queued : ∀ x ∈ q, frame x ≠ .executed ∧ frame x ≠ .unborn
  executed : ∀ w x, (worker w).coro = some x → frame x = .executed
  distinct : ∀ w v x, (worker w).coro = some x → (worker v).coro = some x → w = v

namespace Placed

variable [DecidableEq C] [DecidableEq W] {q q' : List C} {frame : C → Frame} {worker : W → WorkerPc C} {w : W} {x : C}
  {f : Frame} {pc : WorkerPc C}

omit [DecidableEq C] [DecidableEq W] in
theorem perm (h : Placed q frame worker) (hq : q'.Perm q) : Placed q' frame worker where
  nodup := hq.nodup_iff.mpr h.nodup
  queued x hx := h.queued x (hq.mem_iff.mp hx)
  executed := h.executed
  distinct := h.distinct

omit [DecidableEq C] [DecidableEq W] in
/-- Who is executed is in no queue. -/
theorem notMem (h : Placed q frame worker) (hw : (worker w).coro = some x) : x ∉ q :=
  fun hx => (h.queued x hx).1 (h.executed w x hw)

omit [DecidableEq C] [DecidableEq W] in
theorem enqueue (h : Placed q frame worker) (hx : x ∉ q) (hexec : frame x ≠ .executed) (hborn : frame x ≠ .unborn) :
    Placed (x :: q) frame worker where
  nodup := List.nodup_cons.mpr ⟨hx, h.nodup⟩
  queued y hy := by
    obtain rfl | hy := List.mem_cons.mp hy
    · exact ⟨hexec, hborn⟩
    · exact h.queued y hy
  executed := h.executed
  distinct := h.distinct

omit [DecidableEq W] in
/-- The frame of a coroutine that no worker executes. -/
theorem setFrame (h : Placed q frame worker) (hx : x ∉ q) (hnot : ∀ w, (worker w).coro ≠ some x) :
    Placed q (Function.update frame x f) worker where
  nodup := h.nodup
  queued y hy := by
    have hyx : y ≠ x := fun hyx => hx (hyx ▸ hy)
    rw [Function.update_of_ne hyx]
    exact h.queued y hy
  executed w y hy := by
    have hyx : y ≠ x := fun hyx => hnot w (hyx ▸ hy)
    rw [Function.update_of_ne hyx]
    exact h.executed w y hy
  distinct := h.distinct

omit [DecidableEq C] in
theorem goto (h : Placed q frame worker) (hpc : pc.coro = none ∨ pc.coro = (worker w).coro) :
    Placed q frame (Function.update worker w pc) := by
  have hsame (v : W) (y : C) (hv : (Function.update worker w pc v).coro = some y) : (worker v).coro = some y := by
    by_cases hvw : v = w
    · subst hvw
      rw [Function.update_self] at hv
      obtain hpc | hpc := hpc
      · rw [hpc] at hv
        cases hv
      · rwa [← hpc]
    · rwa [Function.update_of_ne hvw] at hv
  exact {
    nodup := h.nodup
    queued := h.queued
    executed v y hv := h.executed v y (hsame v y hv)
    distinct v u y hv hu := h.distinct v u y (hsame v y hv) (hsame u y hu) }

omit [DecidableEq C] in
/-- No other worker executes it. -/
theorem not_coro (h : Placed q frame worker) (hw : (worker w).coro = some x) (v : W) :
    (Function.update worker w .idle v).coro ≠ some x := by
  intro hv
  by_cases hvw : v = w
  · simp [hvw, WorkerPc.coro] at hv
  · rw [Function.update_of_ne hvw] at hv
    exact hvw (h.distinct v w x hv hw)

/-- A worker leaves the coroutine that it executed. -/
theorem leave (h : Placed q frame worker) (hw : (worker w).coro = some x) :
    Placed q (Function.update frame x f) (Function.update worker w .idle) :=
  (h.goto (.inl rfl)).setFrame (h.notMem hw) (h.not_coro hw)

/-- A worker leaves the coroutine that it executed in a queue. -/
theorem suspend (h : Placed q frame worker) (hw : (worker w).coro = some x) (hexec : f ≠ .executed)
    (hborn : f ≠ .unborn) : Placed (x :: q) (Function.update frame x f) (Function.update worker w .idle) :=
  (h.leave hw).enqueue (h.notMem hw) (by rwa [Function.update_self]) (by rwa [Function.update_self])

/-- A worker takes a coroutine out of a queue. -/
theorem take (h : Placed (x :: q) frame worker) (hpc : pc.coro = some x) :
    Placed q (Function.update frame x .executed) (Function.update worker w pc) := by
  obtain ⟨hx, hnodup⟩ := List.nodup_cons.mp h.nodup
  have hnot (v : W) : (worker v).coro ≠ some x := fun hv => h.notMem hv List.mem_cons_self
  have hsame (v : W) (y : C) (hv : (Function.update worker w pc v).coro = some y) :
      v = w ∧ y = x ∨ (worker v).coro = some y := by
    by_cases hvw : v = w
    · subst hvw
      rw [Function.update_self, hpc] at hv
      exact .inl ⟨rfl, (Option.some.inj hv).symm⟩
    · rw [Function.update_of_ne hvw] at hv
      exact .inr hv
  refine ⟨hnodup, fun y hy => ?_, fun v y hv => ?_, fun v u y hv hu => ?_⟩
  · have hyx : y ≠ x := fun hyx => hx (hyx ▸ hy)
    rw [Function.update_of_ne hyx]
    exact h.queued y (List.mem_cons_of_mem x hy)
  · obtain ⟨-, rfl⟩ | hv := hsame v y hv
    · rw [Function.update_self]
    · have hyx : y ≠ x := fun hyx => hnot v (hyx ▸ hv)
      rw [Function.update_of_ne hyx]
      exact h.executed v y hv
  · obtain ⟨hvw, hyx⟩ | hv := hsame v y hv
    · obtain ⟨huw, -⟩ | hu := hsame u y hu
      · rw [hvw, huw]
      · exact absurd (hyx ▸ hu) (hnot u)
    · obtain ⟨-, hyx⟩ | hu := hsame u y hu
      · exact absurd (hyx ▸ hv) (hnot v)
      · exact h.distinct v u y hv hu

end Placed

/-! ## The invariant -/

/-- The worker has released the mutex in `wait_async` for a coroutine, and has not taken it again. -/
def WorkerPc.Waits (x : C) : WorkerPc C → Prop
  | .enqueues y | .spins y => y = x
  | _ => False

/-- The worker has found the mutex taken, and `HAS_WAITERS` may not be set yet. -/
def WorkerPc.Wants : WorkerPc C → Prop
  | .tries _ | .marks _ => True
  | _ => False

structure Inv (s : State C W) : Prop where
  placed : Placed s.queued s.frame s.worker
  lockers : ∀ x ∈ s.lockers, s.frame x = .locks
  owned : s.locked = true → ∃ x, s.owner = some x
  owner : ∀ x, s.owner = some x → s.frame x ≠ .waits ∧ ∀ w, ¬(s.worker w).Waits x
  wanted : (∃ w, (s.worker w).Wants) → Nontrivial C
  contended : s.hasWaiters = true → Nontrivial C

section Steps

variable [DecidableEq C] [DecidableEq W] {s t : State C W} {w : W} {x y : C} {f : Frame} {pc : WorkerPc C}
  {l : Label C W}

omit [DecidableEq C] [DecidableEq W] in
theorem WorkerPc.Waits.coro (h : pc.Waits x) : pc.coro = some x := by
  cases pc with
  | enqueues y | spins y =>
    cases h
    rfl
  | _ => cases h

omit [DecidableEq C] [DecidableEq W] in
theorem Inv.start : Inv (State.start C W) where
  placed := {
    nodup := List.nodup_nil
    queued x h := by cases h
    executed w x h := by cases h
    distinct w v x h := by cases h }
  lockers x h := by cases h
  owned h := by cases h
  owner x h := by cases h
  wanted h := by
    obtain ⟨w, hw⟩ := h
    cases hw
  contended h := by cases h

omit [DecidableEq C] [DecidableEq W] in
theorem mem_queued_of_lockers (hx : x ∈ s.lockers) : x ∈ s.queued := by
  simp [State.queued, hx]

omit [DecidableEq W] in
theorem State.count_queued (s : State C W) (z : C) :
    s.queued.count z = s.ready.count z + s.asleep.count z + s.lockers.count z + s.waiters.count z := by
  simp only [State.queued, List.count_append]

omit [DecidableEq W] in
/-- The frame of a coroutine that is neither queued nor executed. -/
theorem Inv.setFrame (h : Inv s) (hx : x ∉ s.queued) (hnot : ∀ w, (s.worker w).coro ≠ some x)
    (hf : f = .waits → s.owner ≠ some x) : Inv (s.setFrame x f) where
  placed := h.placed.setFrame hx hnot
  lockers y hy := by
    have hyx : y ≠ x := fun hyx => hx (mem_queued_of_lockers (hyx ▸ hy))
    simp only [State.setFrame, Function.update_of_ne hyx]
    exact h.lockers y hy
  owned := h.owned
  owner y hy := by
    refine ⟨fun hframe => ?_, (h.owner y hy).2⟩
    by_cases hyx : y = x
    · simp only [State.setFrame, hyx, Function.update_self] at hframe
      exact hf hframe (hyx ▸ hy)
    · simp only [State.setFrame, Function.update_of_ne hyx] at hframe
      exact (h.owner y hy).1 hframe
  wanted := h.wanted
  contended := h.contended

omit [DecidableEq C] in
/-- A worker goes on with the coroutine that it executes, or leaves it. -/
theorem Inv.goto (h : Inv s) (hcoro : pc.coro = none ∨ pc.coro = (s.worker w).coro)
    (hwaits : ∀ x, pc.Waits x → s.owner ≠ some x) (hwants : pc.Wants → Nontrivial C) : Inv (s.goto w pc) where
  placed := h.placed.goto hcoro
  lockers := h.lockers
  owned := h.owned
  owner y hy := by
    refine ⟨(h.owner y hy).1, fun v hv => ?_⟩
    by_cases hvw : v = w
    · simp only [State.goto, hvw, Function.update_self] at hv
      exact hwaits y hv hy
    · simp only [State.goto, Function.update_of_ne hvw] at hv
      exact (h.owner y hy).2 v hv
  wanted := by
    rintro ⟨v, hv⟩
    by_cases hvw : v = w
    · simp only [State.goto, hvw, Function.update_self] at hv
      exact hwants hv
    · simp only [State.goto, Function.update_of_ne hvw] at hv
      exact h.wanted ⟨v, hv⟩
  contended := h.contended

/-- A worker leaves the coroutine that it executes. -/
theorem Inv.leave (h : Inv s) (hw : (s.worker w).coro = some x) (hf : f = .waits → s.owner ≠ some x) :
    Inv ((s.setFrame x f).goto w .idle) := by
  have hgoto : Inv (s.goto w .idle) := h.goto (.inl rfl) (fun y hy => hy.elim) fun hwants => hwants.elim
  exact hgoto.setFrame (h.placed.notMem hw) (h.placed.not_coro hw) hf

omit [DecidableEq C] [DecidableEq W] in
/-- `try_lock` succeeds for a coroutine that is executed, and is not in `wait_async` any more. -/
theorem Inv.take (h : Inv s) (hw : (s.worker w).coro = some x) (hnot : ¬(s.worker w).Waits x) : Inv (s.take x) where
  placed := h.placed
  lockers := h.lockers
  owned _ := ⟨x, rfl⟩
  owner y hy := by
    cases hy
    refine ⟨fun hframe => ?_, fun v hv => ?_⟩
    · have hexec := h.placed.executed w x hw
      rw [show s.frame x = .waits from hframe] at hexec
      cases hexec
    · rw [show v = w from h.placed.distinct v w x hv.coro hw] at hv
      exact hnot hv
  wanted := h.wanted
  contended := h.contended

omit [DecidableEq C] [DecidableEq W] in
/-- `CondVar::notify_one`. -/
theorem Inv.notifyOne (h : Inv s) : Inv s.notifyOne := by
  classical
  unfold State.notifyOne
  split
  · exact h
  · next y ys hy =>
    refine { h with placed := h.placed.perm (List.perm_iff_count.mpr fun z => ?_) }
    simp only [State.count_queued, hy, List.count_append, List.count_cons, List.count_nil]
    omega

/-- `Mutex::unlock`: the next owner is another, who is in `lock_async`. -/
theorem Inv.unlock (h : Inv s) (hw : s.worker w = .runs x) (waits : Bool) : Inv (s.unlock w x waits) := by
  have hcoro : (s.worker w).coro = some x := by rw [hw]; rfl
  have hsame : (WorkerPc.unlocked x waits).coro = some x := by cases waits <;> rfl
  have hmember (y : C) (hy : (WorkerPc.unlocked x waits).Waits y) : y = x := by
    rw [hy.coro] at hsame
    exact Option.some.inj hsame
  unfold State.unlock
  split
  · exact h.goto (.inr hcoro.symm) (fun y hy => hy.elim) fun hwants => hwants.elim
  · next y ys hy =>
    have hlocks := h.lockers y (by rw [hy]; exact List.mem_cons_self)
    have hnot (v : W) : (s.worker v).coro ≠ some y := by
      intro hv
      have hexec := h.placed.executed v y hv
      rw [hlocks] at hexec
      cases hexec
    have hgiven : Inv { s with lockers := ys, owner := some y, ready := s.ready ++ [y] } := {
      placed := by
        refine h.placed.perm (List.perm_iff_count.mpr fun z => ?_)
        simp only [State.count_queued, hy, List.count_append, List.count_cons, List.count_nil]
        omega
      lockers z hz := h.lockers z (by rw [hy]; exact List.mem_cons_of_mem y hz)
      owned _ := ⟨y, rfl⟩
      owner z hz := by
        cases hz
        refine ⟨fun hframe => ?_, fun v hv => hnot v hv.coro⟩
        rw [show s.frame y = .waits from hframe] at hlocks
        cases hlocks
      wanted := h.wanted
      contended := h.contended }
    refine hgiven.goto (.inr ?_) (fun z hz hyz => ?_) fun hwants => ?_
    · rw [hsame]
      exact hcoro.symm
    · cases hyz
      exact hnot w (hmember y hz ▸ hcoro)
    · cases waits <;> cases hwants

/-- A worker picks a coroutine, which waits when it was suspended in `wait_async`. -/
theorem Inv.pick (h : Inv s) (hx : x ∈ s.ready) (hpc : pc = .runs x ∨ pc = .spins x ∧ s.frame x = .waits) :
    Inv ({ s.setFrame x .executed with ready := s.ready.erase x }.goto w pc) := by
  have hperm : (x :: (s.ready.erase x ++ s.asleep ++ s.lockers ++ s.waiters)).Perm s.queued :=
    (((List.perm_cons_erase hx).symm.append_right _).append_right _).append_right _
  have hplaced := h.placed.perm hperm
  have hcoro : pc.coro = some x := by obtain rfl | ⟨rfl, -⟩ := hpc <;> rfl
  exact {
    placed := hplaced.take hcoro
    lockers y hy := by
      have hyx : y ≠ x := by
        rintro rfl
        exact (List.nodup_cons.mp hplaced.nodup).1 (List.mem_append_left _ (List.mem_append_right _ hy))
      simp only [State.goto, State.setFrame, Function.update_of_ne hyx]
      exact h.lockers y hy
    owned := h.owned
    owner y hy := by
      refine ⟨fun hframe => ?_, fun v hv => ?_⟩
      · by_cases hyx : y = x
        · simp [State.goto, State.setFrame, hyx] at hframe
        · simp only [State.goto, State.setFrame, Function.update_of_ne hyx] at hframe
          exact (h.owner y hy).1 hframe
      · by_cases hvw : v = w
        · simp only [State.goto, hvw, Function.update_self] at hv
          have hyx : y = x := Option.some.inj (hv.coro.symm.trans hcoro)
          obtain rfl | ⟨-, hwaits⟩ := hpc
          · exact hv.elim
          · exact (h.owner y hy).1 (hyx ▸ hwaits)
        · simp only [State.goto, Function.update_of_ne hvw] at hv
          exact (h.owner y hy).2 v hv
    wanted := by
      rintro ⟨v, hv⟩
      by_cases hvw : v = w
      · simp only [State.goto, hvw, Function.update_self] at hv
        obtain rfl | ⟨rfl, -⟩ := hpc <;> cases hv
      · simp only [State.goto, Function.update_of_ne hvw] at hv
        exact h.wanted ⟨v, hv⟩
    contended := h.contended }

omit [DecidableEq C] [DecidableEq W] in
/-- Who does not own the mutex, and finds it taken, is not alone. -/
theorem Inv.nontrivial (h : Inv s) (hfree : s.free = false) (hx : s.owner ≠ some x) : Nontrivial C := by
  cases hl : s.locked with
  | false =>
    refine h.contended ?_
    simpa [State.free, hl] using hfree
  | true =>
    obtain ⟨y, hy⟩ := h.owned hl
    exact ⟨x, y, fun hxy => hx (by rw [hy, hxy])⟩

/-- **What an access keeps.** -/
theorem Inv.access (h : Inv s) (hst : s.access w (s.worker w) = some t) : Inv t := by
  cases hw : s.worker w with
  | idle | runs x =>
    rw [hw] at hst
    cases hst
  | tries x =>
    simp only [hw, State.access] at hst
    cases hst
    have hcoro : (s.worker w).coro = some x := by rw [hw]; rfl
    split
    · have htake : Inv (s.take x) := h.take hcoro (by rw [hw]; exact id)
      exact htake.goto (.inr hcoro.symm) (fun y hy => hy.elim) fun hwants => hwants.elim
    · exact h.goto (.inr hcoro.symm) (fun y hy => hy.elim) fun _ => h.wanted ⟨w, by rw [hw]; trivial⟩
  | marks x =>
    rw [hw] at hst
    cases hst
    have hmark : Inv { s with hasWaiters := true } :=
      { h with contended := fun _ => h.wanted ⟨w, by rw [hw]; trivial⟩ }
    exact hmark.goto (.inr (by rw [hw]; rfl)) (fun y hy => hy.elim) fun hwants => hwants.elim
  | retries x =>
    simp only [hw, State.access] at hst
    cases hst
    have hcoro : (s.worker w).coro = some x := by rw [hw]; rfl
    split
    · have htake : Inv (s.take x) := h.take hcoro (by rw [hw]; exact id)
      exact htake.goto (.inr hcoro.symm) (fun y hy => hy.elim) fun hwants => hwants.elim
    · exact h.goto (.inr hcoro.symm) (fun y hy => hy.elim) fun hwants => hwants.elim
  | unmarks x =>
    rw [hw] at hst
    cases hst
    have hunmark : Inv { s with hasWaiters := false } :=
      { h with contended := fun hword => absurd hword Bool.false_ne_true }
    exact hunmark.goto (.inr (by rw [hw]; rfl)) (fun y hy => hy.elim) fun hwants => hwants.elim
  | parks x =>
    rw [hw] at hst
    cases hst
    have hcoro : (s.worker w).coro = some x := by rw [hw]; rfl
    have hleave : Inv ((s.setFrame x .locks).goto w .idle) := h.leave hcoro fun hf => by cases hf
    have hplaced := h.placed.suspend (f := .locks) hcoro (by simp) (by simp)
    refine {
      hleave with
      placed := hplaced.perm (List.perm_iff_count.mpr fun z => ?_)
      lockers := fun y hy => ?_ }
    · simp only [State.goto, State.setFrame, State.count_queued, List.count_append, List.count_cons, List.count_nil]
      omega
    · obtain hy | hy := List.mem_append.mp hy
      · exact hleave.lockers y hy
      · rw [List.mem_singleton.mp hy]
        simp [State.goto, State.setFrame]
  | clears x waits =>
    rw [hw] at hst
    cases hst
    have hclear : Inv { s with locked := false, owner := none } :=
      { h with
        owned := fun hlocked => absurd hlocked Bool.false_ne_true
        owner := fun y hy => by cases hy }
    refine hclear.goto (.inr ?_) (fun y _ hy => by cases hy) fun hwants => ?_
    · rw [hw]
      cases waits <;> rfl
    · cases waits <;> exact hwants.elim
  | enqueues x =>
    rw [hw] at hst
    cases hst
    have hcoro : (s.worker w).coro = some x := by rw [hw]; rfl
    have hleave : Inv ((s.setFrame x .waits).goto w .idle) :=
      h.leave hcoro fun _ howner => (h.owner x howner).2 w (by rw [hw]; rfl)
    have hplaced := h.placed.suspend (f := .waits) hcoro (by simp) (by simp)
    refine { hleave with placed := hplaced.perm (List.perm_iff_count.mpr fun z => ?_) }
    simp only [State.goto, State.setFrame, State.count_queued, List.count_append, List.count_cons, List.count_nil]
    omega
  | spins x =>
    simp only [hw, State.access] at hst
    cases hst
    split
    · have hgoto : Inv (s.goto w (.runs x)) :=
        h.goto (.inr (by rw [hw]; rfl)) (fun y hy => hy.elim) fun hwants => hwants.elim
      have hruns : (s.goto w (.runs x)).worker w = .runs x := by simp [State.goto]
      exact hgoto.take (w := w) (by rw [hruns]; rfl) (by rw [hruns]; exact id)
    · exact h

/-- **The step lemma.** -/
theorem Inv.step (h : Inv s) (hst : step s l = some t) : Inv t := by
  have hruns {w : W} {x : C} (hw : s.worker w = .runs x) : (s.worker w).coro = some x := by rw [hw]; rfl
  cases l with
  | spawn x =>
    obtain ⟨hborn, hst⟩ := Option.ite_none_right_eq_some.mp hst
    cases hst
    have hx : x ∉ s.queued := fun hx => (h.placed.queued x hx).2 hborn
    have hnot (w : W) : (s.worker w).coro ≠ some x := by
      intro hw
      have hexec := h.placed.executed w x hw
      rw [hborn] at hexec
      cases hexec
    have hframe : Inv (s.setFrame x .start) := h.setFrame hx hnot fun hf => by cases hf
    have hplaced := hframe.placed.enqueue hx (by simp [State.setFrame]) (by simp [State.setFrame])
    refine { hframe with placed := hplaced.perm (List.perm_iff_count.mpr fun z => ?_) }
    simp only [State.setFrame, State.count_queued, List.count_append, List.count_cons, List.count_nil]
    omega
  | pick w x =>
    obtain ⟨⟨-, hx⟩, hst⟩ := Option.ite_none_right_eq_some.mp hst
    cases hst
    refine h.pick hx ?_
    split
    · next hwaits => exact .inr ⟨rfl, hwaits⟩
    · exact .inl rfl
  | lock w =>
    simp only [CondWorkers.step] at hst
    split at hst
    · next x hw =>
      obtain ⟨howner, hst⟩ := Option.ite_none_left_eq_some.mp hst
      cases hst
      split
      · exact h.take (hruns hw) (by rw [hw]; exact id)
      · next hfree =>
        have hnontrivial := h.nontrivial (Bool.eq_false_iff.mpr hfree) howner
        exact h.goto (.inr (hruns hw).symm) (fun y hy => hy.elim) fun _ => hnontrivial
    · cases hst
  | unlock w | wait w =>
    simp only [CondWorkers.step] at hst
    split at hst
    · next x hw =>
      obtain ⟨-, hst⟩ := Option.ite_none_right_eq_some.mp hst
      cases hst
      exact h.unlock hw _
    · cases hst
  | notify w =>
    simp only [CondWorkers.step] at hst
    split at hst
    · cases hst
      exact h.notifyOne
    · cases hst
  | notifyOutside =>
    cases hst
    exact h.notifyOne
  | sleep w =>
    simp only [CondWorkers.step] at hst
    split at hst
    · next x hw =>
      cases hst
      have hleave : Inv ((s.setFrame x .sleeps).goto w .idle) := h.leave (hruns hw) fun hf => by cases hf
      have hplaced := h.placed.suspend (f := .sleeps) (hruns hw) (by simp) (by simp)
      refine { hleave with placed := hplaced.perm (List.perm_iff_count.mpr fun z => ?_) }
      simp only [State.goto, State.setFrame, State.count_queued, List.count_append, List.count_cons, List.count_nil]
      omega
    · cases hst
  | wake x =>
    obtain ⟨hx, hst⟩ := Option.ite_none_right_eq_some.mp hst
    cases hst
    refine { h with placed := h.placed.perm (List.perm_iff_count.mpr fun z => ?_) }
    have hcount := (List.perm_cons_erase hx).count_eq z
    simp only [State.count_queued, List.count_append, List.count_cons, List.count_nil] at hcount ⊢
    omega
  | finish w =>
    simp only [CondWorkers.step] at hst
    split at hst
    · next x hw =>
      cases hst
      exact h.leave (hruns hw) fun hf => by cases hf
    · cases hst
  | worker w => exact h.access hst

theorem inv_reachable (hs : Reachable (system C W) s) : Inv s := by
  refine hs.invariant (fun s hs => ?_) fun s t l h _ hst => h.step hst
  cases hs
  exact Inv.start

end Steps

/-! ## Too few coroutines -/

section TooFew

variable [DecidableEq C] [DecidableEq W] {s : State C W}

/-- A coroutine that waits does not own the mutex, and is executed by one worker. -/
theorem enough_of_deadlocked [Nonempty W] (hs : Reachable (system C W) s) (hlost : Deadlocked s) :
    Nontrivial C ∧ ∃ f : W → C, Function.Injective f := by
  have h := inv_reachable hs
  obtain ⟨hspins, hword⟩ := deadlocked_iff.mp hlost
  choose f hf using hspins
  refine ⟨?_, f, fun w v hwv => ?_⟩
  · obtain hlocked | hwaiters := hword
    · obtain ⟨w⟩ := ‹Nonempty W›
      obtain ⟨x, hx⟩ := h.owned hlocked
      refine ⟨x, f w, ?_⟩
      rintro rfl
      exact (h.owner (f w) hx).2 w (by rw [hf w]; rfl)
    · exact h.contended hwaiters
  · exact h.placed.distinct w v (f w) (by rw [hf w]; rfl) (by rw [hf v, hwv]; rfl)

end TooFew

/-! ## Enough coroutines -/

section Enough

variable [DecidableEq C]

/-- The coroutine `x` owns the mutex and sleeps, and `ys` are in `lock_async`. -/
def State.contended (W : Type*) (x : C) (ys : List C) : State C W :=
  { State.start C W with
    locked := true
    hasWaiters := !ys.isEmpty
    owner := some x
    lockers := ys
    asleep := [x]
    frame := fun z => if z = x then .sleeps else if z ∈ ys then .locks else .unborn }

/-- The coroutine `y` has been given the mutex; `ys` are in `lock_async`, and `zs` wait. -/
def State.handed (W : Type*) (y : C) (ys zs : List C) : State C W :=
  { State.start C W with
    locked := true
    hasWaiters := true
    owner := some y
    lockers := ys
    waiters := zs
    ready := [y]
    frame := fun z => if z ∈ zs then .waits else if z = y ∨ z ∈ ys then .locks else .unborn }

/-- Nobody owns the mutex, and `HAS_WAITERS` is left; `zs` wait, and `xs` have been notified. -/
def State.left (W : Type*) (zs xs : List C) : State C W :=
  { State.start C W with
    hasWaiters := true
    waiters := zs
    ready := xs
    frame := fun z => if z ∈ xs ∨ z ∈ zs then .waits else .unborn }

variable [DecidableEq W] {x y z : C} {xs ys zs : List C} {w : W}

attribute [local simp] system step State.goto State.setFrame State.free State.take State.unlock WorkerPc.unlocked
  State.access State.notifyOne State.start

theorem exec_owned (w : W) (x : C) :
    exec (system C W) (.start C W) [.spawn x, .pick w x, .lock w, .sleep w] = some (.contended W x []) := by
  have hframe : Function.update (fun _ => Frame.unborn) x .sleeps = fun z => if z = x then .sleeps else .unborn := by
    funext z
    simp [Function.update_apply]
  simp [State.contended, hframe]

/-- One more coroutine wants the mutex. -/
theorem exec_contended (w : W) (hz : z ∉ x :: ys) :
    exec (system C W) (.contended W x ys)
      [.spawn z, .pick w z, .lock w, .worker w, .worker w, .worker w, .worker w] =
        some (.contended W x (ys ++ [z])) := by
  obtain ⟨hzx, hzy⟩ : z ≠ x ∧ z ∉ ys := by simpa using hz
  have hframe : Function.update (fun u => if u = x then Frame.sleeps else if u ∈ ys then .locks else .unborn) z .locks =
      fun u => if u = x then .sleeps else if u ∈ ys ∨ u = z then .locks else .unborn := by
    funext u
    by_cases hu : u = z
    · simp [hu, hzx]
    · simp [hu]
  simp [State.contended, hzx, hzy, Ne.symm hzx, hframe]

/-- Any coroutines want the mutex, one after the other. -/
theorem exists_contended (w : W) (ys : List C) (hys : (x :: ys).Nodup) :
    ∃ ls, exec (system C W) (.start C W) ls = some (.contended W x ys) := by
  induction ys using List.reverseRecOn with
  | nil => exact ⟨_, exec_owned w x⟩
  | append_singleton ys z ih =>
    obtain ⟨hnodup, -, hz⟩ := List.nodup_append.mp (show ((x :: ys) ++ [z]).Nodup from hys)
    obtain ⟨ls, hls⟩ := ih hnodup
    have hz : z ∉ x :: ys := fun hmem => hz z hmem z (by simp) rfl
    exact ⟨_, exec_trans hls (exec_contended w hz)⟩

/-- The owner is woken, and waits. -/
theorem exec_handed (w : W) :
    exec (system C W) (.contended W x (y :: ys)) [.wake x, .pick w x, .wait w, .worker w] =
      some (.handed W y ys [x]) := by
  have hframe : Function.update (fun u => if u = x then Frame.sleeps else if u = y ∨ u ∈ ys then .locks else .unborn) x
      .waits = fun u => if u = x then .waits else if u = y ∨ u ∈ ys then .locks else .unborn := by
    funext u
    by_cases hu : u = x
    · simp [hu]
    · simp [hu]
  simp [State.contended, State.handed, hframe]

/-- The coroutine that has been given the mutex waits in its turn. -/
theorem exec_handed_cons (w : W) (hy : y ∉ zs) :
    exec (system C W) (.handed W y (z :: ys) zs) [.pick w y, .wait w, .worker w] =
      some (.handed W z ys (zs ++ [y])) := by
  have hframe : Function.update (fun u => if u ∈ zs then Frame.waits else if u = y ∨ u = z ∨ u ∈ ys then .locks
      else .unborn) y .waits =
      fun u => if u ∈ zs ∨ u = y then .waits else if u = z ∨ u ∈ ys then .locks else .unborn := by
    funext u
    by_cases hu : u = y
    · simp [hu]
    · simp [hu]
  simp [State.handed, hy, hframe]

/-- The last one waits: `LOCKED` is cleared. -/
theorem exec_left (w : W) (hy : y ∉ zs) :
    exec (system C W) (.handed W y [] zs) [.pick w y, .wait w, .worker w, .worker w] =
      some (.left W (zs ++ [y]) []) := by
  have hframe : Function.update (fun u => if u ∈ zs then Frame.waits else if u = y then .locks else .unborn) y .waits =
      fun u => if u ∈ zs ∨ u = y then .waits else .unborn := by
    funext u
    by_cases hu : u = y
    · simp [hu]
    · simp [hu]
  simp [State.handed, State.left, hy, hframe]

/-- All coroutines in `lock_async` wait in their turn. -/
theorem exists_left (w : W) (zs ys : List C) (hys : (zs ++ y :: ys).Nodup) :
    ∃ ls, exec (system C W) (.handed W y ys zs) ls = some (.left W (zs ++ y :: ys) []) := by
  have hy : y ∉ zs := fun hmem => (List.nodup_append.mp hys).2.2 y hmem y List.mem_cons_self rfl
  induction ys generalizing y zs with
  | nil => exact ⟨_, exec_left w hy⟩
  | cons z ys ih =>
    have hnodup : (zs ++ [y] ++ z :: ys).Nodup := by simpa using hys
    have hz : z ∉ zs ++ [y] := fun hmem => (List.nodup_append.mp hnodup).2.2 z hmem z List.mem_cons_self rfl
    obtain ⟨ls, hls⟩ := ih (zs ++ [y]) hnodup hz
    have hrun := exec_trans (exec_handed_cons w hy) hls
    rw [List.append_assoc] at hrun
    exact ⟨_, hrun⟩

/-- All are notified. -/
theorem exists_notified (zs xs : List C) :
    ∃ ls, exec (system C W) (.left W zs xs) ls = some (.left W [] (xs ++ zs)) := by
  induction zs generalizing xs with
  | nil => exact ⟨[], by simp⟩
  | cons z zs ih =>
    have hone : exec (system C W) (.left W (z :: zs) xs) [.notifyOutside] = some (.left W zs (xs ++ [z])) := by
      simp [State.left, or_assoc]
    obtain ⟨ls, hls⟩ := ih (xs ++ [z])
    have hrun := exec_trans hone hls
    rw [List.append_assoc] at hrun
    exact ⟨_, hrun⟩

/-- Workers that are idle pick coroutines that have been notified, each another one. -/
theorem exec_picks {f : W → C} (hf : Function.Injective f) (vs : List W) (hvs : vs.Nodup) {s : State C W}
    (hs : ∀ v ∈ vs, s.worker v = .idle ∧ f v ∈ s.ready ∧ s.frame (f v) = .waits) :
    ∃ t, exec (system C W) s (vs.map fun v => .pick v (f v)) = some t ∧ (∀ v ∈ vs, t.worker v = .spins (f v)) ∧
      (∀ v, v ∉ vs → t.worker v = s.worker v) ∧ t.hasWaiters = s.hasWaiters := by
  induction vs generalizing s with
  | nil => exact ⟨s, rfl, by simp, by simp, rfl⟩
  | cons v vs ih =>
    obtain ⟨hv, hnodup⟩ := List.nodup_cons.mp hvs
    obtain ⟨hidle, hready, hwaits⟩ := hs v List.mem_cons_self
    have hpick : (system C W).step s (.pick v (f v)) =
        some ({ s.setFrame (f v) .executed with ready := s.ready.erase (f v) }.goto v (.spins (f v))) := by
      simp [hidle, hready, hwaits]
    obtain ⟨t, ht, hspins, hsame, hword⟩ := ih hnodup
      (s := { s.setFrame (f v) .executed with ready := s.ready.erase (f v) }.goto v (.spins (f v))) fun u hu => by
        have huv : u ≠ v := fun huv => hv (huv ▸ hu)
        obtain ⟨hidle, hready, hwaits⟩ := hs u (List.mem_cons_of_mem v hu)
        have hfu : f u ≠ f v := fun hfu => huv (hf hfu)
        exact ⟨by simp [huv, hidle], (List.mem_erase_of_ne hfu).mpr hready, by simp [hfu, hwaits]⟩
    refine ⟨t, by simp only [List.map_cons, exec_cons, hpick, Option.bind_some, ht], fun u hu => ?_, fun u hu => ?_,
      hword⟩
    · obtain rfl | hu := List.mem_cons.mp hu
      · rw [hsame u hv]
        simp
      · exact hspins u hu
    · obtain ⟨huv, hu⟩ : u ≠ v ∧ u ∉ vs := by simpa using hu
      rw [hsame u hu]
      simp [huv]

omit [DecidableEq W] in
/-- Two coroutines at least, and those of all workers. -/
theorem exists_coroutines [Finite W] [Nontrivial C] (f : W → C) (v : W) :
    ∃ z ys, (f v :: z :: ys).Nodup ∧ ∀ w, f w ∈ f v :: z :: ys := by
  have := Fintype.ofFinite W
  obtain ⟨y, hy⟩ := exists_ne (f v)
  have hmem : y ∈ ((insert y (Finset.univ.image f)).erase (f v)).toList := by simp [hy]
  obtain ⟨z, ys, hzs⟩ := List.exists_cons_of_ne_nil (List.ne_nil_of_mem hmem)
  refine ⟨z, ys, ?_, fun w => ?_⟩
  · rw [← hzs]
    exact List.nodup_cons.mpr ⟨by simp, Finset.nodup_toList _⟩
  · rw [← hzs, List.mem_cons, Finset.mem_toList]
    by_cases hw : f w = f v
    · exact .inl hw
    · exact .inr (by simp [hw])

/-- All workers can be lost with one coroutine for each, and two at least. -/
theorem exists_deadlocked_of [Finite W] [Nonempty W] [Nontrivial C] {f : W → C} (hf : Function.Injective f) :
    ∃ s : State C W, Reachable (system C W) s ∧ Deadlocked s := by
  have := Fintype.ofFinite W
  have v : W := Classical.arbitrary W
  obtain ⟨z, ys, hys, hall⟩ := exists_coroutines f v
  obtain ⟨as, has⟩ := exists_contended v (z :: ys) hys
  obtain ⟨bs, hbs⟩ := exists_left v [f v] ys hys
  obtain ⟨cs, hcs⟩ := exists_notified (W := W) (f v :: z :: ys) []
  have hrun := exec_trans (exec_trans (exec_trans has (exec_handed v)) hbs) hcs
  obtain ⟨t, ht, hspins, -, hword⟩ := exec_picks hf Finset.univ.toList (Finset.nodup_toList _)
    (s := .left W [] (f v :: z :: ys)) fun w _ => ⟨rfl, hall w, if_pos (.inl (hall w))⟩
  refine ⟨t, reachable_exec (.init rfl) (exec_trans hrun ht), deadlocked_iff.mpr ⟨fun w => ⟨f w, ?_⟩, .inr hword⟩⟩
  exact hspins w (Finset.mem_toList.mpr (Finset.mem_univ w))

/-- **The threshold**: all workers can be lost exactly when there are two coroutines, and as many as workers. -/
theorem exists_deadlocked_iff [Finite W] [Nonempty W] :
    (∃ s : State C W, Reachable (system C W) s ∧ Deadlocked s) ↔
      Nontrivial C ∧ ∃ f : W → C, Function.Injective f := by
  constructor
  · rintro ⟨s, hs, hlost⟩
    exact enough_of_deadlocked hs hlost
  · rintro ⟨hC, f, hf⟩
    exact exists_deadlocked_of hf

/-- Three workers are lost with three coroutines, and not with two. -/
theorem exists_deadlocked_iff_three :
    (∃ s : State (Fin 3) (Fin 3), Reachable (system (Fin 3) (Fin 3)) s ∧ Deadlocked s) ∧
      ¬∃ s : State (Fin 2) (Fin 3), Reachable (system (Fin 2) (Fin 3)) s ∧ Deadlocked s := by
  refine ⟨exists_deadlocked_iff.mpr ⟨inferInstance, id, Function.injective_id⟩, fun hlost => ?_⟩
  obtain ⟨-, f, hf⟩ := exists_deadlocked_iff.mp hlost
  exact absurd (Fintype.card_le_of_injective f hf) (by decide)

end Enough

end Cothread.CondWorkers
