import Cothread.Queue.SharedFifo
import Cothread.Queue.StealDeque

/-!
# `PickTask` overlooks nothing

A worker picks a task while nobody interferes: from its batch, from its local queue, of which up to `BATCH_SIZE` tasks
are moved into the batch, from the shards of the global queue, or from the local queue of another worker. The steal
loop starts behind the worker and reaches every other worker within `wc * 2` attempts (`victim_surj`). `Filled` says
which tasks the queues hold, and `Picked` what a part of `PickTask` does to them: nothing is returned only when nothing
is stored, and nothing else is lost or stored twice (`pickTask_picks`).
-/

namespace Cothread.PickTask

def BATCH_SIZE : Int := 8

def MAX_WORKERS : Int := 256

/-- What `PickTask` reads and writes. The local queues are those of all workers, by their ids. -/
structure State (T : Type*) where
  batch : List T  -- `local_batch_[0], …, local_batch_[batch_count_ - 1]` of the worker that picks
  localQueue : ℕ → WorkStealing.Queue T
  workersAtomic : Int → Option ℕ
  globalQueue : Shared.Queue T

variable {T : Type*}

/-- `Scheduler::GetWorker(index)`. -/
def State.getWorker (s : State T) (index : Int) : Option ℕ :=
  if 0 ≤ index ∧ index < MAX_WORKERS then s.workersAtomic index else none

def State.setLocal (s : State T) (w : ℕ) (q : WorkStealing.Queue T) : State T :=
  { s with localQueue := Function.update s.localQueue w q }

/-- `return local_batch_[--batch_count_]`. -/
def State.takeBatch (s : State T) : State T × Option T := ({ s with batch := s.batch.dropLast }, s.batch.getLast?)

/-- `local_queue_.PopMultiple(local_batch_, BATCH_SIZE)`. -/
def State.fillBatch (s : State T) (id : ℕ) : State T :=
  { s.setLocal id ((s.localQueue id).popMultiple BATCH_SIZE).1 with
    batch := ((s.localQueue id).popMultiple BATCH_SIZE).2 }

/-- `victim = (start + i) % wc` with `start = (id_ + 1) % wc`. -/
def victim (wc id i : ℕ) : Int := (((id : Int) + 1).tmod wc + i).tmod wc

/-- One attempt to steal. -/
def State.attempt (wc id : ℕ) (s : State T) (i : ℕ) : State T × Option T :=
  if victim wc id i = id then (s, none)
  else match s.getWorker (victim wc id i) with
    | none => (s, none)
    | some other => (s.setLocal other (s.localQueue other).steal.1, (s.localQueue other).steal.2)

/-- The loop that steals, with the attempts that are left; `wc` workers. -/
def State.stealLoop (wc id : ℕ) (s : State T) : List ℕ → State T × Option T
  | [] => (s, none)
  | i :: l => if (s.attempt wc id i).2.isSome then s.attempt wc id i else (s.attempt wc id i).1.stealLoop wc id l

/-- `PickTask()` of the worker `id` from 3. on: the global queue, and then the other workers. -/
def State.pickElsewhere [DecidableEq T] (wc id : ℕ) (s : State T) : Option (State T × Option T) :=
  match s.globalQueue.pop wc id with
  | none => none
  | some (q, some task) => some ({ s with globalQueue := q }, some task)
  | some (q, none) =>
    let s := { s with globalQueue := q }
    if wc ≤ 1 then some (s, none) else some (s.stealLoop wc id (List.range (wc * 2)))

/-- `PickTask()` of the worker `id`; `none` when a shard waits for a `Push` in progress. -/
def State.pickTask [DecidableEq T] (wc id : ℕ) (s : State T) : Option (State T × Option T) :=
  if s.batch ≠ [] then some s.takeBatch
  else
    let s := s.fillBatch id
    if s.batch ≠ [] then some s.takeBatch else s.pickElsewhere wc id

/-! ## What is stored -/

/-- The local queues and the shards hold these lists, and all workers are registered. -/
structure Filled (wc : ℕ) (s : State T) (locals : ℕ → List T) (a : Shared.Pool T) : Prop where
  holds : ∀ i < wc, WorkStealing.Holds (s.localQueue i) (locals i)
  shards : Shared.Shards wc s.globalQueue a
  registered : ∀ i < wc, s.workersAtomic i = some i

/-- The tasks in the batch, in the local queues and in the shards. -/
def stored (wc : ℕ) (s : State T) (locals : ℕ → List T) (a : Shared.Pool T) : List T :=
  s.batch ++ ((List.range wc).flatMap locals ++ a.stored wc)

/-- `PickTask` has returned `r`: what was stored is `r` and what is stored now, and nothing was if it is null. -/
structure Picked (wc : ℕ) (s : State T) (locals : ℕ → List T) (a : Shared.Pool T) (s' : State T) (r : Option T)
    (locals' : ℕ → List T) (a' : Shared.Pool T) : Prop where
  filled : Filled wc s' locals' a'
  perm : (stored wc s locals a).Perm (r.toList ++ stored wc s' locals' a')
  nothing : r = none → stored wc s locals a = []

variable {wc id i v : ℕ} {s s' : State T} {locals : ℕ → List T} {a : Shared.Pool T} {x : T} {xs is : List T}

/-- A local queue gets shorter. -/
theorem Filled.setLocal (h : Filled wc s locals a) {q : WorkStealing.Queue T} (hq : WorkStealing.Holds q xs) :
    Filled wc (s.setLocal v q) (Function.update locals v xs) a := by
  refine ⟨fun i hi => ?_, h.shards, h.registered⟩
  show WorkStealing.Holds (Function.update s.localQueue v q i) _
  by_cases hiv : i = v
  · subst hiv
    rw [Function.update_self, Function.update_self]
    exact hq
  · rw [Function.update_of_ne hiv, Function.update_of_ne hiv]
    exact h.holds i hi

/-- One of the local queues, and the others. -/
theorem locals_perm {ys : List T} (hv : v < wc) (hx : (locals v).Perm (xs ++ ys)) :
    ((List.range wc).flatMap locals).Perm (xs ++ (List.range wc).flatMap (Function.update locals v ys)) := by
  have hrest : ((List.range wc).flatMap (Function.update locals v ys)).Perm
      (ys ++ ((List.range wc).erase v).flatMap locals) := Shared.stored_update_perm (a := ⟨locals, 0⟩) hv 0
  have hall := Shared.stored_perm (a := ⟨locals, 0⟩) hv
  refine hall.trans ((hx.append_right _).trans ?_)
  rw [List.append_assoc]
  exact hrest.symm.append_left xs

theorem stored_eq_nil : stored wc s locals a = [] ↔
    s.batch = [] ∧ (∀ i < wc, locals i = []) ∧ ∀ i < wc, a.shards i = [] := by
  simp only [stored, List.append_eq_nil_iff, Shared.stored_eq_nil, List.flatMap_eq_nil_iff, List.mem_range]

/-! ## The batch and the local queue -/

/-- **The batch** gives its last task. -/
theorem takeBatch_picks (h : Filled wc s locals a) (hne : s.batch ≠ []) :
    Picked wc s locals a s.takeBatch.1 s.takeBatch.2 locals a := by
  obtain ⟨ys, x, hbatch⟩ := (List.eq_nil_or_concat' s.batch).resolve_left hne
  have hlast : s.takeBatch.2 = some x := by rw [State.takeBatch, hbatch, List.getLast?_concat]
  have hrest : s.takeBatch.1.batch = ys := by rw [State.takeBatch, hbatch, List.dropLast_concat]
  refine ⟨⟨h.holds, h.shards, h.registered⟩, ?_, fun hnone => ?_⟩
  · rw [hlast, stored, stored, hbatch, hrest, List.append_assoc]
    exact List.perm_middle
  · rw [hlast] at hnone
    cases hnone

/-- **The local queue** is moved into the batch, up to `BATCH_SIZE` tasks of it. -/
theorem fillBatch_stored (h : Filled wc s locals a) (hid : id < wc) (hnil : s.batch = []) :
    ∃ rest, Filled wc (s.fillBatch id) (Function.update locals id rest) a ∧
      (stored wc s locals a).Perm (stored wc (s.fillBatch id) (Function.update locals id rest) a) ∧
      ((s.fillBatch id).batch = [] → rest = []) := by
  obtain ⟨hpopped, hrest⟩ := (h.holds id hid).popUpTo BATCH_SIZE.toNat
  have hfilled := h.setLocal (v := id) hrest
  have hbatch : (s.fillBatch id).batch = (locals id).reverse.take BATCH_SIZE.toNat := hpopped
  refine ⟨_, ⟨hfilled.holds, hfilled.shards, hfilled.registered⟩, ?_, fun hempty => ?_⟩
  · have hsplit : (locals id).Perm ((s.fillBatch id).batch ++
        (locals id).take ((locals id).length - BATCH_SIZE.toNat)) := by
      rw [hbatch, List.take_reverse]
      refine .trans ?_ ((List.reverse_perm _).symm.append_right _)
      refine .trans (.of_eq (List.take_append_drop _ _).symm) List.perm_append_comm
    rw [stored, stored, hnil, List.nil_append, ← List.append_assoc]
    exact (locals_perm hid hsplit).append_right _
  · rw [hbatch] at hempty
    have hreverse : (locals id).reverse = [] := (List.take_eq_nil_iff.mp hempty).resolve_left (by decide)
    rw [List.reverse_eq_nil_iff.mp hreverse, List.take_nil]

/-! ## The other workers -/

/-- Every attempt is about a worker. -/
theorem victim_eq (wc id i : ℕ) : victim wc id i = (((id + 1) % wc + i) % wc : ℕ) := by
  have hone : ((1 : ℕ) : Int) = 1 := rfl
  rw [victim, Int.ofNat_tmod, Int.natCast_add, Int.ofNat_tmod, Int.natCast_add, hone]

/-- **Every worker** is reached. -/
theorem victim_surj (id : ℕ) (hv : v < wc) : ∃ i < wc * 2, victim wc id i = v := by
  have hstart : (id + 1) % wc < wc := Nat.mod_lt _ (Nat.zero_lt_of_lt hv)
  refine ⟨v + wc - (id + 1) % wc, by omega, ?_⟩
  have hsum : (id + 1) % wc + (v + wc - (id + 1) % wc) = v + wc := by omega
  rw [victim_eq, hsum, Nat.add_mod_right, Nat.mod_eq_of_lt hv]

/-- **One attempt** takes the oldest task of a worker, unless its queue is empty or it is the worker's own. -/
theorem attempt_takes (h : Filled wc s locals a) (hmax : wc ≤ 256) (hv : v < wc) (hvictim : victim wc id i = v) :
    s.attempt wc id i = (s, none) ∧ (v ≠ id → locals v = []) ∨
      ∃ x xs q, locals v = x :: xs ∧ WorkStealing.Holds q xs ∧ s.attempt wc id i = (s.setLocal v q, some x) := by
  unfold State.attempt
  rw [hvictim]
  by_cases hself : v = id
  · exact Or.inl ⟨if_pos (congrArg Nat.cast hself), fun hne => absurd hself hne⟩
  · have hne : (v : Int) ≠ id := fun he => hself (Int.ofNat_inj.mp he)
    have hother : s.getWorker (v : Int) = some v := by
      have hrange : 0 ≤ (v : Int) ∧ (v : Int) < MAX_WORKERS := by
        unfold MAX_WORKERS
        omega
      rw [State.getWorker, if_pos hrange]
      exact h.registered v hv
    rw [if_neg hne, hother]
    have hholds := h.holds v hv
    cases hx : locals v with
    | nil =>
      rw [hx] at hholds
      refine Or.inl ⟨?_, fun _ => rfl⟩
      simp only [hholds.steal_nil, State.setLocal, Function.update_eq_self]
    | cons x xs =>
      rw [hx] at hholds
      obtain ⟨htask, hrest⟩ := hholds.steal
      exact Or.inr ⟨x, xs, (s.localQueue v).steal.1, rfl, hrest, Prod.ext rfl htask⟩

/-- **The loop that steals** takes the oldest task of some worker, or finds all their queues empty. -/
theorem stealLoop_takes (h : Filled wc s locals a) (hid : id < wc) (hmax : wc ≤ 256) (l : List ℕ) :
    s.stealLoop wc id l = (s, none) ∧ (∀ v : ℕ, (∃ i ∈ l, victim wc id i = v) → v ≠ id → locals v = []) ∨
      ∃ v < wc, ∃ x xs q, locals v = x :: xs ∧ WorkStealing.Holds q xs ∧
        s.stealLoop wc id l = (s.setLocal v q, some x) := by
  induction l with
  | nil => exact Or.inl ⟨rfl, fun v ⟨i, hi, _⟩ => absurd hi List.not_mem_nil⟩
  | cons i l ih =>
    obtain ⟨v, hv, hvictim⟩ : ∃ v < wc, victim wc id i = (v : ℕ) :=
      ⟨_, Nat.mod_lt _ (Nat.zero_lt_of_lt hid), victim_eq wc id i⟩
    unfold State.stealLoop
    obtain ⟨hnone, hempty⟩ | ⟨x, xs, q, hx, hq, hsome⟩ := attempt_takes h hmax hv hvictim
    · simp only [hnone, Option.isSome_none, Bool.false_eq_true, if_false]
      refine ih.imp_left fun ⟨hloop, hrest⟩ => ⟨hloop, fun u ⟨j, hj, hu⟩ hne => ?_⟩
      obtain rfl | hj := List.mem_cons.mp hj
      · have huv : u = v := Int.ofNat_inj.mp (hu.symm.trans hvictim)
        rw [huv] at hne ⊢
        exact hempty hne
      · exact hrest u ⟨j, hj, hu⟩ hne
    · simp only [hsome, Option.isSome_some, if_true]
      exact Or.inr ⟨v, hv, x, xs, q, hx, hq, rfl⟩

/-- The queue of a worker gives its oldest task. -/
theorem setLocal_picks (h : Filled wc s locals a) (hv : v < wc) (hx : locals v = x :: xs) {q : WorkStealing.Queue T}
    (hq : WorkStealing.Holds q xs) :
    Picked wc s locals a (s.setLocal v q) (some x) (Function.update locals v xs) a := by
  refine ⟨h.setLocal hq, ?_, nofun⟩
  have hlocals : ((List.range wc).flatMap locals).Perm
      ([x] ++ (List.range wc).flatMap (Function.update locals v xs)) := locals_perm hv (.of_eq hx)
  refine .trans ((hlocals.append_right _).append_left _) ?_
  exact List.perm_middle

/-! ## The global queue -/

/-- A part of `PickTask` after a part that has moved tasks only. -/
theorem Picked.after {s₁ : State T} {locals₁ locals' : ℕ → List T} {a₁ a' : Shared.Pool T} {r : Option T}
    (h : Picked wc s₁ locals₁ a₁ s' r locals' a') (hperm : (stored wc s locals a).Perm (stored wc s₁ locals₁ a₁)) :
    Picked wc s locals a s' r locals' a' := by
  refine ⟨h.filled, hperm.trans h.perm, fun hr => ?_⟩
  have hnil := h.nothing hr
  rw [hnil] at hperm
  exact hperm.eq_nil

variable [DecidableEq T]

/-- **The global queue and the other workers**, when the batch and the own queue are empty. -/
theorem pickElsewhere_picks (h : Filled wc s locals a) (hid : id < wc) (hmax : wc ≤ 256) (hbatch : s.batch = [])
    (hown : locals id = []) :
    ∃ s' r locals' a', s.pickElsewhere wc id = some (s', r) ∧ Picked wc s locals a s' r locals' a' := by
  obtain ⟨q, hpop, hshards, -⟩ := h.shards.pop id
  have hfilled : Filled wc { s with globalQueue := q } locals (a.pop wc id).1 := ⟨h.holds, hshards, h.registered⟩
  have hperm := Shared.pool_pop_perm wc a id
  rw [State.pickElsewhere, hpop]
  cases hr : (a.pop wc id).2 with
  | some x =>
    rw [hr] at hperm
    refine ⟨_, _, locals, _, rfl, hfilled, ?_, nofun⟩
    have hall := (hperm.append_left ((List.range wc).flatMap locals)).append_left s.batch
    have hfront : ((List.range wc).flatMap locals ++ x :: (a.pop wc id).1.stored wc).Perm
        (x :: ((List.range wc).flatMap locals ++ (a.pop wc id).1.stored wc)) := List.perm_middle
    exact (hall.trans (hfront.append_left s.batch)).trans List.perm_middle
  | none =>
    rw [hr] at hperm
    have hglobal := (Shared.pool_pop_none (n := wc) (a := a) id).mp hr
    have hsame := hperm.append_left ((List.range wc).flatMap locals)
    have hmoved : (stored wc s locals a).Perm (stored wc { s with globalQueue := q } locals (a.pop wc id).1) :=
      hsame.append_left s.batch
    have hnothing (hothers : ∀ v < wc, v ≠ id → locals v = []) : stored wc s locals a = [] := by
      refine stored_eq_nil.mpr ⟨hbatch, fun v hv => ?_, Shared.stored_eq_nil.mp hglobal⟩
      by_cases hvid : v = id
      · rw [hvid, hown]
      · exact hothers v hv hvid
    have hnone (hothers : ∀ v < wc, v ≠ id → locals v = []) :
        Picked wc { s with globalQueue := q } locals (a.pop wc id).1 { s with globalQueue := q } none locals
          (a.pop wc id).1 := by
      refine ⟨hfilled, .refl _, fun _ => ?_⟩
      have hempty := hnothing hothers
      rw [hempty] at hmoved
      exact hmoved.nil_eq.symm
    by_cases hone : wc ≤ 1
    · refine ⟨_, _, _, _, if_pos hone, (hnone fun v hv hne => ?_).after hmoved⟩
      omega
    · simp only [if_neg hone]
      obtain ⟨hloop, hempty⟩ | ⟨v, hv, x, xs, q', hx, hq', hloop⟩ :=
        stealLoop_takes hfilled hid hmax (List.range (wc * 2))
      · rw [hloop]
        refine ⟨_, _, _, _, rfl, (hnone fun v hv hne => ?_).after hmoved⟩
        obtain ⟨i, hi, hvictim⟩ := victim_surj id hv
        exact hempty v ⟨i, List.mem_range.mpr hi, hvictim⟩ hne
      · rw [hloop]
        exact ⟨_, _, _, _, rfl, (setLocal_picks hfilled hv hx hq').after hmoved⟩

/-- **`PickTask` overlooks nothing**: with at most `MAX_WORKERS` workers, all of them registered, it returns null only
when the batch, the local queues and the shards are empty; otherwise it returns one of the tasks stored, and the others
stay stored. -/
theorem pickTask_picks (h : Filled wc s locals a) (hid : id < wc) (hmax : (wc : Int) ≤ MAX_WORKERS) :
    ∃ s' r locals' a', s.pickTask wc id = some (s', r) ∧ Filled wc s' locals' a' ∧
      (r = none ↔ s.batch = [] ∧ (∀ i < wc, locals i = []) ∧ ∀ i < wc, a.shards i = []) ∧
      (stored wc s locals a).Perm (r.toList ++ stored wc s' locals' a') := by
  have hle : wc ≤ 256 := by
    unfold MAX_WORKERS at hmax
    omega
  have hpicked : ∃ s' r locals' a', s.pickTask wc id = some (s', r) ∧ Picked wc s locals a s' r locals' a' := by
    unfold State.pickTask
    by_cases hbatch : s.batch = []
    · obtain ⟨rest, hfilled, hmoved, hrest⟩ := fillBatch_stored h hid hbatch
      rw [if_neg (not_not.mpr hbatch)]
      by_cases hfill : (s.fillBatch id).batch = []
      · simp only [if_neg (not_not.mpr hfill)]
        have hown : Function.update locals id rest id = [] := (Function.update_self ..).trans (hrest hfill)
        obtain ⟨s', r, locals', a', hpick, hpicked⟩ := pickElsewhere_picks hfilled hid hle hfill hown
        exact ⟨s', r, locals', a', hpick, hpicked.after hmoved⟩
      · simp only [if_pos hfill]
        exact ⟨_, _, _, _, rfl, (takeBatch_picks hfilled hfill).after hmoved⟩
    · rw [if_pos hbatch]
      exact ⟨_, _, _, _, rfl, takeBatch_picks h hbatch⟩
  obtain ⟨s', r, locals', a', hpick, hpicked⟩ := hpicked
  refine ⟨s', r, locals', a', hpick, hpicked.filled, ?_, hpicked.perm⟩
  rw [← stored_eq_nil]
  refine ⟨hpicked.nothing, fun hnil => ?_⟩
  have hperm := hpicked.perm
  rw [hnil] at hperm
  cases r with
  | none => rfl
  | some x => cases hperm.nil_eq

theorem pickTask_picks_two : ∃ s' locals' a',
    State.pickTask 2 0 ⟨[], fun i => if i = 1 then WorkStealing.Queue.new.push (some 7) else .new,
      fun i => some i.toNat, .empty⟩ = some (s', some 7) ∧ stored 2 s' locals' a' = [] := by
  have hholds (i : ℕ) : WorkStealing.Holds (if i = 1 then WorkStealing.Queue.new.push (some 7) else .new)
      (if i = 1 then [7] else []) := by
    by_cases hi : i = 1
    · rw [if_pos hi, if_pos hi]
      have hone : WorkStealing.Holds (WorkStealing.Queue.new.push (some 7)) ([] ++ [7]) :=
        WorkStealing.holds_new.push (by decide)
      exact hone
    · rw [if_neg hi, if_neg hi]
      exact WorkStealing.holds_new
  let s : State ℕ :=
    ⟨[], fun i => if i = 1 then WorkStealing.Queue.new.push (some 7) else .new, fun i => some i.toNat, .empty⟩
  have hfilled : Filled 2 s (fun i => if i = 1 then [7] else []) .new :=
    ⟨fun i _ => hholds i, (Shared.stored_new 2).shards, fun _ _ => rfl⟩
  obtain ⟨s', r, locals', a', hpick, -, hnone, hperm⟩ := pickTask_picks hfilled (show 0 < 2 by decide) (by decide)
  have hstored : stored 2 s (fun i => if i = 1 then [7] else []) .new = [7] := rfl
  rw [hstored] at hperm
  cases r with
  | none =>
    have hempty : [7] = [] := (hnone.mp rfl).2.1 1 (by decide)
    cases hempty
  | some x =>
    obtain ⟨rfl, hnil⟩ := List.cons.inj (List.singleton_perm.mp hperm)
    exact ⟨s', locals', a', hpick, hnil.symm⟩

end Cothread.PickTask
