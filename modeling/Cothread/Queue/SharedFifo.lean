import Cothread.Queue.MpscAtomic
import Cothread.Queue.Shared

/-!
# `SharedMPSCQueue` with atomic operations

What `Push` and `Pop` come to when nothing falls between their accesses (`push_ends`, `pop_ends`), and the lists that
the shards hold (`Stored`). The answers are those of a pool of `n` FIFO lists, into which tasks go round-robin and from
which `Pop(w)` takes the oldest task of list `w`, or else of the first list that is not empty (`pool_answers`).
`total_count_` is the number of stored tasks, so `Empty` is a scan of all shards.
-/

namespace Cothread.Shared

open Object

variable {T : Type*}

/-! ## Atomic operations -/

section Code

variable [DecidableEq T]

/-- `Push(task)` with `worker_count_ = n`. -/
def Queue.push (n : ℕ) (q : Queue T) (task : T) : Queue T :=
  let i := q.roundRobin.tmod n
  { q.setShard i ((q.shard i).push task) with
    roundRobin := wrap32 (q.roundRobin + 1)
    totalCount := wrap32 (q.totalCount + 1) }

/-- `shards_[i].Pop()`; `none` when it waits for a `Push` in progress. -/
def Queue.popShard (q : Queue T) (i : Int) : Option (Queue T × Option T) :=
  (q.shard i).pop.map fun p => (q.setShard i p.1, p.2)

/-- `total_count_.fetch_sub(1)`. -/
def Queue.uncount (q : Queue T) : Queue T := { q with totalCount := wrap32 (q.totalCount - 1) }

/-- The loop over the other shards, with those that are left. -/
def Queue.stealLoop (q : Queue T) (w : Int) : List Int → Option (Queue T × Option T)
  | [] => some (q, none)
  | i :: is =>
    if i = w then q.stealLoop w is
    else match q.popShard i with
      | none => none
      | some (q', some task) => some (q'.uncount, some task)
      | some (q', none) => q'.stealLoop w is

/-- `0, …, worker_count_ - 1`. -/
def shardNumbers (n : ℕ) : List Int := (List.range n).map Nat.cast

/-- `Pop(w)`. -/
def Queue.pop (n : ℕ) (w : Int) (q : Queue T) : Option (Queue T × Option T) :=
  if 0 ≤ w ∧ w < n then
    match q.popShard w with
    | none => none
    | some (q', some task) => some (q'.uncount, some task)
    | some (q', none) => q'.stealLoop w (shardNumbers n)
  else q.stealLoop w (shardNumbers n)

/-- `Empty()`. -/
def Queue.isEmpty (q : Queue T) : Bool := q.totalCount == 0

/-- `Empty()` of every shard. -/
def Queue.scanEmpty (n : ℕ) (q : Queue T) : Bool := (List.range n).all fun i => (q.tail i).isNone

inductive Op (T : Type*)
  | push (task : T)
  | pop (w : Int)
  | empty
  deriving DecidableEq

inductive Answer (T : Type*)
  | pushed
  | task (task : Option T)
  | empty (empty : Bool)
  deriving DecidableEq

/-- A call after `Init(n)`. -/
def Queue.call (n : ℕ) (q : Queue T) : Op T → Option (Queue T × Answer T)
  | .push task => some (q.push n task, .pushed)
  | .pop w => (q.pop n w).map fun p => (p.1, .task p.2)
  | .empty => some (q, .empty q.isEmpty)

/-! ## The accesses -/

/-- An access of `Push`. -/
def pushAccess (n : ℕ) (q : Queue T) (pc : PushPc T) : Queue T × (PushPc T ⊕ Unit) :=
  ((pushStep n q pc).1, match (pushStep n q pc).2 with
    | some pc' => .inl pc'
    | none => .inr ())

/-- The next access, or the answer. -/
def PopResult.rest : PopResult T → PopPc T ⊕ Option T
  | .running pc => .inl pc
  | .returned task => .inr task

/-- An access of `Pop(w)`. -/
def popAccess (n : ℕ) (w : Int) (q : Queue T) (pc : PopPc T) : Queue T × (PopPc T ⊕ Option T) :=
  ((popStep n w q pc).1, (popStep n w q pc).2.rest)

omit [DecidableEq T] in
@[simp] theorem setShard_shard (q : Queue T) (i : Int) : q.setShard i (q.shard i) = q := by
  simp [Queue.setShard, Queue.shard]

omit [DecidableEq T] in
@[simp] theorem shard_setShard (q : Queue T) (i : Int) (m : Mpsc.Mem T) : (q.setShard i m).shard i = m := by
  simp [Queue.setShard, Queue.shard]

omit [DecidableEq T] in
@[simp] theorem setShard_setShard (q : Queue T) (i : Int) (m m' : Mpsc.Mem T) :
    (q.setShard i m).setShard i m' = q.setShard i m' := by
  simp [Queue.setShard]

/-- `Push` into a shard, and what follows. -/
theorem push_shard_ends {n : ℕ} {i : Int} {m m' : Mpsc.Mem T} {c : Mpsc.PushPc T ⊕ Unit} {r : Unit} {q q' : Queue T}
    (h : Ends Mpsc.pushAccess m c m' r) (hm : q.shard i = m)
    (hnext : Ends (pushAccess n) (q.setShard i m') (.inl .count) q' ()) :
    Ends (pushAccess n) q (.inl (c.elim (.shard i) fun _ => .count)) q' () := by
  induction h generalizing q with
  | answer =>
    rw [← hm, setShard_shard] at hnext
    exact hnext
  | @access m m₁ pc r _ ih =>
    subst hm
    have hstep : pushAccess n q (.shard i pc) = (q.setShard i (Mpsc.pushAccess (q.shard i) pc).1,
        .inl ((Mpsc.pushAccess (q.shard i) pc).2.elim (.shard i) fun _ => .count)) := by
      simp only [pushAccess, pushStep, Mpsc.pushAccess]
      cases (Mpsc.pushStep (q.shard i) pc).2 <;> rfl
    refine .next hstep (ih (shard_setShard ..) ?_)
    rw [setShard_setShard]
    exact hnext

/-- **`Push`**, access by access. -/
theorem push_ends (n : ℕ) (q : Queue T) (task : T) :
    Ends (pushAccess n) q (.inl (.assign task)) (q.push n task) () := by
  refine .next rfl (push_shard_ends (Mpsc.push_ends _ task) rfl ?_)
  exact .last rfl

/-- What follows `Pop` of a shard. -/
def afterShard (onEmpty : PopResult T) : Option T → PopPc T ⊕ Option T
  | some task => .inl (.count task)
  | none => onEmpty.rest

/-- `Pop` of a shard, and what follows. -/
theorem pop_shard_ends {n : ℕ} {w i : Int} {m m' : Mpsc.Mem T} {c : Mpsc.PopPc T ⊕ Option T} {r r' : Option T}
    {q q' : Queue T} {inside : Mpsc.PopPc T → PopPc T} {onEmpty : PopResult T}
    (hinside : ∀ q pc, popStep n w q (inside pc) = shardPop q i pc inside onEmpty)
    (h : Ends Mpsc.popAccess m c m' r) (hm : q.shard i = m)
    (hnext : Ends (popAccess n w) (q.setShard i m') (afterShard onEmpty r) q' r') :
    Ends (popAccess n w) q (c.elim (fun pc => .inl (inside pc)) (afterShard onEmpty)) q' r' := by
  induction h generalizing q with
  | answer =>
    rw [← hm, setShard_shard] at hnext
    exact hnext
  | @access m m₁ pc r _ ih =>
    subst hm
    have hstep : popAccess n w q (inside pc) = (q.setShard i (Mpsc.popAccess (q.shard i) pc).1,
        (Mpsc.popAccess (q.shard i) pc).2.elim (fun pc => .inl (inside pc)) (afterShard onEmpty)) := by
      simp only [popAccess, hinside, shardPop, Mpsc.popAccess]
      cases (Mpsc.popStep (q.shard i) pc).2 with
      | running pc' => rfl
      | returned task => cases task <;> rfl
    refine .next hstep (ih (shard_setShard ..) ?_)
    rw [setShard_setShard]
    exact hnext

/-- What the code does after `Pop` of a shard that has come to an end. -/
theorem popShard_ends {n : ℕ} {w i : Int} {q q₁ q' : Queue T} {r r' : Option T} {inside : Mpsc.PopPc T → PopPc T}
    {onEmpty : PopResult T} (hinside : ∀ q pc, popStep n w q (inside pc) = shardPop q i pc inside onEmpty)
    (h : q.popShard i = some (q₁, r)) (hnext : Ends (popAccess n w) q₁ (afterShard onEmpty r) q' r') :
    Ends (popAccess n w) q (.inl (inside .loadTail)) q' r' := by
  obtain ⟨⟨m, r⟩, hpop, heq⟩ := Option.map_eq_some_iff.mp h
  cases heq
  exact pop_shard_ends hinside (Mpsc.pop_ends hpop) rfl hnext

/-- The decrement, after which `Pop` returns the task. -/
theorem uncount_ends (n : ℕ) (w : Int) (q : Queue T) (task : T) :
    Ends (popAccess n w) q (.inl (.count task)) q.uncount (some task) := .last rfl

/-- The loop over the other shards, with `k` numbers left. -/
theorem stealLoop_ends {n : ℕ} {w : Int} {k i : ℕ} {q q' : Queue T} {r : Option T} (hk : i + k = n)
    (h : q.stealLoop w ((List.range' i k).map Nat.cast) = some (q', r)) :
    Ends (popAccess n w) q (stealFrom n w i).rest q' r := by
  induction k generalizing i q with
  | zero =>
    cases h
    have hend : (stealFrom n w i : PopResult T) = .returned none := by
      subst hk
      unfold stealFrom
      exact if_neg (by split <;> omega)
    rw [hend]
    exact .answer
  | succ k ih =>
    rw [List.range'_succ, List.map_cons, Queue.stealLoop] at h
    by_cases hi : (i : Int) = w
    · -- the worker's own shard: the loop goes on from the next number
      rw [if_pos hi] at h
      have hskip : (stealFrom n w i : PopResult T) = stealFrom n w (i + 1 : ℕ) := by
        unfold stealFrom
        have hne : ((i + 1 : ℕ) : Int) ≠ w := by omega
        rw [if_pos hi, if_neg hne]
        rfl
      rw [hskip]
      exact ih (by omega) h
    · rw [if_neg hi] at h
      have htry : (stealFrom n w i : PopResult T) = .running (.steal i .loadTail) := by
        unfold stealFrom
        rw [if_neg hi]
        exact if_pos (by omega)
      rw [htry]
      have hinside : ∀ (q : Queue T) pc, popStep n w q (.steal i pc) =
          shardPop q i pc (.steal i) (stealFrom n w (i + 1)) := fun _ _ => rfl
      split at h
      · cases h
      · rename_i hpop
        cases h
        exact popShard_ends hinside hpop (uncount_ends ..)
      · rename_i hpop
        have hrest := ih (i := i + 1) (by omega) h
        exact popShard_ends hinside hpop hrest

omit [DecidableEq T] in
theorem shardNumbers_eq (n : ℕ) : shardNumbers n = (List.range' 0 n).map Nat.cast := by
  rw [shardNumbers, List.range_eq_range']

/-- **`Pop(w)`**, access by access. -/
theorem pop_ends {n : ℕ} {w : Int} {q q' : Queue T} {r : Option T} (h : q.pop n w = some (q', r)) :
    Ends (popAccess n w) q (popStart n w).rest q' r := by
  unfold Queue.pop at h
  rw [shardNumbers_eq] at h
  by_cases hw : 0 ≤ w ∧ w < n
  · rw [if_pos hw] at h
    have hstart : (popStart n w : PopResult T) = .running (.own .loadTail) := if_pos hw
    have hinside : ∀ (q : Queue T) pc, popStep n w q (.own pc) = shardPop q w pc .own (stealFrom n w 0) :=
      fun _ _ => rfl
    rw [hstart]
    split at h
    · cases h
    · rename_i hpop
      cases h
      exact popShard_ends hinside hpop (uncount_ends ..)
    · rename_i hpop
      exact popShard_ends hinside hpop (stealLoop_ends (Nat.zero_add n) h)
  · rw [if_neg hw] at h
    have hstart : (popStart n w : PopResult T) = stealFrom n w 0 := if_neg hw
    rw [hstart]
    exact stealLoop_ends (Nat.zero_add n) h

end Code

/-! ## A pool of lists -/

/-- The tasks in each of the lists, the oldest first, and the number of tasks that were pushed. -/
structure Pool (T : Type*) where
  shards : ℕ → List T
  pushes : ℕ

def Pool.new : Pool T := ⟨fun _ => [], 0⟩

/-- The tasks in the lists `0, …, n - 1`. -/
def Pool.stored (n : ℕ) (a : Pool T) : List T := (List.range n).flatMap a.shards

/-- The list from which `Pop(w)` takes a task. -/
def Pool.pick (n : ℕ) (w : Int) (a : Pool T) : Option ℕ :=
  if 0 ≤ w ∧ w < n ∧ (a.shards w.toNat).isEmpty = false then some w.toNat
  else (List.range n).find? fun i => !(a.shards i).isEmpty

/-- The oldest task of list `i` is taken. -/
def Pool.take (a : Pool T) (i : ℕ) : Pool T × Option T :=
  ({ a with shards := Function.update a.shards i (a.shards i).tail }, (a.shards i).head?)

/-- `Pop(w)`. -/
def Pool.pop (n : ℕ) (w : Int) (a : Pool T) : Pool T × Option T :=
  match a.pick n w with
  | none => (a, none)
  | some i => a.take i

/-- The task is put into list `i`. -/
def Pool.put (a : Pool T) (i : ℕ) (task : T) : Pool T :=
  ⟨Function.update a.shards i (a.shards i ++ [task]), a.pushes + 1⟩

/-- A call. Tasks are pushed while they are not stored, fewer than 2^31 times. -/
def poolCall [DecidableEq T] (n : ℕ) (a : Pool T) : Op T → Option (Pool T × Answer T)
  | .push task =>
    if a.pushes + 1 < 2 ^ 31 ∧ task ∉ a.stored n then some (a.put (a.pushes % n) task, .pushed) else none
  | .pop w => some ((a.pop n w).1, .task (a.pop n w).2)
  | .empty => some (a, .empty (a.stored n).isEmpty)

/-! ## What the lists hold -/

section Pool

variable {n i : ℕ} {a : Pool T} {w : Int} {x : T} {xs : List T}

theorem mem_stored : x ∈ a.stored n ↔ ∃ i < n, x ∈ a.shards i := by
  simp only [Pool.stored, List.mem_flatMap, List.mem_range]

/-- One of the lists, and the others. -/
theorem stored_perm (hi : i < n) :
    (a.stored n).Perm (a.shards i ++ ((List.range n).erase i).flatMap a.shards) :=
  (List.perm_cons_erase (List.mem_range.mpr hi)).flatMap_right _

/-- One of the lists changes. -/
theorem stored_update_perm (hi : i < n) (pushes : ℕ) :
    (Pool.stored n ⟨Function.update a.shards i xs, pushes⟩).Perm
      (xs ++ ((List.range n).erase i).flatMap a.shards) := by
  have hothers : ((List.range n).erase i).flatMap (Function.update a.shards i xs) =
      ((List.range n).erase i).flatMap a.shards := by
    refine List.flatMap_congr fun j hj => Function.update_of_ne ?_ _ _
    exact ((List.nodup_range.mem_erase_iff).mp hj).1
  have hperm := stored_perm (a := ⟨Function.update a.shards i xs, pushes⟩) hi
  simp only [hothers, Function.update_self] at hperm
  exact hperm

theorem put_perm (hi : i < n) : ((a.put i x).stored n).Perm (x :: a.stored n) := by
  refine (stored_update_perm hi _).trans ?_
  rw [List.append_assoc]
  exact List.perm_middle.trans ((stored_perm hi).symm.cons x)

theorem take_perm (hi : i < n) (hx : a.shards i = x :: xs) :
    (a.stored n).Perm (x :: (a.take i).1.stored n) := by
  have hrest : (Pool.stored n ⟨Function.update a.shards i xs, a.pushes⟩).Perm
      (xs ++ ((List.range n).erase i).flatMap a.shards) := stored_update_perm hi a.pushes
  refine (stored_perm hi).trans ?_
  rw [hx, Pool.take, hx]
  exact hrest.symm.cons x

theorem stored_eq_nil : a.stored n = [] ↔ ∀ i < n, a.shards i = [] := by
  simp only [Pool.stored, List.flatMap_eq_nil_iff, List.mem_range]

/-- The list that `Pop(w)` picks is one of the lists, and not empty. -/
theorem pick_some (h : a.pick n w = some i) : i < n ∧ a.shards i ≠ [] := by
  unfold Pool.pick at h
  split at h
  · rename_i hw
    cases h
    exact ⟨by omega, fun hnil => by simp [hnil] at hw⟩
  · have hmem := List.mem_range.mp (List.mem_of_find?_eq_some h)
    have hne := List.find?_some h
    exact ⟨hmem, fun hnil => by simp [hnil] at hne⟩

/-- `Pop(w)` picks none when there is nothing to take. -/
theorem pick_none (h : a.pick n w = none) : a.stored n = [] := by
  unfold Pool.pick at h
  split at h
  · cases h
  · refine stored_eq_nil.mpr fun i hi => ?_
    have hempty := List.find?_eq_none.mp h i (List.mem_range.mpr hi)
    simpa using hempty

/-- **`Pop`** returns null if and only if no task is stored. -/
theorem pool_pop_none (w : Int) : (a.pop n w).2 = none ↔ a.stored n = [] := by
  unfold Pool.pop
  cases hpick : a.pick n w with
  | none => exact iff_of_true rfl (pick_none hpick)
  | some i =>
    obtain ⟨hi, hne⟩ := pick_some hpick
    refine iff_of_false (fun hhead => hne (List.head?_eq_none_iff.mp hhead)) fun hnil => ?_
    exact hne (stored_eq_nil.mp hnil i hi)

/-- What `Pop` returns was stored, and nothing else leaves the lists. -/
theorem pool_pop_perm (n : ℕ) (a : Pool T) (w : Int) :
    (a.stored n).Perm ((a.pop n w).2.toList ++ (a.pop n w).1.stored n) := by
  unfold Pool.pop
  cases hpick : a.pick n w with
  | none => exact .refl _
  | some i =>
    obtain ⟨hi, hne⟩ := pick_some hpick
    obtain ⟨x, xs, hx⟩ := List.exists_cons_of_ne_nil hne
    have hhead : (a.take i).2 = some x := by rw [Pool.take, hx, List.head?_cons]
    show (a.stored n).Perm ((a.take i).2.toList ++ (a.take i).1.stored n)
    rw [hhead]
    exact take_perm hi hx

end Pool

/-! ## The refinement -/

section Refinement

variable [DecidableEq T] {n i : ℕ} {q : Queue T} {a : Pool T} {w : Int} {x : T} {xs : List T}

/-- The shards hold the lists, which have no task in common, and `total_count_` is the number of their tasks. -/
structure Stored (n : ℕ) (q : Queue T) (a : Pool T) : Prop where
  holds : ∀ i : ℕ, Mpsc.Holds (q.shard i) (a.shards i)
  apart : ∀ i j x, x ∈ a.shards i → x ∈ a.shards j → i = j
  inside : ∀ i, n ≤ i → a.shards i = []
  count : q.totalCount = (a.stored n).length
  robin : q.roundRobin = a.pushes
  bound : (a.stored n).length ≤ a.pushes
  limit : a.pushes < 2 ^ 31

/-- The shards hold the lists, which have no task in common; nothing is said about the counters. -/
structure Shards (n : ℕ) (q : Queue T) (a : Pool T) : Prop where
  holds : ∀ i : ℕ, Mpsc.Holds (q.shard i) (a.shards i)
  apart : ∀ i j x, x ∈ a.shards i → x ∈ a.shards j → i = j
  inside : ∀ i, n ≤ i → a.shards i = []

/-- `total_count_` has been decremented, and `round_robin_` is what it was. -/
def Counted (q q' : Queue T) : Prop :=
  q'.totalCount = wrap32 (q.totalCount - 1) ∧ q'.roundRobin = q.roundRobin

omit [DecidableEq T] in
theorem stored_new (n : ℕ) : Stored n (.empty : Queue T) .new := by
  have hnil : (Pool.new : Pool T).stored n = [] := stored_eq_nil.mpr fun _ _ => rfl
  have hlen : (Pool.stored n (Pool.new : Pool T)).length = 0 := by rw [hnil, List.length_nil]
  constructor
  case holds => exact fun _ => Mpsc.holds_empty
  case apart => exact fun i j x hx => absurd hx List.not_mem_nil
  case inside => exact fun _ _ => rfl
  case count =>
    rw [hlen]
    rfl
  case robin => rfl
  case bound => exact Nat.le_of_eq hlen
  case limit => exact Nat.two_pow_pos 31

omit [DecidableEq T] in
theorem Stored.notMem (h : Stored n q a) (hx : x ∉ a.stored n) (i : ℕ) : x ∉ a.shards i := by
  intro hmem
  by_cases hi : i < n
  · exact hx (mem_stored.mpr ⟨i, hi, hmem⟩)
  · rw [h.inside i (Nat.le_of_not_lt hi)] at hmem
    cases hmem

omit [DecidableEq T] in
/-- A shard changes; the links of the tasks in the others stay. -/
theorem holds_setShard {shards : ℕ → List T} {m : Mpsc.Mem T} (h : ∀ j : ℕ, Mpsc.Holds (q.shard j) (shards j))
    (hm : Mpsc.Holds m xs) (hnext : ∀ j, j ≠ i → ∀ y ∈ shards j, m.next y = q.next y) (j : ℕ) :
    Mpsc.Holds ((q.setShard i m).shard j) (Function.update shards i xs j) := by
  by_cases hj : j = i
  · subst hj
    rw [Function.update_self, shard_setShard]
    exact hm
  · have hji : (j : Int) ≠ i := fun he => hj (Int.ofNat_inj.mp he)
    rw [Function.update_of_ne hj]
    exact (h j).congr (Function.update_of_ne hji _ _) (Function.update_of_ne hji _ _) (hnext j hj)

omit [DecidableEq T] in
/-- Lists stay apart when one of them changes to `xs`. -/
theorem apart_update {shards : ℕ → List T} (h : ∀ i j x, x ∈ shards i → x ∈ shards j → i = j)
    (hxs : ∀ y ∈ xs, ∀ j, j ≠ i → y ∉ shards j) :
    ∀ j k y, y ∈ Function.update shards i xs j → y ∈ Function.update shards i xs k → j = k := by
  intro j k y hj hk
  by_cases hji : j = i <;> by_cases hki : k = i
  · exact hji.trans hki.symm
  · rw [hji, Function.update_self] at hj
    rw [Function.update_of_ne hki] at hk
    exact absurd hk (hxs y hj k hki)
  · rw [Function.update_of_ne hji] at hj
    rw [hki, Function.update_self] at hk
    exact absurd hj (hxs y hk j hji)
  · rw [Function.update_of_ne hji] at hj
    rw [Function.update_of_ne hki] at hk
    exact h j k y hj hk

/-- **`Push`** puts the task into the next list. -/
theorem Stored.push (h : Stored n q a) (hn : 0 < n) (hlimit : a.pushes + 1 < 2 ^ 31) (hx : x ∉ a.stored n) :
    Stored n (q.push n x) (a.put (a.pushes % n) x) := by
  have hi : a.pushes % n < n := Nat.mod_lt _ hn
  have hindex : q.roundRobin.tmod n = (a.pushes % n : ℕ) := by
    rw [h.robin, Int.ofNat_tmod]
  have hlen := (put_perm (a := a) (x := x) hi).length_eq
  rw [List.length_cons] at hlen
  have hbound := h.bound
  have hcount := h.count
  have hq : q.push n x = { q.setShard (a.pushes % n : ℕ) ((q.shard (a.pushes % n : ℕ)).push x) with
      roundRobin := wrap32 (q.roundRobin + 1)
      totalCount := wrap32 (q.totalCount + 1) } := by
    rw [← hindex]
    rfl
  rw [hq]
  constructor
  case holds =>
    refine holds_setShard h.holds ((h.holds _).push (h.notMem hx _)) fun j hj y hy => ?_
    apply (h.holds (a.pushes % n)).push_next
    · exact fun hmem => hj (h.apart j _ y hy hmem)
    · exact fun he => h.notMem hx j (he ▸ hy)
  case apart =>
    refine apart_update h.apart fun y hy j hj hmem => ?_
    obtain hy | hy := List.mem_append.mp hy
    · exact hj (h.apart j _ y hmem hy)
    · exact h.notMem hx j (List.mem_singleton.mp hy ▸ hmem)
  case inside =>
    intro j hj
    have hji : j ≠ a.pushes % n := by omega
    exact (Function.update_of_ne hji _ _).trans (h.inside j hj)
  case count =>
    show wrap32 (q.totalCount + 1) = _
    rw [hlen, hcount, wrap32_eq (by omega) (by omega)]
    rfl
  case robin =>
    show wrap32 (q.roundRobin + 1) = ((a.pushes + 1 : ℕ) : Int)
    rw [h.robin, wrap32_eq (by omega) (by omega)]
    rfl
  case bound =>
    rw [hlen]
    exact Nat.succ_le_succ hbound
  case limit => exact hlimit

omit [DecidableEq T] in
/-- What the shards hold. -/
theorem Stored.shards (h : Stored n q a) : Shards n q a := ⟨h.holds, h.apart, h.inside⟩

/-- `Pop` of a shard without tasks. -/
theorem Shards.popShard_nil (h : Shards n q a) (hi : a.shards i = []) : q.popShard i = some (q, none) := by
  have hholds := h.holds i
  rw [hi] at hholds
  rw [Queue.popShard, hholds.pop_nil, Option.map_some, setShard_shard]

/-- **`Pop` of a shard** takes the oldest task of its list. -/
theorem Shards.popShard_cons (h : Shards n q a) (hi : i < n) (hx : a.shards i = x :: xs) :
    ∃ q', q.popShard i = some (q', some x) ∧ Shards n q'.uncount (a.take i).1 ∧ Counted q q'.uncount := by
  have hholds := h.holds i
  rw [hx] at hholds
  obtain ⟨m, hpop, hm, hnext⟩ := hholds.pop_cons
  have htake : (a.take i).1 = ⟨Function.update a.shards i xs, a.pushes⟩ := by rw [Pool.take, hx, List.tail_cons]
  rw [htake]
  refine ⟨q.setShard i m, by rw [Queue.popShard, hpop]; rfl, ?_, rfl, rfl⟩
  have hout : ∀ y ∈ x :: xs, ∀ j, j ≠ i → y ∉ a.shards j := fun y hy j hj hmem =>
    hj (h.apart j i y hmem (hx ▸ hy))
  constructor
  case holds =>
    refine holds_setShard h.holds hm fun j hj y hy => hnext y fun he => ?_
    exact hout x List.mem_cons_self j hj (he ▸ hy)
  case apart => exact apart_update h.apart fun y hy => hout y (List.mem_cons_of_mem x hy)
  case inside =>
    intro j hj
    have hji : j ≠ i := by omega
    exact (Function.update_of_ne hji _ _).trans (h.inside j hj)

/-- **The loop over the other shards** finds the first list that is not empty. -/
theorem Shards.stealLoop (h : Shards n q a) : ∀ {l : List ℕ}, (∀ i ∈ l, i < n) →
    (∀ i ∈ l, (i : Int) = w → a.shards i = []) →
    match l.find? fun i => !(a.shards i).isEmpty with
    | none => q.stealLoop w (l.map Nat.cast) = some (q, none)
    | some i => ∃ q', q.stealLoop w (l.map Nat.cast) = some (q', (a.take i).2) ∧ Shards n q' (a.take i).1 ∧
      Counted q q'
  | [], _, _ => rfl
  | i :: l, hlt, hw => by
    have ih := h.stealLoop (l := l) (fun j hj => hlt j (List.mem_cons_of_mem i hj))
      fun j hj => hw j (List.mem_cons_of_mem i hj)
    rw [List.map_cons, Queue.stealLoop]
    cases hx : a.shards i with
    | nil =>
      -- whether it is skipped or tried, the loop goes on
      have hgo : (if (i : Int) = w then q.stealLoop w (l.map Nat.cast) else match q.popShard i with
          | none => none
          | some (q', some task) => some (q'.uncount, some task)
          | some (q', none) => q'.stealLoop w (l.map Nat.cast)) = q.stealLoop w (l.map Nat.cast) := by
        rw [h.popShard_nil hx]
        exact ite_self _
      rw [List.find?_cons_of_neg (by simp [hx]), hgo]
      exact ih
    | cons x xs =>
      have hne : (i : Int) ≠ w := fun he => by
        have hnil := hw i List.mem_cons_self he
        rw [hx] at hnil
        cases hnil
      obtain ⟨q', hpop, hshards⟩ := h.popShard_cons (hlt i List.mem_cons_self) hx
      rw [List.find?_cons_of_pos (by simp [hx]), if_neg hne, hpop]
      refine ⟨_, ?_, hshards⟩
      rw [Pool.take, hx, List.head?_cons]

/-- **`Pop(w)`** takes the oldest task of list `w`, or else of the first list that is not empty. -/
theorem Shards.pop (h : Shards n q a) (w : Int) :
    ∃ q', q.pop n w = some (q', (a.pop n w).2) ∧ Shards n q' (a.pop n w).1 ∧
      match a.pick n w with
      | none => q' = q
      | some _ => Counted q q' := by
  -- the loop, when list `w` is empty or there is no such list
  have hloop : (∀ i < n, (i : Int) = w → a.shards i = []) →
      ∃ q', q.stealLoop w (shardNumbers n) = some (q', (a.pop n w).2) ∧ Shards n q' (a.pop n w).1 ∧
        match a.pick n w with
        | none => q' = q
        | some _ => Counted q q' := by
    intro hw
    have hpick : a.pick n w = (List.range n).find? fun i => !(a.shards i).isEmpty := by
      refine if_neg fun ⟨h0, hlt, hne⟩ => ?_
      rw [hw w.toNat (by omega) (by omega)] at hne
      cases hne
    have hsteal := h.stealLoop (w := w) (l := List.range n) (fun i hi => List.mem_range.mp hi) fun i hi =>
      hw i (List.mem_range.mp hi)
    rw [← hpick] at hsteal
    unfold Pool.pop
    cases hp : a.pick n w with
    | none =>
      rw [hp] at hsteal
      exact ⟨q, hsteal, h, rfl⟩
    | some i =>
      rw [hp] at hsteal
      exact hsteal
  unfold Queue.pop
  by_cases hw : 0 ≤ w ∧ w < n
  · rw [if_pos hw]
    obtain ⟨i, rfl⟩ := Int.eq_ofNat_of_zero_le hw.1
    have hi : i < n := by omega
    cases hx : a.shards i with
    | nil =>
      rw [h.popShard_nil hx]
      refine hloop fun j _ hj => ?_
      rw [Int.ofNat_inj.mp hj, hx]
    | cons x xs =>
      obtain ⟨q', hpop, hshards, hcounted⟩ := h.popShard_cons hi hx
      have hpick : a.pick n (i : Int) = some i := if_pos ⟨hw.1, hw.2, by rw [Int.toNat_natCast, hx]; rfl⟩
      have htake : (a.take i).2 = some x := by rw [Pool.take, hx, List.head?_cons]
      rw [Pool.pop, hpick, hpop]
      exact ⟨_, congrArg (fun r => some (q'.uncount, r)) htake.symm, hshards, hcounted⟩
  · rw [if_neg hw]
    exact hloop fun i hi he => absurd ⟨by omega, by omega⟩ hw

omit [DecidableEq T] in
/-- A task is taken, and the counter with it. -/
theorem Stored.take {q' : Queue T} (h : Stored n q a) (hi : i < n) (hne : a.shards i ≠ [])
    (hshards : Shards n q' (a.take i).1) (hcounted : Counted q q') : Stored n q' (a.take i).1 := by
  obtain ⟨x, xs, hx⟩ := List.exists_cons_of_ne_nil hne
  have hlen := (take_perm hi hx).length_eq
  rw [List.length_cons] at hlen
  have hbound := h.bound
  have hcount := h.count
  have hlimit := h.limit
  have hpushes : (a.take i).1.pushes = a.pushes := rfl
  refine ⟨hshards.holds, hshards.apart, hshards.inside, ?_, hcounted.2.trans h.robin, ?_, hlimit⟩
  · rw [hcounted.1, hcount, wrap32_eq (by omega) (by omega)]
    omega
  · omega

/-- **`Pop(w)`**, with its counter. -/
theorem Stored.pop (h : Stored n q a) (w : Int) :
    ∃ q', q.pop n w = some (q', (a.pop n w).2) ∧ Stored n q' (a.pop n w).1 := by
  obtain ⟨q', hpop, hshards, hcase⟩ := h.shards.pop w
  refine ⟨q', hpop, ?_⟩
  unfold Pool.pop at hshards ⊢
  cases hpick : a.pick n w with
  | none =>
    simp only [hpick] at hcase
    subst hcase
    exact h
  | some i =>
    simp only [hpick] at hcase hshards
    obtain ⟨hi, hne⟩ := pick_some hpick
    exact h.take hi hne hshards hcase

omit [DecidableEq T] in
/-- **`Empty`**. -/
theorem Stored.isEmpty (h : Stored n q a) : q.isEmpty = (a.stored n).isEmpty := by
  rw [Bool.eq_iff_iff, Queue.isEmpty, beq_iff_eq, h.count, List.isEmpty_iff_length_eq_zero]
  exact Int.ofNat_eq_zero

omit [DecidableEq T] in
/-- The scan of all shards. -/
theorem Stored.scanEmpty (h : Stored n q a) : q.scanEmpty n = (a.stored n).isEmpty := by
  have hshard : ∀ i : ℕ, (q.tail i).isNone = (a.shards i).isEmpty := fun i => by
    rw [show q.tail i = (a.shards i).head? from (h.holds i).path.head]
    cases a.shards i <;> rfl
  rw [Bool.eq_iff_iff, Queue.scanEmpty, List.all_eq_true, List.isEmpty_iff, stored_eq_nil]
  simp only [List.mem_range, hshard, List.isEmpty_iff]

/-- **One call**. -/
theorem pool_refines (hn : 0 < n) : Refines (Queue.call n) (poolCall n) (Stored (T := T) n) := by
  intro q a o a' r h hspec
  cases o with
  | push task =>
    obtain ⟨⟨hlimit, hx⟩, hspec⟩ := Option.ite_none_right_eq_some.mp hspec
    cases hspec
    exact ⟨_, rfl, h.push hn hlimit hx⟩
  | pop w =>
    cases hspec
    obtain ⟨q', hpop, hstored⟩ := h.pop w
    refine ⟨q', ?_, hstored⟩
    rw [Queue.call, hpop, Option.map_some]
  | empty =>
    cases hspec
    exact ⟨q, congrArg (fun r => some (q, Answer.empty r)) h.isEmpty, h⟩

end Refinement

/-- The tasks of the `Push` calls. -/
def pushedBy (ops : List (Op T)) : List T := ops.filterMap fun
  | .push task => some task
  | _ => none

/-- The tasks that `Pop` calls returned. -/
def returnedBy (rs : List (Answer T)) : List T := rs.filterMap fun
  | .task task => task
  | _ => none

theorem returnedBy_task (r : Option T) (rs : List (Answer T)) :
    returnedBy (.task r :: rs) = r.toList ++ returnedBy rs := by
  cases r <;> rfl

/-- **Conservation**: a task that was pushed has been returned, or is stored, as often as it was pushed. -/
theorem pool_perm [DecidableEq T] {n : ℕ} (hn : 0 < n) {ops : List (Op T)} {a a' : Pool T} {rs : List (Answer T)}
    (h : run (poolCall n) a ops = some (a', rs)) :
    (a.stored n ++ pushedBy ops).Perm (returnedBy rs ++ a'.stored n) := by
  induction ops generalizing a rs with
  | nil =>
    cases h
    exact .of_eq (List.append_nil _)
  | cons o ops ih =>
    obtain ⟨a₁, r, rs', ho, hops, rfl⟩ := run_cons h
    have hrest := ih hops
    cases o with
    | push task =>
      obtain ⟨-, ho⟩ := Option.ite_none_right_eq_some.mp ho
      cases ho
      refine .trans ?_ hrest
      exact List.perm_middle.trans ((put_perm (Nat.mod_lt _ hn)).symm.append_right _)
    | pop w =>
      cases ho
      have hpop := (pool_pop_perm n a w).append_right (pushedBy ops)
      rw [List.append_assoc] at hpop
      rw [returnedBy_task, List.append_assoc]
      exact hpop.trans (hrest.append_left _)
    | empty =>
      cases ho
      exact hrest

/-- **A pool of FIFO shards**: the answers after `Init(n)` are those of the pool of lists, in which `Pop` returns null
only when no task is stored; no task is lost or returned twice; `Empty` is a scan of all shards. -/
theorem pool_answers [DecidableEq T] {n : ℕ} (hn : 0 < n) {ops : List (Op T)} {a : Pool T} {rs : List (Answer T)}
    (hspec : run (poolCall n) .new ops = some (a, rs)) :
    (∃ q, run (Queue.call n) .empty ops = some (q, rs) ∧ Stored n q a ∧ q.isEmpty = q.scanEmpty n) ∧
      (∀ w, (a.pop n w).2 = none ↔ a.stored n = []) ∧ (pushedBy ops).Perm (returnedBy rs ++ a.stored n) := by
  refine ⟨?_, pool_pop_none, ?_⟩
  · obtain ⟨q, hrun, hstored⟩ := (pool_refines hn).run (stored_new n) hspec
    exact ⟨q, hrun, hstored, hstored.isEmpty.trans hstored.scanEmpty.symm⟩
  · have hperm := pool_perm hn hspec
    rwa [stored_eq_nil.mpr fun _ _ => rfl, List.nil_append] at hperm

theorem pool_answers_two : ∃ q,
    run (Queue.call 2) .empty [.push 10, .push 20, .push 30, .pop 1, .pop 1, .pop (-1), .empty, .pop 0] =
      some (q, [.pushed, .pushed, .pushed, .task (some 20), .task (some 10), .task (some 30), .empty true,
        .task none]) := by
  have hspec : (run (poolCall 2) .new
      [.push 10, .push 20, .push 30, .pop 1, .pop 1, .pop (-1), .empty, .pop 0]).any fun p =>
        p.2 = [.pushed, .pushed, .pushed, .task (some 20), .task (some 10), .task (some 30), .empty true,
          .task none] := by decide +kernel
  obtain ⟨⟨a, rs⟩, hrun, hrs⟩ := (Option.any_eq_true _ _).mp hspec
  obtain ⟨q, hq, -⟩ := (pool_answers (by decide) hrun).1
  exact ⟨q, of_decide_eq_true hrs ▸ hq⟩

end Cothread.Shared
