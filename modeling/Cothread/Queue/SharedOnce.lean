import Cothread.Queue.Shared
import Mathlib.Data.List.Nodup

/-!
# `SharedMPSCQueue` and tasks returned twice

Two workers inside `MpscQueue::Pop` of one shard may both read a task `t` from `tail_` and a link `n` from `t->next`,
and both store `n` to `tail_`: then both return `t` (`returned_twice`). The exchange of `head_` against null lets only
one worker through. While a worker stores `tail_` for `t` only if `t->next` still is `n` and no other worker is about
to clear `t->next`, each task is returned at most once (`returned_once`).
-/

namespace Cothread.Shared

open Run

variable {P T : Type*}

/-- The access inside a shard that this `Pop` performs next. -/
def PopPc.inside : PopPc T → Option (Mpsc.PopPc T)
  | .own pc | .steal _ pc => some pc
  | .count _ => none

/-- The task that this `Pop` has unlinked and not yet returned. -/
def PopPc.taken : PopPc T → List T
  | .own pc | .steal _ pc => pc.taken
  | .count t => [t]

/-- The task of a `Push` that has not reached its exchange. -/
def PushPc.early : PushPc T → Option T
  | .assign x | .shard _ (.clear x) | .shard _ (.exchange x) => some x
  | _ => none

/-- The link that this `Push` writes next. -/
def PushPc.linking : PushPc T → Option (T × T)
  | .shard _ (.link a x) => some (a, x)
  | _ => none

section Accessors

variable (s : State P T)

def State.inside (w : Int) : Option (Mpsc.PopPc T) := (s.pop w).bind PopPc.inside

def State.taken (w : Int) : List T := (s.pop w).elim [] PopPc.taken

def State.early (p : P) : Option T := (s.push p).bind PushPc.early

def State.linking (p : P) : Option (T × T) := (s.push p).bind PushPc.linking

/-- A task with no successor that no `Pop` has taken. -/
def Open (t : T) : Prop := s.queue.next t = none ∧ t ∉ s.returned ∧ ∀ w, t ∉ s.taken w

/-- An open task to which no `Push` is about to link. -/
def Last (t : T) : Prop := Open s t ∧ ∀ p x, s.linking p ≠ some (t, x)

/-- A task that has not been put behind any `head_`. -/
def Fresh (t : T) : Prop := Last s t ∧ ∀ i, s.queue.head i ≠ some t

end Accessors

/-- Each task is taken by one worker, and only a task with no successor is about to be linked or is a `head_`. -/
structure Inv (s : State P T) : Prop where
  returned : s.returned.Nodup
  held : ∀ w t, t ∈ s.taken w → t ∉ s.returned
  unique : ∀ w w' t, t ∈ s.taken w → t ∈ s.taken w' → w = w'
  linked : ∀ t n, s.queue.next t = some n → t ∉ s.returned ∧ ∀ w, t ∈ s.taken w → s.inside w = some (.clear t)
  pending : ∀ p t x, s.linking p = some (t, x) → Open s t
  pendingUnique : ∀ p p' t x x', s.linking p = some (t, x) → s.linking p' = some (t, x') → p = p'
  last : ∀ i t, s.queue.head i = some t → Last s t
  lastUnique : ∀ i j t, s.queue.head i = some t → s.queue.head j = some t → i = j
  early : ∀ p t, s.early p = some t → Fresh s t ∧ t ∈ s.pushed
  earlyUnique : ∀ p p' t, s.early p = some t → s.early p' = some t → p = p'
  fresh : ∀ t, t ∉ s.pushed → Fresh s t

/-! ## What a step can do -/

variable [DecidableEq P] [DecidableEq T]

/-- What the access of a producer changes. -/
inductive Produced (s t : State P T) (p : P) : Prop
  /-- Nothing that the invariant speaks of, but the progress of the call. -/
  | quiet : (∀ i, t.queue.head i = s.queue.head i) → (∀ x, t.queue.next x = s.queue.next x) →
      (t.early p = s.early p ∨ t.early p = none) → t.linking p = none → Produced s t p
  | clear (x : T) : s.early p = some x → (∀ i, t.queue.head i = s.queue.head i) →
      (∀ y, t.queue.next y = if y = x then none else s.queue.next y) → t.early p = some x → t.linking p = none →
      Produced s t p
  | exchange (i : Int) (x : T) : s.early p = some x →
      (∀ j, t.queue.head j = if j = i then some x else s.queue.head j) → (∀ y, t.queue.next y = s.queue.next y) →
      t.early p = none → t.linking p = (s.queue.head i).map (·, x) → Produced s t p
  | link (a x : T) : s.linking p = some (a, x) → (∀ i, t.queue.head i = s.queue.head i) →
      (∀ y, t.queue.next y = if y = a then some x else s.queue.next y) → t.early p = none → t.linking p = none →
      Produced s t p

theorem producer_cases (n : Int) {s : State P T} {p : P} {pc : PushPc T} (hp : s.push p = some pc) :
    Produced s (s.producer n p pc) p := by
  cases pc with
  | assign x =>
    refine .quiet (fun _ => rfl) (fun _ => rfl) (Or.inl ?_) ?_ <;>
      simp [State.early, State.linking, State.producer, hp, pushStep, PushPc.early, PushPc.linking]
  | count =>
    refine .quiet (fun _ => rfl) (fun _ => rfl) (Or.inr ?_) ?_ <;>
      simp [State.early, State.linking, State.producer, pushStep]
  | shard i pc =>
    cases pc with
    | clear x =>
      refine .clear x ?_ ?_ ?_ ?_ ?_ <;>
        simp [State.early, State.linking, State.producer, hp, pushStep, PushPc.early, PushPc.linking, Mpsc.pushStep,
          Queue.setShard, Queue.shard, Function.update_apply]
    | exchange x =>
      refine .exchange i x ?_ ?_ ?_ ?_ ?_ <;>
        cases hh : s.queue.head i <;>
        simp [State.early, State.linking, State.producer, hp, pushStep, PushPc.early, PushPc.linking, Mpsc.pushStep,
          Queue.setShard, Queue.shard, Function.update_apply, hh]
    | link a x =>
      refine .link a x ?_ ?_ ?_ ?_ ?_ <;>
        simp [State.early, State.linking, State.producer, hp, pushStep, PushPc.early, PushPc.linking, Mpsc.pushStep,
          Queue.setShard, Queue.shard, Function.update_apply]
    | setTail x =>
      refine .quiet ?_ ?_ (Or.inr ?_) ?_ <;>
        simp [State.early, State.linking, State.producer, pushStep, PushPc.early, PushPc.linking, Mpsc.pushStep,
          Queue.setShard, Queue.shard]

/-- What the access of a worker changes. -/
inductive Popped (s t : State P T) (w : Int) : Prop
  /-- Nothing that the invariant speaks of. -/
  | quiet : (∀ i, t.queue.head i = s.queue.head i) → (∀ x, t.queue.next x = s.queue.next x) →
      t.taken w = s.taken w → (∀ x, s.inside w ≠ some (.clear x)) → t.returned = s.returned → Popped s t w
  | store (x n : T) : s.inside w = some (.storeTail x n) → (∀ i, t.queue.head i = s.queue.head i) →
      (∀ y, t.queue.next y = s.queue.next y) → t.taken w = [x] → t.inside w = some (.clear x) →
      t.returned = s.returned → Popped s t w
  | claim (i : Int) (x : T) : s.queue.head i = some x → s.taken w = [] →
      (∀ j, t.queue.head j = if j = i then none else s.queue.head j) → (∀ y, t.queue.next y = s.queue.next y) →
      t.taken w = [x] → t.returned = s.returned → Popped s t w
  | clear (x : T) : (∀ i, t.queue.head i = s.queue.head i) →
      (∀ y, t.queue.next y = if y = x then none else s.queue.next y) → s.taken w = [x] → t.taken w = [x] →
      t.returned = s.returned → Popped s t w
  | finish (x : T) : (∀ i, t.queue.head i = s.queue.head i) → (∀ y, t.queue.next y = s.queue.next y) →
      s.taken w = [x] → s.inside w = none → t.taken w = [] → t.returned = s.returned ++ [x] → Popped s t w

section Worker

variable {s : State P T} {w i : Int} {c : PopPc T} {pc : Mpsc.PopPc T} {r : PopResult T}

omit [DecidableEq P] [DecidableEq T]

@[simp] theorem popped_queue : (s.popped w r).queue = s.queue := by
  rcases r with _ | _ | _ <;> rfl

theorem popped_frame : (s.popped w r).push = s.push ∧ (s.popped w r).pushed = s.pushed ∧
    ∀ w', w' ≠ w → (s.popped w r).pop w' = s.pop w' := by
  rcases r with _ | _ | _ <;> exact ⟨rfl, rfl, fun _ h => Function.update_of_ne h _ _⟩

theorem taken_of_pop (h : s.pop w = some c) : s.taken w = c.taken := by simp [State.taken, h]

theorem inside_of_pop (h : s.pop w = some c) : s.inside w = c.inside := by simp [State.inside, h]

/-- A `Pop` goes on. -/
theorem popped_running : (s.popped w (.running c)).taken w = c.taken ∧ (s.popped w (.running c)).inside w = c.inside ∧
    (s.popped w (.running c)).returned = s.returned := by
  simp [State.popped, State.taken, State.inside]

/-- `Pop` goes on with no task taken, or returns null. -/
def PopResult.Idle : PopResult T → Prop
  | .running c => c.taken = []
  | .returned x => x = none

theorem stealFrom_idle (n w i : Int) : (stealFrom n w i : PopResult T).Idle := by
  unfold stealFrom
  by_cases h : (if i = w then i + 1 else i) < n
  · simp [h, PopResult.Idle, PopPc.taken]
  · simp [h, PopResult.Idle]

theorem popStart_idle (n w : Int) : (popStart n w : PopResult T).Idle := by
  unfold popStart
  split
  · rfl
  · exact stealFrom_idle n w 0

theorem popped_idle (h : r.Idle) : (s.popped w r).taken w = [] ∧ (s.popped w r).returned = s.returned := by
  rcases r with c | x
  · exact ⟨popped_running.1.trans h, rfl⟩
  · cases h
    simp [State.popped, State.taken]

end Worker

omit [DecidableEq P] in
/-- An access inside the shard `i`. -/
theorem shardPop_cases {s : State P T} {w i : Int} {pc : Mpsc.PopPc T} {inside : Mpsc.PopPc T → PopPc T}
    {onEmpty : PopResult T} (hc : s.pop w = some (inside pc)) (hin : ∀ pc, (inside pc).inside = some pc)
    (htk : ∀ pc, (inside pc).taken = pc.taken) (hempty : onEmpty.Idle) :
    Popped s ({ s with queue := (shardPop s.queue i pc inside onEmpty).1 }.popped w
      (shardPop s.queue i pc inside onEmpty).2) w := by
  have hts : s.taken w = pc.taken := by rw [taken_of_pop hc, htk]
  have his : s.inside w = some pc := by rw [inside_of_pop hc, hin]
  have hidle := fun q => popped_idle (s := { s with queue := q }) (w := w) hempty
  cases pc with
  | loadTail =>
    refine .quiet ?_ ?_ ?_ ?_ ?_ <;> cases hq : s.queue.tail i <;>
      simp [shardPop, Mpsc.popStep, Queue.setShard, Queue.shard, hq, hidle, popped_running, hts, htk, his]
  | storeTail x n =>
    refine .store x n his ?_ ?_ ?_ ?_ ?_ <;>
      simp [shardPop, Mpsc.popStep, Queue.setShard, Queue.shard, popped_running, htk, hin]
  | claim x =>
    by_cases hq : s.queue.head i = some x
    · refine .claim i x hq hts ?_ ?_ ?_ ?_ <;>
        simp [shardPop, Mpsc.popStep, Queue.setShard, Queue.shard, popped_running, htk, hq, Function.update_apply]
    · refine .quiet ?_ ?_ ?_ ?_ ?_ <;>
        simp [shardPop, Mpsc.popStep, Queue.setShard, Queue.shard, popped_running, htk, hq, hts, his]
  | clear x =>
    refine .clear x ?_ ?_ hts ?_ ?_ <;>
      simp [shardPop, Mpsc.popStep, Queue.setShard, Queue.shard, popped_running, Function.update_apply, PopPc.taken]
  | loadNext x =>
    refine .quiet ?_ ?_ ?_ ?_ ?_ <;> cases hq : s.queue.next x <;>
      simp [shardPop, Mpsc.popStep, Queue.setShard, Queue.shard, hq, popped_running, hts, htk, his]
  | storeNull x =>
    refine .quiet ?_ ?_ ?_ ?_ ?_ <;>
      simp [shardPop, Mpsc.popStep, Queue.setShard, Queue.shard, popped_running, hts, htk, his]
  | spin x pauseCount yieldCount =>
    cases hq : s.queue.next x with
    | some n =>
      refine .quiet ?_ ?_ ?_ ?_ ?_ <;>
        simp [shardPop, Mpsc.popStep, Queue.setShard, Queue.shard, hq, popped_running, hts, htk, his]
    | none =>
      by_cases h₁ : pauseCount < Mpsc.MAX_PAUSE_SPINS <;> by_cases h₂ : yieldCount < Mpsc.MAX_YIELD_SPINS <;>
        refine .quiet ?_ ?_ ?_ ?_ ?_ <;>
        simp [shardPop, Mpsc.popStep, Queue.setShard, Queue.shard, hq, h₁, h₂, popped_running, hts, htk, his]
  | recheckTail x =>
    by_cases hq : s.queue.tail i = some x <;> refine .quiet ?_ ?_ ?_ ?_ ?_ <;>
      simp [shardPop, Mpsc.popStep, Queue.setShard, Queue.shard, hq, popped_running, hts, htk, his]
  | recheckHead x =>
    by_cases hq : s.queue.head i = none
    · have hup : Function.update s.queue.head i none = s.queue.head := Function.update_eq_self_iff.mpr hq.symm
      refine .quiet ?_ ?_ ?_ ?_ ?_ <;>
        simp [shardPop, Mpsc.popStep, Queue.setShard, Queue.shard, hq, hup, hidle, hts, his]
    · refine .quiet ?_ ?_ ?_ ?_ ?_ <;>
        simp [shardPop, Mpsc.popStep, Queue.setShard, Queue.shard, hq, popped_running, hts, htk, his]

omit [DecidableEq P] in
theorem worker_cases (n : Int) {s : State P T} {w : Int} {pc : PopPc T} (hp : s.pop w = some pc) :
    Popped s (s.worker n w pc) w := by
  cases pc with
  | own pc => exact shardPop_cases hp (fun _ => rfl) (fun _ => rfl) (stealFrom_idle n w 0)
  | steal i pc => exact shardPop_cases hp (fun _ => rfl) (fun _ => rfl) (stealFrom_idle n w (i + 1))
  | count x =>
    refine .finish x (fun _ => rfl) (fun _ => rfl) (taken_of_pop hp) (inside_of_pop hp) ?_ rfl
    simp [State.worker, popStep, State.popped, State.taken]

/-! ## The invariant -/

section Frame

variable {s t : State P T}

omit [DecidableEq P] [DecidableEq T] in
theorem Last.mono {x : T} (h : Last s x) (hopen : Open t x)
    (hlink : ∀ p y, t.linking p = some y → s.linking p = some y) : Last t x :=
  ⟨hopen, fun p y hp => h.2 p y (hlink p _ hp)⟩

/-! ### Producers -/

omit [DecidableEq T] in
/-- What an accessor says when only the call of `p` goes on, and has nothing new. -/
theorem some_of_frame {A : Type*} {f g : P → Option A} {p : P} (hf : ∀ p', f p' = if p' = p then f p else g p')
    (hp : f p = g p ∨ f p = none) (p' : P) (x : A) (h : f p' = some x) : g p' = some x := by
  rw [hf] at h
  split_ifs at h with he
  · subst he
    rcases hp with hp | hp
    · rwa [hp] at h
    · rw [hp] at h
      cases h
  · exact h

omit [DecidableEq P] [DecidableEq T] in
/-- A step of a producer that puts nothing in the place of a `head_`. -/
theorem Inv.producer_frame (h : Inv s) (hhead : t.queue.head = s.queue.head)
    (hearly : ∀ p x, t.early p = some x → s.early p = some x)
    (hlink : ∀ p y, t.linking p = some y → s.linking p = some y) (htk : t.taken = s.taken)
    (hr : t.returned = s.returned) (hpu : t.pushed = s.pushed)
    (hlinked : ∀ x n, t.queue.next x = some n → x ∉ t.returned ∧ ∀ w, x ∈ t.taken w → t.inside w = some (.clear x))
    (hpend : ∀ p x y, t.linking p = some (x, y) → Open t x) (hopen : ∀ x, Last s x → Open t x) : Inv t := by
  have hlast : ∀ x, Last s x → Last t x := fun x hx => hx.mono (hopen x hx) hlink
  have hfresh : ∀ x, Fresh s x → Fresh t x := fun x hx => ⟨hlast x hx.1, fun i => by rw [hhead]; exact hx.2 i⟩
  refine ⟨?_, ?_, ?_, hlinked, hpend, fun p p' x y y' hp hp' => ?_, fun i x hi => ?_, fun i j x hi hj => ?_,
    fun p x hp => ?_, fun p p' x hp hp' => ?_, fun x hx => ?_⟩
  · rw [hr]
    exact h.returned
  · rw [hr, htk]
    exact h.held
  · rw [htk]
    exact h.unique
  · exact h.pendingUnique p p' x y y' (hlink p _ hp) (hlink p' _ hp')
  · rw [hhead] at hi
    exact hlast x (h.last i x hi)
  · rw [hhead] at hi hj
    exact h.lastUnique i j x hi hj
  · rw [hpu]
    exact (h.early p x (hearly p x hp)).imp_left (hfresh x)
  · exact h.earlyUnique p p' x (hearly p x hp) (hearly p' x hp')
  · rw [hpu] at hx
    exact hfresh x (h.fresh x hx)

omit [DecidableEq T] in
/-- The exchange of `head_`: the new task is the last one, and its producer is about to link the old one to it. -/
theorem Inv.exchange {p : P} {i : Int} {x : T} (h : Inv s) (hx : s.early p = some x)
    (hhead : ∀ j, t.queue.head j = if j = i then some x else s.queue.head j) (hnext : t.queue.next = s.queue.next)
    (he : ∀ p', t.early p' = if p' = p then none else s.early p')
    (hl : ∀ p', t.linking p' = if p' = p then (s.queue.head i).map (·, x) else s.linking p') (htk : t.taken = s.taken)
    (hin : t.inside = s.inside) (hr : t.returned = s.returned) (hpu : t.pushed = s.pushed) : Inv t := by
  obtain ⟨hxfresh, hpushed⟩ := h.early p x hx
  have hopen : ∀ y, Open s y → Open t y := fun y hy => by
    unfold Open at hy ⊢
    rwa [hnext, hr, htk]
  have hlinks : ∀ q y z, t.linking q = some (y, z) →
      q = p ∧ s.queue.head i = some y ∨ q ≠ p ∧ s.linking q = some (y, z) := by
    intro q y z hq
    rw [hl] at hq
    split_ifs at hq with hqp
    · obtain ⟨a, ha, hay⟩ := Option.map_eq_some_iff.mp hq
      cases hay
      exact Or.inl ⟨hqp, ha⟩
    · exact Or.inr ⟨hqp, hq⟩
  have hearly : ∀ q y, t.early q = some y → q ≠ p ∧ s.early q = some y := by
    intro q y hq
    rw [he] at hq
    split_ifs at hq with hqp
    exact ⟨hqp, hq⟩
  -- nobody links to a task but to the old `head_`
  have hlast : ∀ y, Last s y → s.queue.head i ≠ some y → Last t y := by
    refine fun y hy hne => ⟨hopen y hy.1, fun q z hq => ?_⟩
    rcases hlinks q y z hq with ⟨_, hi⟩ | ⟨_, hq⟩
    · exact hne hi
    · exact hy.2 q z hq
  have hfresh : ∀ y, Fresh s y → y ≠ x → Fresh t y := by
    refine fun y hy hyx => ⟨hlast y hy.1 (hy.2 i), fun j hj => ?_⟩
    rw [hhead] at hj
    split_ifs at hj
    · exact hyx (Option.some.inj hj).symm
    · exact hy.2 j hj
  refine ⟨?_, ?_, ?_, ?_, fun q y z hq => ?_, fun q q' y z z' hq hq' => ?_, fun j y hj => ?_, fun j k y hj hk => ?_,
    fun q y hq => ?_, fun q q' y hq hq' => ?_, fun y hy => ?_⟩
  · rw [hr]
    exact h.returned
  · rw [hr, htk]
    exact h.held
  · rw [htk]
    exact h.unique
  · rw [hnext, hr, htk, hin]
    exact h.linked
  · rcases hlinks q y z hq with ⟨_, hi⟩ | ⟨_, hq⟩
    · exact hopen y (h.last i y hi).1
    · exact hopen y (h.pending q y z hq)
  · rcases hlinks q y z hq with ⟨hqp, hi⟩ | ⟨_, hq⟩ <;> rcases hlinks q' y z' hq' with ⟨hqp', hi'⟩ | ⟨_, hq'⟩
    · rw [hqp, hqp']
    · exact absurd hq' ((h.last i y hi).2 q' z')
    · exact absurd hq ((h.last i y hi').2 q z)
    · exact h.pendingUnique q q' y z z' hq hq'
  · rw [hhead] at hj
    split_ifs at hj with hji
    · cases hj
      exact hlast x hxfresh.1 (hxfresh.2 i)
    · exact hlast y (h.last j y hj) fun hi => hji (h.lastUnique j i y hj hi)
  · rw [hhead] at hj hk
    split_ifs at hj hk with hji hki hki
    · rw [hji, hki]
    · cases hj
      exact absurd hk (hxfresh.2 k)
    · cases hk
      exact absurd hj (hxfresh.2 j)
    · exact h.lastUnique j k y hj hk
  · obtain ⟨hqp, hq⟩ := hearly q y hq
    rw [hpu]
    refine (h.early q y hq).imp_left fun hy => hfresh y hy fun hyx => ?_
    subst hyx
    exact hqp (h.earlyUnique q p y hq hx)
  · exact h.earlyUnique q q' y (hearly q y hq).2 (hearly q' y hq').2
  · rw [hpu] at hy
    refine hfresh y (h.fresh y hy) fun hyx => ?_
    subst hyx
    exact hy hpushed

/-- The access of a producer keeps the invariant. -/
theorem Inv.produced {p : P} (h : Inv s) (hp : Produced s t p)
    (he : ∀ p', t.early p' = if p' = p then t.early p else s.early p')
    (hl : ∀ p', t.linking p' = if p' = p then t.linking p else s.linking p')
    (htk : ∀ w, t.taken w = s.taken w) (hin : ∀ w, t.inside w = s.inside w) (hr : t.returned = s.returned)
    (hpu : t.pushed = s.pushed) : Inv t := by
  have htk' : t.taken = s.taken := funext htk
  have hin' : t.inside = s.inside := funext hin
  have hopen : ∀ x, t.queue.next x = none → Open s x → Open t x := fun x hx hs =>
    ⟨hx, by rw [hr]; exact hs.2.1, fun w => by rw [htk]; exact hs.2.2 w⟩
  cases hp with
  | quiet hhead hnext hearly hlink =>
    have hlinks := some_of_frame hl (Or.inr hlink)
    refine h.producer_frame (funext hhead) (some_of_frame he hearly) hlinks htk' hr hpu (fun x n hx => ?_)
      (fun q x y hq => ?_) fun x hx => hopen x ((hnext x).trans hx.1.1) hx.1
    · rw [hnext] at hx
      rw [hr, htk', hin']
      exact h.linked x n hx
    · have hx := h.pending q x y (hlinks q _ hq)
      exact hopen x ((hnext x).trans hx.1) hx
  | clear x hx hhead hnext hearly hlink =>
    have hlinks := some_of_frame hl (Or.inr hlink)
    have hnone : ∀ y, Open s y → t.queue.next y = none := fun y hy => by
      rw [hnext]
      split_ifs
      · rfl
      · exact hy.1
    refine h.producer_frame (funext hhead) (some_of_frame he (Or.inl (hearly.trans hx.symm))) hlinks htk' hr hpu
      (fun y n hy => ?_) (fun q y z hq => ?_) fun y hy => hopen y (hnone y hy.1) hy.1
    · rw [hnext] at hy
      split_ifs at hy
      rw [hr, htk', hin']
      exact h.linked y n hy
    · have hy := h.pending q y z (hlinks q _ hq)
      exact hopen y (hnone y hy) hy
  | exchange i x hx hhead hnext hearly hlink =>
    exact h.exchange hx hhead (funext hnext) (fun q => by rw [he q, hearly]) (fun q => by rw [hl q, hlink]) htk' hin' hr
      hpu
  | link a x hx hhead hnext hearly hlink =>
    have ha : Open s a := h.pending p a x hx
    have hlinks := some_of_frame hl (Or.inr hlink)
    have hother : ∀ y, y ≠ a → Open s y → Open t y := fun y hya hy =>
      hopen y (by rw [hnext, if_neg hya]; exact hy.1) hy
    refine h.producer_frame (funext hhead) (some_of_frame he (Or.inr hearly)) hlinks htk' hr hpu
      (fun y n hy => ?_) (fun q y z hq => ?_) fun y hy => ?_
    · rw [hr, htk', hin']
      by_cases hya : y = a
      · subst hya
        exact ⟨ha.2.1, fun w hw => absurd hw (ha.2.2 w)⟩
      · rw [hnext, if_neg hya] at hy
        exact h.linked y n hy
    · have hq' := hlinks q _ hq
      refine hother y (fun hya => ?_) (h.pending q y z hq')
      subst hya
      -- the only link to `a` is the one that has been written
      obtain rfl := h.pendingUnique q p y z x hq' hx
      rw [hlink] at hq
      cases hq
    · refine hother y (fun hya => ?_) hy.1
      subst hya
      exact hy.2 p x hx

/-! ### Workers -/

omit [DecidableEq P] [DecidableEq T] in
/-- A step of a worker. -/
theorem Inv.worker_frame (h : Inv s) (hearly : t.early = s.early) (hlink : t.linking = s.linking)
    (hpu : t.pushed = s.pushed) (hhead : ∀ i x, t.queue.head i = some x → s.queue.head i = some x)
    (hret : t.returned.Nodup) (hheld : ∀ w x, x ∈ t.taken w → x ∉ t.returned)
    (hunique : ∀ w w' x, x ∈ t.taken w → x ∈ t.taken w' → w = w')
    (hlinked : ∀ x n, t.queue.next x = some n → x ∉ t.returned ∧ ∀ w, x ∈ t.taken w → t.inside w = some (.clear x))
    (hpend : ∀ p x y, s.linking p = some (x, y) → Open t x) (hlast : ∀ i x, t.queue.head i = some x → Open t x)
    (hfresh : ∀ x, Fresh s x → Open t x) : Inv t := by
  have hlinks : ∀ p y, t.linking p = some y → s.linking p = some y := fun p y hp => by rwa [hlink] at hp
  have hkeeps : ∀ x, Fresh s x → Fresh t x := fun x hx =>
    ⟨hx.1.mono (hfresh x hx) hlinks, fun i hi => hx.2 i (hhead i x hi)⟩
  refine ⟨hret, hheld, hunique, hlinked, fun p x y hp => hpend p x y (hlinks p _ hp), ?_, fun i x hi => ?_,
    fun i j x hi hj => ?_, fun p x hp => ?_, ?_, fun x hx => ?_⟩
  · rw [hlink]
    exact h.pendingUnique
  · exact (h.last i x (hhead i x hi)).mono (hlast i x hi) hlinks
  · exact h.lastUnique i j x (hhead i x hi) (hhead j x hj)
  · rw [hearly] at hp
    rw [hpu]
    exact (h.early p x hp).imp_left (hkeeps x)
  · rw [hearly]
    exact h.earlyUnique
  · rw [hpu] at hx
    exact hkeeps x (h.fresh x hx)

omit [DecidableEq P] [DecidableEq T] in
/-- A step of a worker after which every open task is still open. -/
theorem Inv.worker_open (h : Inv s) (hearly : t.early = s.early) (hlink : t.linking = s.linking)
    (hpu : t.pushed = s.pushed) (hhead : t.queue.head = s.queue.head) (hret : t.returned.Nodup)
    (hheld : ∀ w x, x ∈ t.taken w → x ∉ t.returned) (hunique : ∀ w w' x, x ∈ t.taken w → x ∈ t.taken w' → w = w')
    (hlinked : ∀ x n, t.queue.next x = some n → x ∉ t.returned ∧ ∀ w, x ∈ t.taken w → t.inside w = some (.clear x))
    (hopen : ∀ x, Open s x → Open t x) : Inv t := by
  refine h.worker_frame hearly hlink hpu (fun i x hi => hhead ▸ hi) hret hheld hunique hlinked
    (fun p x y hp => hopen x (h.pending p x y hp)) (fun i x hi => hopen x (h.last i x ?_).1) fun x hx => hopen x hx.1.1
  rwa [hhead] at hi

/-- A step of the worker `w` leaves the calls of all others alone. -/
structure Beside (s t : State P T) (w : Int) : Prop where
  taken : ∀ w', w' ≠ w → t.taken w' = s.taken w'
  inside : ∀ w', w' ≠ w → t.inside w' = s.inside w'
  early : t.early = s.early
  linking : t.linking = s.linking
  pushed : t.pushed = s.pushed

omit [DecidableEq P] [DecidableEq T] in
theorem beside_of_pop {w : Int} (hpush : t.push = s.push) (hpushed : t.pushed = s.pushed)
    (hpop : ∀ w', w' ≠ w → t.pop w' = s.pop w') : Beside s t w where
  taken w' hw := by rw [State.taken, State.taken, hpop w' hw]
  inside w' hw := by rw [State.inside, State.inside, hpop w' hw]
  early := by funext p; rw [State.early, State.early, hpush]
  linking := by funext p; rw [State.linking, State.linking, hpush]
  pushed := hpushed

section Access

variable {w : Int} {x : T} (h : Inv s) (hb : Beside s t w)

omit [DecidableEq P] [DecidableEq T]

include hb in
theorem Beside.taken_eq (htaken : t.taken w = s.taken w) : t.taken = s.taken := by
  funext w'
  by_cases hw : w' = w
  · rw [hw, htaken]
  · exact hb.taken w' hw

include hb in
/-- What others have taken, when this worker has `x` or nothing. -/
theorem Beside.mem_taken (htaken : ∀ y ∈ t.taken w, y = x) {w' : Int} {y : T} (hy : y ∈ t.taken w') :
    w' = w ∧ y = x ∨ w' ≠ w ∧ y ∈ s.taken w' := by
  by_cases hw : w' = w
  · subst hw
    exact .inl ⟨rfl, htaken y hy⟩
  · exact .inr ⟨hw, hb.taken w' hw ▸ hy⟩

include h hb in
/-- A linked task that another worker has taken: that one is about to clear the link. -/
theorem Beside.clears {y n : T} (hn : s.queue.next y = some n) {w' : Int} (hw : w' ≠ w) (hy : y ∈ s.taken w') :
    t.inside w' = some (.clear y) :=
  (hb.inside w' hw).trans ((h.linked y n hn).2 w' hy)

include h hb in
/-- A worker takes `x`, which nobody else has. -/
theorem Inv.takes (hx : x ∉ s.returned) (hother : ∀ w', w' ≠ w → x ∉ s.taken w') (htaken : t.taken w = [x]) :
    (∀ w' y, y ∈ t.taken w' → y ∉ s.returned) ∧ ∀ w' v y, y ∈ t.taken w' → y ∈ t.taken v → w' = v := by
  have hone : ∀ y ∈ t.taken w, y = x := fun y hy => List.mem_singleton.mp (htaken ▸ hy)
  refine ⟨fun w' y hy => ?_, fun w' v y hy hv => ?_⟩
  · obtain ⟨-, rfl⟩ | ⟨-, hy⟩ := hb.mem_taken hone hy
    · exact hx
    · exact h.held w' y hy
  · obtain ⟨rfl, rfl⟩ | ⟨hw, hy⟩ := hb.mem_taken hone hy <;> obtain ⟨rfl, hyx⟩ | ⟨hv', hv⟩ := hb.mem_taken hone hv
    · rfl
    · exact absurd hv (hother v hv')
    · subst hyx
      exact absurd hy (hother w' hw)
    · exact h.unique w' v y hy hv

include h hb in
/-- Nothing that the invariant speaks of. -/
theorem Inv.popped_quiet (hhead : ∀ i, t.queue.head i = s.queue.head i) (hnext : ∀ x, t.queue.next x = s.queue.next x)
    (htaken : t.taken w = s.taken w) (hclear : ∀ x, s.inside w ≠ some (.clear x)) (hret : t.returned = s.returned) :
    Inv t := by
  have htk : t.taken = s.taken := hb.taken_eq htaken
  refine h.worker_open hb.early hb.linking hb.pushed (funext hhead) (hret ▸ h.returned) ?_ ?_ (fun x n hx => ?_)
    fun x hx => ⟨(hnext x).trans hx.1, hret ▸ hx.2.1, htk ▸ hx.2.2⟩
  · rw [htk, hret]
    exact h.held
  · rw [htk]
    exact h.unique
  · rw [hnext] at hx
    obtain ⟨hx', hinside⟩ := h.linked x n hx
    rw [hret, htk]
    refine ⟨hx', fun w' hw' => hb.clears h hx (fun hw => ?_) hw'⟩
    exact hclear x (hw ▸ hinside w' hw')

include h hb in
/-- The worker stores `tail_`: then `x` is its task. -/
theorem Inv.popped_store {n : T} (hn : s.queue.next x = some n)
    (hw : ∀ w', w' ≠ w → s.inside w' ≠ some (.clear x)) (hhead : ∀ i, t.queue.head i = s.queue.head i)
    (hnext : ∀ y, t.queue.next y = s.queue.next y) (htaken : t.taken w = [x]) (hinside : t.inside w = some (.clear x))
    (hret : t.returned = s.returned) : Inv t := by
  -- `x` still has its link, so only a worker about to clear the link may have taken it
  obtain ⟨hx, hclear⟩ := h.linked x n hn
  have hother : ∀ w', w' ≠ w → x ∉ s.taken w' := fun w' hne hm => hw w' hne (hclear w' hm)
  have hone : ∀ y ∈ t.taken w, y = x := fun y hy => List.mem_singleton.mp (htaken ▸ hy)
  obtain ⟨hheld, hunique⟩ := h.takes hb hx hother htaken
  refine h.worker_open hb.early hb.linking hb.pushed (funext hhead) (hret ▸ h.returned) (hret ▸ hheld) hunique
    (fun y m hy => ?_) fun y hy => ⟨(hnext y).trans hy.1, hret ▸ hy.2.1, fun w' hw' => ?_⟩
  · rw [hnext] at hy
    rw [hret]
    refine ⟨(h.linked y m hy).1, fun w' hw' => ?_⟩
    obtain ⟨rfl, rfl⟩ | ⟨hne, hw'⟩ := hb.mem_taken hone hw'
    · exact hinside
    · exact hb.clears h hy hne hw'
  · obtain ⟨rfl, rfl⟩ | ⟨-, hw'⟩ := hb.mem_taken hone hw'
    · rw [hy.1] at hn
      cases hn
    · exact hy.2.2 w' hw'

include h hb in
/-- The worker takes `x` by the exchange of `head_` against null. -/
theorem Inv.popped_claim {i : Int} (hhead : s.queue.head i = some x)
    (hhead' : ∀ j, t.queue.head j = if j = i then none else s.queue.head j)
    (hnext : ∀ y, t.queue.next y = s.queue.next y) (htaken : t.taken w = [x]) (hret : t.returned = s.returned) :
    Inv t := by
  have hx : Last s x := h.last i x hhead
  have hone : ∀ y ∈ t.taken w, y = x := fun y hy => List.mem_singleton.mp (htaken ▸ hy)
  obtain ⟨hheld, hunique⟩ := h.takes hb hx.1.2.1 (fun w' _ => hx.1.2.2 w') htaken
  have hopen : ∀ y, y ≠ x → Open s y → Open t y := by
    refine fun y hyx hy => ⟨(hnext y).trans hy.1, hret ▸ hy.2.1, fun w' hw' => ?_⟩
    obtain ⟨-, rfl⟩ | ⟨-, hw'⟩ := hb.mem_taken hone hw'
    · exact hyx rfl
    · exact hy.2.2 w' hw'
  have hheads : ∀ j y, t.queue.head j = some y → j ≠ i ∧ s.queue.head j = some y := by
    intro j y hj
    rw [hhead'] at hj
    split_ifs at hj with hji
    exact ⟨hji, hj⟩
  refine h.worker_frame hb.early hb.linking hb.pushed (fun j y hj => (hheads j y hj).2) (hret ▸ h.returned)
    (hret ▸ hheld) hunique (fun y m hy => ?_) (fun q y z hq => ?_) (fun j y hj => ?_) fun y hy => ?_
  · rw [hnext] at hy
    rw [hret]
    refine ⟨(h.linked y m hy).1, fun w' hw' => ?_⟩
    obtain ⟨-, rfl⟩ | ⟨hne, hw'⟩ := hb.mem_taken hone hw'
    · rw [hx.1.1] at hy
      cases hy
    · exact hb.clears h hy hne hw'
  · refine hopen y (fun hyx => ?_) (h.pending q y z hq)
    subst hyx
    exact hx.2 q z hq
  · obtain ⟨hji, hj⟩ := hheads j y hj
    refine hopen y (fun hyx => ?_) (h.last j y hj).1
    subst hyx
    exact hji (h.lastUnique j i y hj hhead)
  · refine hopen y (fun hyx => ?_) hy.1.1
    subst hyx
    exact hy.2 i hhead

include h hb in
/-- The worker clears the link of its task. -/
theorem Inv.popped_clear [DecidableEq T] (hhead : ∀ i, t.queue.head i = s.queue.head i)
    (hnext : ∀ y, t.queue.next y = if y = x then none else s.queue.next y) (hmine : s.taken w = [x])
    (htaken : t.taken w = [x]) (hret : t.returned = s.returned) : Inv t := by
  have htk : t.taken = s.taken := hb.taken_eq (htaken.trans hmine.symm)
  refine h.worker_open hb.early hb.linking hb.pushed (funext hhead) (hret ▸ h.returned) ?_ ?_ (fun y m hy => ?_)
    fun y hy => ⟨?_, hret ▸ hy.2.1, htk ▸ hy.2.2⟩
  · rw [htk, hret]
    exact h.held
  · rw [htk]
    exact h.unique
  · rw [hnext] at hy
    split_ifs at hy with hyx
    rw [hret, htk]
    refine ⟨(h.linked y m hy).1, fun w' hw' => hb.clears h hy (fun hw => hyx ?_) hw'⟩
    -- the worker has taken `x` only
    rw [hw, hmine] at hw'
    exact List.mem_singleton.mp hw'
  · rw [hnext]
    split_ifs
    · rfl
    · exact hy.1

include h hb in
/-- The worker returns its task. -/
theorem Inv.popped_finish (hhead : ∀ i, t.queue.head i = s.queue.head i)
    (hnext : ∀ y, t.queue.next y = s.queue.next y) (hmine : s.taken w = [x]) (hinside : s.inside w = none)
    (htaken : t.taken w = []) (hret : t.returned = s.returned ++ [x]) : Inv t := by
  have hmem : ∀ w' y, y ∈ t.taken w' → w' ≠ w ∧ y ∈ s.taken w' := by
    intro w' y hy
    have hw : w' ≠ w := by
      rintro rfl
      rw [htaken] at hy
      cases hy
    exact ⟨hw, hb.taken w' hw ▸ hy⟩
  have hxw : x ∈ s.taken w := by rw [hmine]; exact List.mem_singleton_self x
  have hx : x ∉ s.returned := h.held w x hxw
  have hnx : s.queue.next x = none := by
    rw [Option.eq_none_iff_forall_ne_some]
    intro n hn
    have hclear := (h.linked x n hn).2 w hxw
    rw [hinside] at hclear
    cases hclear
  have hreturned : ∀ y, y ≠ x → y ∉ s.returned → y ∉ t.returned := by
    intro y hyx hy
    rw [hret, List.mem_append, List.mem_singleton]
    rintro (hm | hm)
    · exact hy hm
    · exact hyx hm
  refine h.worker_open hb.early hb.linking hb.pushed (funext hhead) ?_ (fun w' y hy => ?_) (fun w' v y hy hv => ?_)
    (fun y m hy => ?_) fun y hy => ?_
  · rw [hret]
    exact h.returned.append (List.nodup_singleton x) (by simpa using hx)
  · obtain ⟨hne, hy⟩ := hmem w' y hy
    refine hreturned y (fun hyx => ?_) (h.held w' y hy)
    subst hyx
    exact hne (h.unique w' w y hy hxw)
  · exact h.unique w' v y (hmem w' y hy).2 (hmem v y hv).2
  · rw [hnext] at hy
    refine ⟨hreturned y (fun hyx => ?_) (h.linked y m hy).1, fun w' hw' => ?_⟩
    · rw [hyx, hnx] at hy
      cases hy
    · obtain ⟨hne, hw'⟩ := hmem w' y hw'
      exact hb.clears h hy hne hw'
  · refine ⟨(hnext y).trans hy.1, hreturned y (fun hyx => ?_) hy.2.1, fun w' hw' => hy.2.2 w' (hmem w' y hw').2⟩
    exact hy.2.2 w (hyx ▸ hxw)

include h hb in
/-- The access of a worker keeps the invariant, unless it stores `tail_` for a task that another worker has taken. -/
theorem Inv.popped [DecidableEq T] (hp : Popped s t w)
    (hok : ∀ x n, s.inside w = some (.storeTail x n) →
      s.queue.next x = some n ∧ ∀ w', w' ≠ w → s.inside w' ≠ some (.clear x)) : Inv t := by
  cases hp with
  | quiet hhead hnext htaken hclear hret => exact h.popped_quiet hb hhead hnext htaken hclear hret
  | store x n hstore hhead hnext htaken hinside hret =>
    obtain ⟨hn, hw⟩ := hok x n hstore
    exact h.popped_store hb hn hw hhead hnext htaken hinside hret
  | claim i x hhead hmine hhead' hnext htaken hret => exact h.popped_claim hb hhead hhead' hnext htaken hret
  | clear x hhead hnext hmine htaken hret => exact h.popped_clear hb hhead hnext hmine htaken hret
  | finish x hhead hnext hmine hinside htaken hret =>
    exact h.popped_finish hb hhead hnext hmine hinside htaken hret

end Access

end Frame

/-! ## Every run -/

/-- A worker is about to store `tail_` for a task whose link is no longer the one it read, or that another worker has
taken and whose link that worker is about to clear. -/
def Doubled (s : State P T) : Label P T → Prop
  | .worker w => ∃ x n, s.inside w = some (.storeTail x n) ∧
      (s.queue.next x ≠ some n ∨ ∃ w', w' ≠ w ∧ s.inside w' = some (.clear x))
  | _ => False

section Runs

variable {n : Int} {s t : State P T} {l : Label P T}

omit [DecidableEq P] [DecidableEq T] in
theorem inv_empty : Inv (State.empty : State P T) := by
  constructor <;> simp [State.empty, State.taken, State.early, State.linking, Queue.empty, Fresh, Last, Open]

omit [DecidableEq T] in
/-- A `Push` is called with a task that was not pushed before. -/
theorem Inv.start {p : P} {x : T} (h : Inv s) (hx : x ∉ s.pushed)
    (he : ∀ p', t.early p' = if p' = p then some x else s.early p')
    (hl : ∀ p', t.linking p' = if p' = p then none else s.linking p') (hq : t.queue = s.queue)
    (hpop : t.pop = s.pop) (hr : t.returned = s.returned) (hpu : t.pushed = x :: s.pushed) : Inv t := by
  have htk : t.taken = s.taken := funext fun w => by rw [State.taken, State.taken, hpop]
  have hin : t.inside = s.inside := funext fun w => by rw [State.inside, State.inside, hpop]
  have hlinks : ∀ q y, t.linking q = some y → s.linking q = some y := by
    intro q y hq
    rw [hl] at hq
    split_ifs at hq
    exact hq
  have hopen : ∀ y, Open s y → Open t y := fun y hy => by
    unfold Open at hy ⊢
    rwa [hq, hr, htk]
  have hlast : ∀ y, Last s y → Last t y := fun y hy => hy.mono (hopen y hy.1) hlinks
  have hfresh : ∀ y, Fresh s y → Fresh t y := fun y hy => ⟨hlast y hy.1, by rw [hq]; exact hy.2⟩
  have hearly : ∀ q y, t.early q = some y → q = p ∧ y = x ∨ q ≠ p ∧ s.early q = some y := by
    intro q y hy
    rw [he] at hy
    split_ifs at hy with hqp
    · exact Or.inl ⟨hqp, (Option.some.inj hy).symm⟩
    · exact Or.inr ⟨hqp, hy⟩
  refine ⟨?_, ?_, ?_, ?_, fun q y z hz => ?_, fun q q' y z z' hz hz' => ?_, fun i y hi => ?_, ?_, fun q y hy => ?_,
    fun q q' y hy hy' => ?_, fun y hy => ?_⟩
  · rw [hr]
    exact h.returned
  · rw [hr, htk]
    exact h.held
  · rw [htk]
    exact h.unique
  · rw [hq, hr, htk, hin]
    exact h.linked
  · exact hopen y (h.pending q y z (hlinks q _ hz))
  · exact h.pendingUnique q q' y z z' (hlinks q _ hz) (hlinks q' _ hz')
  · rw [hq] at hi
    exact hlast y (h.last i y hi)
  · rw [hq]
    exact h.lastUnique
  · rw [hpu]
    rcases hearly q y hy with ⟨_, rfl⟩ | ⟨_, hy⟩
    · exact ⟨hfresh y (h.fresh y hx), List.mem_cons_self⟩
    · exact ⟨hfresh y (h.early q y hy).1, List.mem_cons_of_mem x (h.early q y hy).2⟩
  · rcases hearly q y hy with ⟨rfl, rfl⟩ | ⟨_, hy⟩ <;> rcases hearly q' y hy' with ⟨rfl, hyx⟩ | ⟨_, hy'⟩
    · rfl
    · exact absurd (h.early q' y hy').2 hx
    · subst hyx
      exact absurd (h.early q y hy).2 hx
    · exact h.earlyUnique q q' y hy hy'
  · rw [hpu, List.mem_cons, not_or] at hy
    exact hfresh y (h.fresh y hy.2)

omit [DecidableEq T] in
/-- What the progress of one call means for the accessors. -/
theorem push_frame {p : P} (hpush : ∀ p', p' ≠ p → t.push p' = s.push p') :
    (∀ p', t.early p' = if p' = p then t.early p else s.early p') ∧
      ∀ p', t.linking p' = if p' = p then t.linking p else s.linking p' := by
  refine ⟨fun p' => ?_, fun p' => ?_⟩ <;> by_cases h : p' = p
  · simp [h]
  · simp [h, State.early, hpush p' h]
  · simp [h]
  · simp [h, State.linking, hpush p' h]

/-- **Every step keeps the invariant**, unless it stores `tail_` for a task that another worker has taken. -/
theorem inv_step (h : Inv s) (hok : ¬Doubled s l) (hs : step n s l = some t) : Inv t := by
  cases l with
  | push p x =>
    simp only [step, Option.ite_none_right_eq_some, Option.some.injEq] at hs
    obtain ⟨⟨_, hx⟩, rfl⟩ := hs
    obtain ⟨he, hl⟩ := push_frame (s := s) (p := p)
      (t := { s with push := Function.update s.push p (some (.assign x)), pushed := x :: s.pushed })
      fun _ hne => Function.update_of_ne hne _ _
    refine h.start (p := p) hx (fun p' => ?_) (fun p' => ?_) rfl rfl rfl rfl
    · rw [he p']; simp [State.early, PushPc.early]
    · rw [hl p']; simp [State.linking, PushPc.linking]
  | producer p =>
    obtain ⟨pc, hp, rfl⟩ := Option.map_eq_some_iff.mp hs
    obtain ⟨he, hl⟩ := push_frame (s := s) (t := s.producer n p pc) (p := p) fun _ hne => Function.update_of_ne hne _ _
    exact h.produced (producer_cases n hp) he hl (fun _ => rfl) (fun _ => rfl) rfl rfl
  | pop w =>
    simp only [step, Option.ite_none_right_eq_some, Option.some.injEq] at hs
    obtain ⟨hp, rfl⟩ := hs
    obtain ⟨hpush, hpushed, hpop⟩ := popped_frame (s := s) (w := w) (r := popStart n w)
    obtain ⟨htaken, hret⟩ := popped_idle (s := s) (w := w) (popStart_idle n w)
    have hno : s.inside w = none := by simp [State.inside, hp]
    exact h.popped (beside_of_pop hpush hpushed hpop)
      (.quiet (by simp) (by simp) (by rw [htaken]; simp [State.taken, hp]) (by simp [hno]) hret) (by simp [hno])
  | worker w =>
    obtain ⟨pc, hp, rfl⟩ := Option.map_eq_some_iff.mp hs
    obtain ⟨hpush, hpushed, hpop⟩ := popped_frame (s := { s with queue := (popStep n w s.queue pc).1 }) (w := w)
      (r := (popStep n w s.queue pc).2)
    refine h.popped (beside_of_pop hpush hpushed hpop) (worker_cases n hp) fun x n' hx => ?_
    by_contra hcon
    refine hok ⟨x, n', hx, ?_⟩
    by_contra hall
    simp only [not_or, not_exists, not_and, ne_eq, not_not] at hall
    exact hcon hall

/-- **Each task is returned at most once** in every run in which no worker stores `tail_` for a task that another worker
has taken. -/
theorem returned_once (n : Int) (s : State P T) (hs : Reach (system P T n) (fun s l => ¬Doubled s l) s) :
    s.returned.Nodup := by
  have hi : Inv s := by
    refine hs.invariant ?_ fun _ _ _ hi hok h => inv_step hi hok h
    rintro _ rfl
    exact inv_empty
  exact hi.returned

end Runs

/-- The next access is not a store of a link to `tail_`. -/
def NoStore (s : State P T) : Label P T → Prop
  | .worker w => (s.inside w).all fun | .storeTail _ _ => false | _ => true
  | _ => True

instance (s : State P T) : ∀ l, Decidable (NoStore s l)
  | .worker w => inferInstanceAs (Decidable ((s.inside w).all _ = true))
  | .push _ _ | .producer _ | .pop _ => inferInstanceAs (Decidable True)

omit [DecidableEq P] [DecidableEq T] in
theorem not_doubled_of_noStore (s : State P T) (l : Label P T) (h : NoStore s l) : ¬Doubled s l := by
  cases l with
  | worker w =>
    rintro ⟨x, n, hx, _⟩
    simp [NoStore, hx] at h
  | _ => exact not_false

/-- Two tasks are pushed to the only shard and its worker takes the first one. -/
theorem returned_once_two_pushes : ∃ s : State ℕ ℕ, s.returned = [10] ∧ s.returned.Nodup := by
  have h₁ := reach_exec not_doubled_of_noStore (.init rfl) (show exec (system ℕ ℕ 1) .empty
    (.push 0 10 :: List.replicate 5 (.producer 0) ++ .push 0 20 :: List.replicate 5 (.producer 0) ++
      [.pop 0, .worker 0, .worker 0]) = some _ from rfl) (by decide)
  have h₂ := h₁.step (l := .worker 0) ?_ rfl
  · exact ⟨_, rfl, returned_once 1 _ (reach_exec not_doubled_of_noStore h₂
      (show exec (system ℕ ℕ 1) _ [.worker 0, .worker 0] = some _ from rfl) (by decide))⟩
  · rintro ⟨x, n, hx, h | ⟨w, hw, h⟩⟩
    · cases hx
      exact h rfl
    · match w, hw, h with
      | .ofNat 0, hw, _ => exact hw rfl

/-! ## A task returned twice -/

/-- Workers 0 and 1 both read task 10 and its link from shard 0. -/
def doubleRun : List (Label ℕ ℕ) :=
  .push 0 10 :: List.replicate 5 (.producer 0) ++ .push 0 20 :: List.replicate 5 (.producer 0) ++
    .push 0 30 :: List.replicate 5 (.producer 0) ++ .pop 1 :: List.replicate 6 (.worker 1) ++
    [.pop 1, .worker 1, .worker 1, .worker 1, .pop 0, .worker 0, .worker 0,
      .worker 1, .worker 1, .worker 1, .worker 0, .worker 0, .worker 0]

/-- **A task is returned twice.** -/
theorem returned_twice : ∃ s, exec (system ℕ ℕ 2) .empty doubleRun = some s ∧ s.pushed = [30, 20, 10] ∧
    s.returned = [20, 10, 10] ∧ Reachable (system ℕ ℕ 2) s ∧ ¬s.returned.Nodup := by
  have hrun : (exec (system ℕ ℕ 2) .empty doubleRun).any
      (fun s => decide (s.pushed = [30, 20, 10] ∧ s.returned = [20, 10, 10])) = true := by
    decide +kernel
  obtain ⟨s, hs, hpushed, hreturned⟩ := of_exec_any hrun
  refine ⟨s, hs, hpushed, hreturned, reachable_exec (.init rfl) hs, ?_⟩
  rw [hreturned]
  decide

end Cothread.Shared
