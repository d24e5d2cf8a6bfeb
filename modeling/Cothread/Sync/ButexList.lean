import Cothread.Lib.Chain
import Cothread.Lib.Run
import Mathlib.Data.List.Count
import Mathlib.Data.Fintype.Basic

/-!
# `Butex`: the wait list when waits are abandoned and retried

Any number of tasks wait on one butex, again and again; the operations are atomic. A `Wait` resets `next` and
`claimed` of the task's node and adds it at the tail or at the head; one that is abandoned because the value has
changed leaves the node linked, claimed. `Wake` pops the first node that is not claimed. A task that waits again while
its node is still linked writes over a link of the list: the list becomes a loop, or loses the waiters behind the node
(`broken_list`). While tasks wait again only with a node that is not linked, the list is finite, holds each waiting
task once, and every `PopFromHead` returns (`list_stays_finite`).
-/

namespace Cothread.WaitList

open Run Chain

variable {T : Type*}

/-- The wait list, and the fields of the tasks that belong to it. -/
structure State (T : Type*) where
  head : Option T
  tail : Option T
  next : T → Option T
  claimed : T → Bool
  isWaiting : T → Bool

inductive Label (T : Type*)
  | wait (t : T) (prepend : Bool)
  | abandon (t : T)
  | wake (fuel : ℕ)  -- one waiter; `PopFromHead` takes at most that many rounds
  deriving DecidableEq

/-- Nobody is waiting. -/
def State.start (T : Type*) : State T where
  head := none
  tail := none
  next _ := none
  claimed _ := false
  isWaiting _ := false

section Steps

variable [DecidableEq T]

/-- `AddToTail`. -/
def State.addToTail (s : State T) (t : T) : State T :=
  let next := Function.update s.next t none
  match s.tail with
  | some prev =>
    { s with claimed := Function.update s.claimed t false, tail := some t, next := Function.update next prev (some t) }
  | none =>
    { s with claimed := Function.update s.claimed t false, tail := some t, next := next,
             head := if s.head = none then some t else s.head }

/-- `AddToHead`. -/
def State.addToHead (s : State T) (t : T) : State T :=
  { s with
    next := Function.update s.next t s.head
    head := some t
    tail := if s.head = none ∧ s.tail = none then some t else s.tail }

/-- `Wait`: steps 2, 3 and 7. -/
def State.wait (s : State T) (t : T) (prepend : Bool) : State T :=
  if s.isWaiting t then s
  else
    let r := { s with
      isWaiting := Function.update s.isWaiting t true
      next := Function.update s.next t none
      claimed := Function.update s.claimed t false }
    if prepend then r.addToHead t else r.addToTail t

/-- `Wait`: step 7.5 finds the value changed. -/
def State.abandon (s : State T) (t : T) : State T :=
  { s with claimed := Function.update s.claimed t true, isWaiting := Function.update s.isWaiting t false }

/-- One round of the loop of `PopFromHead`: the result, or `none` when it goes on. -/
def State.popRound (s : State T) : State T × Option (Option T) :=
  match s.head with
  | none => (s, if s.tail = none then some none else none)
  | some head =>
    if s.claimed head then
      match s.next head with
      | some next => ({ s with head := some next }, none)
      | none => (if s.tail = some head then { s with head := none, tail := none } else s, none)
    else
      match s.next head with
      | some next => ({ s with claimed := Function.update s.claimed head true, head := some next }, some (some head))
      | none =>
        ({ s with
          claimed := Function.update s.claimed head true
          head := none
          tail := if s.tail = some head then none else s.tail }, some (some head))

/-- `PopFromHead`, when it returns in that many rounds. -/
def State.popFromHead : ℕ → State T → Option (State T × Option T)
  | 0, _ => none
  | fuel + 1, s => match s.popRound with
    | (s', some r) => some (s', r)
    | (s', none) => State.popFromHead fuel s'

/-- `Wake`: the popped task is not waiting any more. -/
def State.woken (s : State T) : Option T → State T
  | some t => { s with isWaiting := Function.update s.isWaiting t false }
  | none => s

/-- One step. -/
def step (s : State T) : Label T → Option (State T)
  | .wait t prepend => some (s.wait t prepend)
  | .abandon t => if s.isWaiting t then some (s.abandon t) else none
  | .wake fuel => (s.popFromHead fuel).map fun r => r.1.woken r.2

end Steps

/-- Any tasks on one butex. -/
def system (T : Type*) [DecidableEq T] : System (State T) (Label T) where
  init s := s = .start T
  step := step

/-- A task waits again while its node is still linked. -/
def Relinked (s : State T) : Label T → Prop
  | .wait t _ => s.isWaiting t = false ∧ Reaches s.next s.head t
  | _ => False

/-- **The wait list is a finite list**: it ends, no node repeats, each waiting task is in it once and not claimed, and
`PopFromHead` returns. -/
structure Finite [DecidableEq T] (s : State T) : Prop where
  list : ∃ l, Path s.next s.head l ∧ l.Nodup ∧ ∀ t, s.isWaiting t = true → l.count t = 1 ∧ s.claimed t = false
  pops : ∃ fuel, (s.popFromHead fuel).isSome

/-! ## The invariant -/

/-- The list from the head, with the tail at its end; the waiting tasks are in it and not claimed. -/
structure Good (s : State T) (l : List T) : Prop where
  path : Path s.next s.head l
  nodup : l.Nodup
  tail : s.tail = l.getLast?
  waiting : ∀ t, s.isWaiting t = true → t ∈ l ∧ s.claimed t = false

section Steps

variable [DecidableEq T] {s s' : State T} {l : List T} {t : T}

/-- A task whose node is not linked adds it at the tail. -/
theorem Good.tail_add (h : Good s l) (ht : t ∉ l) : Good ({ s with
    isWaiting := Function.update s.isWaiting t true
    next := Function.update s.next t none
    claimed := Function.update s.claimed t false }.addToTail t) (l ++ [t]) := by
  have hwaiting : ∀ u, Function.update s.isWaiting t true u = true →
      u ∈ l ++ [t] ∧ Function.update (Function.update s.claimed t false) t false u = false := by
    intro u hu
    by_cases hut : u = t
    · subst hut; simp
    · obtain ⟨h1, h2⟩ := h.waiting u (by simpa [hut] using hu)
      exact ⟨List.mem_append_left _ h1, by simpa [hut] using h2⟩
  have hnodup : (l ++ [t]).Nodup := List.nodup_append.mpr
    ⟨h.nodup, List.nodup_singleton t, fun a ha b hb he => ht (by rw [← List.mem_singleton.mp hb, ← he]; exact ha)⟩
  cases hl : s.tail with
  | none =>
    have hnil : l = [] := List.getLast?_eq_none_iff.mp (h.tail ▸ hl)
    subst hnil
    have hhead : s.head = none := h.path
    refine ⟨⟨?_, ?_⟩, hnodup, ?_, ?_⟩
    · simp [State.addToTail, hhead]
    · simp [State.addToTail]
      rfl
    · simp [State.addToTail]
    · simpa [State.addToTail] using hwaiting
  | some prev =>
    have hlast : l.getLast? = some prev := h.tail ▸ hl
    have hpt : prev ≠ t := ne_of_mem_of_not_mem (List.mem_of_getLast? hlast) ht
    refine ⟨?_, hnodup, ?_, ?_⟩
    · simp only [State.addToTail]
      refine Path.snoc (Function.update_self ..) ?_ h.nodup (fun y hy hne => ?_) hlast h.path
      · rw [Function.update_of_ne hpt.symm]
        exact Function.update_self ..
      · have hyt : y ≠ t := ne_of_mem_of_not_mem hy ht
        simp [hne, hyt]
    · simp [State.addToTail]
    · simpa [State.addToTail] using hwaiting

/-- A task whose node is not linked adds it at the head. -/
theorem Good.head_add (h : Good s l) (ht : t ∉ l) : Good ({ s with
    isWaiting := Function.update s.isWaiting t true
    next := Function.update s.next t none
    claimed := Function.update s.claimed t false }.addToHead t) (t :: l) where
  path := by
    have hpath : Path (Function.update s.next t none) s.head l := h.path.update_of_notMem ht
    exact hpath.push ht
  nodup := List.nodup_cons.mpr ⟨ht, h.nodup⟩
  tail := by
    have hhead := h.path.head
    have htail := h.tail
    cases l with
    | nil => simp [State.addToHead, show s.head = none from hhead, show s.tail = none from htail]
    | cons x l =>
      simp only [State.addToHead, show s.head = some x from hhead]
      simpa using htail
  waiting u hu := by
    by_cases hut : u = t
    · subst hut; simp [State.addToHead]
    · obtain ⟨h1, h2⟩ := h.waiting u (by simpa [State.addToHead, hut] using hu)
      exact ⟨List.mem_cons_of_mem _ h1, by simpa [State.addToHead, hut] using h2⟩

/-- A waiter leaves the list, or only stops waiting: `r` is the state before that. -/
theorem Good.leave (h : Good s l) {r : State T} {x : T} {q : List T} (hpath : Path r.next r.head q) (hq : q.Nodup)
    (htail : r.tail = q.getLast?) (hw : r.isWaiting = s.isWaiting) (hc : ∀ u, u ≠ x → r.claimed u = s.claimed u)
    (hm : ∀ u ∈ l, u ≠ x → u ∈ q) : Good { r with isWaiting := Function.update r.isWaiting x false } q := by
  refine ⟨hpath, hq, htail, fun u hu => ?_⟩
  have hux : u ≠ x := by
    rintro rfl
    simp at hu
  obtain ⟨h1, h2⟩ := h.waiting u (by simpa [hux, hw] using hu)
  exact ⟨hm u h1 hux, (hc u hux).trans h2⟩

theorem Good.abandon (h : Good s l) : Good (s.abandon t) l :=
  h.leave (r := { s with claimed := Function.update s.claimed t true }) h.path h.nodup h.tail rfl
    (fun _ hu => Function.update_of_ne hu _ _) fun _ hu _ => hu

/-- **One round of `PopFromHead`**: the list is empty, or a claimed node is dropped, or the first node is popped. -/
theorem Good.popRound (h : Good s l) : (l = [] ∧ s.popRound = (s, some none)) ∨
    ∃ x q, l = x :: q ∧ ((∃ r, s.popRound = (r, none) ∧ Good r q) ∨
      ∃ r, s.popRound = (r, some (some x)) ∧ Good (r.woken (some x)) q) := by
  cases l with
  | nil => exact Or.inl ⟨rfl, by simp [State.popRound, show s.head = none from h.path, show s.tail = none from h.tail]⟩
  | cons x q =>
    right
    refine ⟨x, q, rfl, ?_⟩
    have hx : s.head = some x := h.path.1
    have hpath : Path s.next (s.next x) q := h.path.2
    obtain ⟨hxq, hnd⟩ := List.nodup_cons.mp h.nodup
    have hrest : ∀ u ∈ x :: q, u ≠ x → u ∈ q := fun u hu hux => (List.mem_cons.mp hu).resolve_left hux
    cases hc : s.claimed x with
    | true =>
      left
      have hwait : ∀ u, s.isWaiting u = true → u ∈ q ∧ s.claimed u = false := fun u hu => by
        obtain ⟨h1, h2⟩ := h.waiting u hu
        refine ⟨hrest u h1 ?_, h2⟩
        rintro rfl
        rw [hc] at h2
        cases h2
      cases q with
      | nil =>
        have hnext : s.next x = none := hpath
        have htail : s.tail = some x := by simpa using h.tail
        exact ⟨{ s with head := none, tail := none }, by simp [State.popRound, hx, hc, hnext, htail], rfl, hnd,
          rfl, hwait⟩
      | cons y q =>
        have hnext : s.next x = some y := hpath.1
        exact ⟨{ s with head := some y }, by simp [State.popRound, hx, hc, hnext], ⟨rfl, hpath.2⟩, hnd,
          by simpa using h.tail, hwait⟩
    | false =>
      right
      cases q with
      | nil =>
        have hnext : s.next x = none := hpath
        have htail : s.tail = some x := by simpa using h.tail
        refine ⟨{ s with claimed := Function.update s.claimed x true, head := none, tail := none },
          by simp [State.popRound, hx, hc, hnext, htail], ?_⟩
        exact h.leave
          (r := { s with claimed := Function.update s.claimed x true, head := none, tail := none }) rfl hnd rfl
          rfl (fun u hu => Function.update_of_ne hu _ _) hrest
      | cons y q =>
        have hnext : s.next x = some y := hpath.1
        refine ⟨{ s with claimed := Function.update s.claimed x true, head := some y },
          by simp [State.popRound, hx, hc, hnext], ?_⟩
        exact h.leave (r := { s with claimed := Function.update s.claimed x true, head := some y }) ⟨rfl, hpath.2⟩ hnd
          (by simpa using h.tail) rfl (fun u hu => Function.update_of_ne hu _ _) hrest

/-- **`PopFromHead` returns**: every round drops a node. -/
theorem Good.pops (h : Good s l) : ∃ fuel, (s.popFromHead fuel).isSome := by
  induction l generalizing s with
  | nil =>
    obtain ⟨-, hr⟩ | ⟨x, q, hl, -⟩ := h.popRound
    · exact ⟨1, by simp [State.popFromHead, hr]⟩
    · cases hl
  | cons x q ih =>
    obtain ⟨hl, -⟩ | ⟨y, r, hl, ⟨s', hr, hg⟩ | ⟨s', hr, -⟩⟩ := h.popRound
    · cases hl
    · cases hl
      obtain ⟨fuel, hf⟩ := ih hg
      exact ⟨fuel + 1, by simpa [State.popFromHead, hr] using hf⟩
    · exact ⟨1, by simp [State.popFromHead, hr]⟩

/-- What `Wake` leaves. -/
theorem Good.wake (h : Good s l) {fuel : ℕ} {o : Option T} (hp : s.popFromHead fuel = some (s', o)) :
    ∃ q, Good (s'.woken o) q := by
  induction fuel generalizing s l with
  | zero => cases hp
  | succ fuel ih =>
    obtain ⟨-, hr⟩ | ⟨x, q, -, ⟨r, hr, hg⟩ | ⟨r, hr, hg⟩⟩ := h.popRound
    · simp only [State.popFromHead, hr] at hp
      cases hp
      exact ⟨l, h⟩
    · simp only [State.popFromHead, hr] at hp
      exact ih hg hp
    · simp only [State.popFromHead, hr] at hp
      cases hp
      exact ⟨q, hg⟩

theorem Good.finite (h : Good s l) : Finite s where
  list := ⟨l, h.path, h.nodup, fun t ht => ⟨List.count_eq_one_of_mem h.nodup (h.waiting t ht).1, (h.waiting t ht).2⟩⟩
  pops := h.pops

/-- **What one step preserves.** -/
theorem good_step {a : Label T} (h : ∃ l, Good s l) (hok : ¬Relinked s a) (hst : step s a = some s') :
    ∃ l, Good s' l := by
  obtain ⟨l, h⟩ := h
  cases a with
  | wait t prepend =>
    cases hst
    unfold State.wait
    split_ifs with hw hp
    · exact ⟨l, h⟩
    all_goals
      have ht : t ∉ l := fun hm => hok ⟨by simpa using hw, h.path.reaches_iff.mpr hm⟩
    · exact ⟨t :: l, h.head_add ht⟩
    · exact ⟨l ++ [t], h.tail_add ht⟩
  | abandon t =>
    obtain ⟨-, hst⟩ := Option.ite_none_right_eq_some.mp hst
    cases hst
    exact ⟨l, h.abandon⟩
  | wake fuel =>
    obtain ⟨⟨r, o⟩, hp, rfl⟩ := Option.map_eq_some_iff.mp hst
    exact h.wake hp

/-- **The wait list stays a finite list** in a run in which tasks wait again only with a node that is not linked. -/
theorem list_stays_finite (hs : Reach (system T) (fun s a => ¬Relinked s a) s) : Finite s := by
  obtain ⟨l, h⟩ : ∃ l, Good s l := by
    refine hs.invariant (I := fun s => ∃ l, Good s l) ?_ fun s t a h hok hst => good_step h hok hst
    rintro s rfl
    exact ⟨[], rfl, List.nodup_nil, rfl, fun t ht => by cases ht⟩
  exact h.finite

end Steps

/-- Nothing points to the node of a task that waits. -/
def Apart (s : State T) : Label T → Prop
  | .wait t _ => s.head ≠ some t ∧ ∀ x, s.next x ≠ some t
  | _ => True

instance [DecidableEq T] [Fintype T] (s : State T) : ∀ a, Decidable (Apart s a)
  | .wait t _ => inferInstanceAs (Decidable (s.head ≠ some t ∧ ∀ x, s.next x ≠ some t))
  | .abandon _ => .isTrue trivial
  | .wake _ => .isTrue trivial

theorem Apart.not_relinked {s : State T} {a : Label T} (h : Apart s a) : ¬Relinked s a := by
  cases a with
  | wait t prepend => exact fun hr => not_reaches h.1 h.2 hr.2
  | _ => exact not_false

/-- One of two waiters abandons its wait; the other one is popped, and the first waits again. -/
theorem list_stays_finite_again : ∃ s : State Bool, s.isWaiting false = true ∧ s.head = some false ∧ Finite s :=
  ⟨_, rfl, rfl, list_stays_finite (reach_exec (fun _ _ => Apart.not_relinked) (.init rfl) (show exec _ _
    [.wait false false, .wait true false, .abandon false, .wake 2, .wait false false] = some _ from rfl) (by decide))⟩

/-- **Broken lists**: the node of an abandoned wait is added again while it is linked. At the head it becomes its own
successor; from the middle to the tail it cuts off the waiters behind it. -/
theorem broken_list :
    (∃ s : State Unit, Reachable (system Unit) s ∧ s.head = some () ∧ s.next () = some () ∧ ¬Finite s) ∧
    ∃ s : State (Fin 3), Reachable (system (Fin 3)) s ∧ s.isWaiting 2 = true ∧ ¬Reaches s.next s.head 2 ∧
      ¬Finite s := by
  constructor
  · refine ⟨_, reachable_exec (.init rfl) (show exec _ _ [.wait () true, .abandon (), .wait () true] = some _ from rfl),
      rfl, rfl, ?_⟩
    rintro ⟨⟨l, hpath, hnd, -⟩, -⟩
    match l, hpath, hnd with
    | [_], hpath, _ => cases hpath.2
    | () :: () :: _, _, hnd => exact (List.nodup_cons.mp hnd).1 List.mem_cons_self
  · -- the second node becomes the successor of the third, and nothing leads to the third
    refine ⟨_, reachable_exec (.init rfl) (show exec _ _ [.wait 0 false, .wait 1 false, .wait 2 false, .abandon 1,
      .wait 1 false] = some _ from rfl), rfl, not_reaches (by decide) (by decide), ?_⟩
    rintro ⟨⟨l, hpath, -, hwait⟩, -⟩
    have hm : (2 : Fin 3) ∈ l := List.count_pos_iff.mp (by rw [(hwait 2 rfl).1]; exact Nat.one_pos)
    exact not_reaches (by decide) (by decide) (hpath.reaches_iff.mpr hm)

end Cothread.WaitList
