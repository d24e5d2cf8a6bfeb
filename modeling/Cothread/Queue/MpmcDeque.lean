import Cothread.Lib.Object
import Cothread.Lib.Chain
import Cothread.Queue.Mpmc
import Mathlib.Data.List.TakeWhile

/-!
# `MpmcQueue` with lazy removal is a deque with tombstones

What `AddToTail`, `AddToHead` and `PopFromHead` come to when nothing falls between their accesses (`addToTail_ends`,
`addToHead_ends`, `popLoop_ends`). A queue whose links lead from `head_` through a list, with `tail_` at its last item
(`Holds`), is changed by each of them as a list would be: a claimed first item is dropped, and an item that is the last
one leaves two nulls behind, whichever branch of `PopFromHead` meets it (`Holds.popTurn_nil`, `Holds.popTurn_claimed`,
`Holds.popTurn_free`). `PopMultipleFromHead` takes the first items that nobody had claimed (`Holds.popUpTo`).

`Deque` says what the queue is for: a list of items some of which have been removed. A `PopFromHead` leaves the items
behind the first one that has not been removed. Every sequence of calls answers as the deque does (`refines`).
-/

namespace Cothread.Mpmc

open Object Chain

variable {X : Type*} [DecidableEq X]

/-! ## The operations -/

/-- `AddToTail(item)`, with `is_waiting` null or true. -/
def Mem.addToTail (m : Mem X) (item : X) : Mem X :=
  match m.tail with
  | some prev =>
    { m with
      tail := some item
      next := Function.update (Function.update m.next item none) prev (some item)
      claimed := Function.update m.claimed item false }
  | none =>
    { head := if m.head = none then some item else m.head
      tail := some item
      next := Function.update m.next item none
      claimed := Function.update m.claimed item false }

/-- `AddToHead(item)`, with `is_waiting` null or true. -/
def Mem.addToHead (m : Mem X) (item : X) : Mem X :=
  { m with
    head := some item
    tail := if m.head = none ∧ m.tail = none then some item else m.tail
    next := Function.update m.next item m.head }

/-- One turn of the loop of `PopFromHead`: the loop goes on, or the call returns. The list tells which of the
`compare_exchange_weak` to come fail spuriously; none does behind its end. -/
def popTurn (m : Mem X) (spurious : List Bool) : (Mem X × List Bool) × Option (Option X) :=
  match m.head with
  | none => ((m, spurious), if m.tail = none then some none else none)
  | some head =>
    let m' := { m with claimed := Function.update m.claimed head true }
    let tail := if m.tail = some head then none else m.tail
    match m.claimed head, m.next head with
    | true, some next =>
      (if spurious.headD false then (m', spurious.tail) else ({ m' with head := some next }, spurious.tail), none)
    | true, none => ((if m.tail = some head then { m' with head := none, tail := tail } else m', spurious), none)
    | false, none => (({ m' with head := none, tail := tail }, spurious), some (some head))
    | false, some next => (({ m' with head := some next }, spurious), some (some head))

/-- `PopFromHead()`, when its loop takes at most `fuel` turns. -/
def popLoop : ℕ → Mem X → List Bool → Option ((Mem X × List Bool) × Option X)
  | 0, _, _ => none
  | fuel + 1, m, spurious => match popTurn m spurious with
    | (s', some item) => some (s', item)
    | (s', none) => popLoop fuel s'.1 s'.2

/-- The loop of `PopMultipleFromHead` with `n` turns left to `max_count`. -/
def popUpTo (fuel : ℕ) : ℕ → Mem X → List Bool → Option ((Mem X × List Bool) × List X)
  | 0, m, spurious => some ((m, spurious), [])
  | n + 1, m, spurious => (popLoop fuel m spurious).bind fun p => match p.2 with
    | none => some (p.1, [])
    | some item => (popUpTo fuel n p.1.1 p.1.2).map fun r => (r.1, item :: r.2)

/-- `PopMultipleFromHead(buffer, max_count)`, and what it has written to the buffer. -/
def popMultipleFromHead (fuel : ℕ) (m : Mem X) (spurious : List Bool) (maxCount : Int) :
    Option ((Mem X × List Bool) × List X) :=
  popUpTo fuel maxCount.toNat m spurious

/-! ## The accesses -/

/-- An access of `AddToTail` or `AddToHead`. -/
def addAccess (item : X) (m : Mem X) (pc : AddPc X) : Mem X × (AddPc X ⊕ Unit) :=
  ((addStep m item pc).1, match (addStep m item pc).2 with
    | .done => .inr ()
    | pc' => .inl pc')

/-- An access of `PopFromHead`; a `compare_exchange_weak` uses up one of the outcomes. -/
def popAccess (s : Mem X × List Bool) (pc : PopPc X) : (Mem X × List Bool) × (PopPc X ⊕ Option X) :=
  (((popStep s.1 (s.2.headD false) pc).1, match pc with
    | .helpCas _ _ => s.2.tail
    | _ => s.2),
   match (popStep s.1 (s.2.headD false) pc).2 with
    | .running pc' => .inl pc'
    | .returned item => .inr item)

theorem addToTail_ends (m : Mem X) (item : X) :
    Ends (addAccess item) m (.inl .clearNext) (m.addToTail item) () := by
  refine .next rfl (.next rfl ?_)
  unfold Mem.addToTail
  cases htail : m.tail with
  | some prev =>
    refine .next (by simp only [addAccess, addStep, htail]; rfl) ?_
    exact .last rfl
  | none =>
    refine .next (by simp only [addAccess, addStep, htail]; rfl) ?_
    by_cases hhead : m.head = none
    · exact .last (by simp only [addAccess, addStep, hhead, if_true])
    · exact .last (by simp only [addAccess, addStep, if_neg hhead])

theorem addToHead_ends (m : Mem X) (item : X) :
    Ends (addAccess item) m (.inl .loadHead) (m.addToHead item) () := by
  refine .next rfl (.next rfl ?_)
  unfold Mem.addToHead
  by_cases hhead : m.head = none
  · refine .next (by simp only [addAccess, addStep, hhead, if_true]; rfl) ?_
    by_cases htail : m.tail = none
    · exact .last (by simp only [addAccess, addStep, htail, hhead, and_self, if_true])
    · exact .last (by simp only [addAccess, addStep, htail, hhead, and_false, if_false])
  · exact .last (by simp only [addAccess, addStep, hhead, false_and, if_true, if_false])

/-- The accesses of one turn. -/
theorem popTurn_ends {m : Mem X} {spurious : List Bool} {s' : Mem X × List Bool} {item : Option X}
    (h : Ends popAccess (popTurn m spurious).1
      (match (popTurn m spurious).2 with
        | some r => .inr r
        | none => .inl .loadHead) s' item) :
    Ends popAccess (m, spurious) (.inl .loadHead) s' item := by
  unfold popTurn at h
  cases hhead : m.head with
  | none =>
    refine .next (by simp only [popAccess, popStep, hhead]; rfl) ?_
    refine .next (by simp only [popAccess, popStep]; rfl) ?_
    simp only [hhead] at h
    by_cases htail : m.tail = none
    · simpa only [htail, if_true] using h
    · simpa only [htail, if_false] using h
  | some head =>
    refine .next (by simp only [popAccess, popStep, hhead]; rfl) ?_
    refine .next (by simp only [popAccess, popStep]; rfl) ?_
    simp only [hhead] at h
    cases hclaimed : m.claimed head with
    | true =>
      simp only [hclaimed] at h
      cases hnext : m.next head with
      | some next =>
        simp only [hnext] at h
        refine .next (by simp only [popAccess, popStep, if_true, hnext]; rfl) ?_
        refine .next (by simp only [popAccess, popStep]; rfl) ?_
        cases hspurious : spurious.headD false with
        | true => simpa only [hspurious, hhead, if_true, Bool.true_eq_false, and_false, if_false] using h
        | false => simpa only [hspurious, hhead, and_self, if_true, Bool.false_eq_true, if_false] using h
      | none =>
        simp only [hnext] at h
        refine .next (by simp only [popAccess, popStep, if_true, hnext]; rfl) ?_
        by_cases htail : m.tail = some head
        · refine .next (by simp only [popAccess, popStep, if_pos htail]; rfl) ?_
          refine .next (by simp only [popAccess, popStep, hhead, if_true]; rfl) ?_
          refine .next (by simp only [popAccess, popStep, if_pos htail]; rfl) ?_
          simpa only [if_pos htail] using h
        · refine .next (by simp only [popAccess, popStep, if_neg htail]; rfl) ?_
          simpa only [if_neg htail, hhead] using h
    | false =>
      simp only [hclaimed] at h
      cases hnext : m.next head with
      | some next =>
        simp only [hnext] at h
        refine .next (by simp only [popAccess, popStep, Bool.false_eq_true, if_false, hnext]; rfl) ?_
        refine .next (by simp only [popAccess, popStep, hhead, if_true]; rfl) ?_
        exact h
      | none =>
        simp only [hnext] at h
        refine .next (by simp only [popAccess, popStep, Bool.false_eq_true, if_false, hnext]; rfl) ?_
        refine .next (by simp only [popAccess, popStep, hhead, if_true]; rfl) ?_
        refine .next (by simp only [popAccess, popStep]; rfl) ?_
        by_cases htail : m.tail = some head
        · simpa only [if_pos htail] using h
        · simpa only [if_neg htail, hhead] using h

/-- The accesses of all turns. -/
theorem popLoop_ends {fuel : ℕ} {m : Mem X} {spurious : List Bool} {s' : Mem X × List Bool} {item : Option X}
    (h : popLoop fuel m spurious = some (s', item)) : Ends popAccess (m, spurious) (.inl .loadHead) s' item := by
  induction fuel generalizing m spurious with
  | zero => cases h
  | succ fuel ih =>
    apply popTurn_ends
    unfold popLoop at h
    split at h
    · rename_i s₁ item₁ hturn
      cases h
      rw [hturn]
      exact .answer
    · rename_i s₁ hturn
      rw [hturn]
      exact ih h

/-! ## The list -/

/-- The links lead from `head_` through the items of the list, and `tail_` is the last one. -/
structure Holds (m : Mem X) (items : List X) : Prop where
  path : Path m.next m.head items
  tail : m.tail = items.getLast?
  nodup : items.Nodup

variable {m m' : Mem X} {x y : X} {items : List X} {spurious : List Bool}

omit [DecidableEq X] in
theorem holds_empty : Holds (.empty : Mem X) [] := ⟨rfl, rfl, List.nodup_nil⟩

omit [DecidableEq X] in
/-- `head_` and `tail_` are null together. -/
theorem Holds.head_none (h : Holds m items) (htail : m.tail = none) : items = [] :=
  List.getLast?_eq_none_iff.mp (h.tail ▸ htail)

theorem addToTail_claimed (m : Mem X) (x : X) :
    (m.addToTail x).claimed = Function.update m.claimed x false := by
  unfold Mem.addToTail
  cases m.tail with
  | some prev => rfl
  | none => rfl

/-- **`AddToTail`** adds at the end. -/
theorem Holds.addToTail (h : Holds m items) (hx : x ∉ items) : Holds (m.addToTail x) (items ++ [x]) := by
  have hnodup : (items ++ [x]).Nodup := by
    rw [List.nodup_append_comm]
    exact List.nodup_cons.mpr ⟨hx, h.nodup⟩
  cases htail : m.tail with
  | some prev =>
    have hlast : items.getLast? = some prev := h.tail ▸ htail
    have hne : x ≠ prev := fun he => hx (he ▸ List.mem_of_getLast? hlast)
    rw [Mem.addToTail, htail]
    refine ⟨?_, List.getLast?_concat.symm, hnodup⟩
    refine Path.snoc (Function.update_self ..) ?_ h.nodup (fun y hy hyp => ?_) hlast h.path
    · rw [Function.update_of_ne hne, Function.update_self]
    · have hyx : y ≠ x := fun he => hx (he ▸ hy)
      rw [Function.update_of_ne hyp, Function.update_of_ne hyx]
  | none =>
    have hnil : items = [] := h.head_none htail
    subst hnil
    have hhead : m.head = none := h.path
    rw [Mem.addToTail, htail]
    refine ⟨⟨if_pos hhead, Function.update_self ..⟩, rfl, hnodup⟩

/-- **`AddToHead`** adds at the front. -/
theorem Holds.addToHead (h : Holds m items) (hx : x ∉ items) : Holds (m.addToHead x) (x :: items) := by
  refine ⟨h.path.push hx, ?_, List.nodup_cons.mpr ⟨hx, h.nodup⟩⟩
  · show (if m.head = none ∧ m.tail = none then some x else m.tail) = (x :: items).getLast?
    rw [h.path.head, h.tail]
    cases items with
    | nil => rfl
    | cons z items => rw [if_neg (fun hnone => nomatch hnone.1), List.getLast?_cons_cons]

/-- An empty queue: two nulls. -/
theorem Holds.popTurn_nil (h : Holds m []) : popTurn m spurious = ((m, spurious), some none) := by
  have hhead : m.head = none := h.path
  have htail : m.tail = none := h.tail
  rw [popTurn, hhead]
  simp only [htail, if_true]

/-- Without its first item, the queue holds the others; nothing is left of the last one. -/
theorem Holds.tail_cons (h : Holds m (x :: items)) (claimed : X → Bool) :
    Holds { m with
      head := m.next x
      tail := if m.next x = none ∧ m.tail = some x then none else m.tail
      claimed := claimed } items := by
  obtain ⟨hx, hnodup⟩ := List.nodup_cons.mp h.nodup
  refine ⟨h.path.2, ?_, hnodup⟩
  show (if m.next x = none ∧ m.tail = some x then none else m.tail) = items.getLast?
  rw [h.path.2.head, h.tail]
  cases items with
  | nil => exact if_pos ⟨rfl, rfl⟩
  | cons z items => rw [if_neg (fun hnone => nomatch hnone.1), List.getLast?_cons_cons]

/-- **A first item that nobody has claimed** is returned. -/
theorem Holds.popTurn_free (h : Holds m (x :: items)) (hx : m.claimed x = false) (spurious : List Bool) :
    ∃ m', popTurn m spurious = ((m', spurious), some (some x)) ∧ Holds m' items ∧
      m'.claimed = Function.update m.claimed x true := by
  have hhead : m.head = some x := h.path.1
  refine ⟨_, ?_, h.tail_cons (Function.update m.claimed x true), rfl⟩
  rw [popTurn, hhead]
  cases hnext : m.next x with
  | some next =>
    simp only [hx, hnext, reduceCtorEq, false_and, if_false]
  | none => simp only [hx, hnext, true_and]

/-- **A first item that has been claimed** is dropped, when the `compare_exchange_weak` does what it should. -/
theorem Holds.popTurn_claimed (h : Holds m (x :: items)) (hx : m.claimed x = true) (spurious : List Bool) :
    ∃ m' spurious', popTurn m spurious = ((m', spurious'), none) ∧ m'.claimed = m.claimed ∧
      (Holds m' items ∧ spurious'.length ≤ spurious.length ∨
        Holds m' (x :: items) ∧ spurious'.length < spurious.length) := by
  have hhead : m.head = some x := h.path.1
  have hclaimed : Function.update m.claimed x true = m.claimed := by
    rw [← hx]
    exact Function.update_eq_self x m.claimed
  have hdrop := h.tail_cons m.claimed
  have hkeep : Holds { m with head := some x } (x :: items) := by
    rw [← hhead]
    exact h
  rw [popTurn, hhead]
  cases hnext : m.next x with
  | some next =>
    simp only [hx, hnext, hclaimed]
    simp only [hnext, reduceCtorEq, false_and, if_false] at hdrop
    cases spurious with
    | nil => exact ⟨_, _, rfl, rfl, Or.inl ⟨hdrop, Nat.le_refl _⟩⟩
    | cons failed spurious =>
      cases failed with
      | true => exact ⟨_, _, rfl, rfl, Or.inr ⟨hkeep, Nat.lt_succ_self _⟩⟩
      | false => exact ⟨_, _, rfl, rfl, Or.inl ⟨hdrop, Nat.le_succ _⟩⟩
  | none =>
    have hnil : items = [] := by
      have hpath := h.path.2
      rw [hnext] at hpath
      exact List.head?_eq_none_iff.mp hpath.head.symm
    subst hnil
    have htail : m.tail = some x := h.tail
    simp only [hx, hnext, hclaimed, htail, if_true]
    simp only [hnext, htail, and_self, if_true] at hdrop
    exact ⟨_, _, rfl, rfl, Or.inl ⟨hdrop, Nat.le_refl _⟩⟩

/-- **`PopFromHead`** leaves the items behind the first one that nobody had claimed, and claims that one. -/
theorem Holds.popLoop (h : Holds m items) (spurious : List Bool) :
    ∃ m' spurious', Returns (fun fuel => Mpmc.popLoop fuel m spurious)
        ((m', spurious'), (items.dropWhile m.claimed).head?) ∧
      Holds m' (items.dropWhile m.claimed).tail ∧
      ∀ y, m'.claimed y = (m.claimed y || (items.dropWhile m.claimed).head? == some y) := by
  -- A turn drops an item or uses up a spurious failure.
  induction hn : items.length + spurious.length using Nat.strong_induction_on generalizing m items spurious with
  | _ n ih =>
  cases items with
  | nil =>
    refine ⟨m, spurious, .last fun fuel => ?_, h, fun y => ?_⟩
    · rw [Mpmc.popLoop, h.popTurn_nil]
      rfl
    · exact (Bool.or_false _).symm
  | cons x items =>
    cases hx : m.claimed x with
    | false =>
      obtain ⟨m', hturn, hholds, hclaimed⟩ := h.popTurn_free hx spurious
      rw [List.dropWhile_cons_of_neg (by rw [hx]; exact Bool.false_ne_true)]
      refine ⟨m', spurious, .last fun fuel => ?_, hholds, fun y => ?_⟩
      · rw [Mpmc.popLoop, hturn]
        rfl
      · rw [hclaimed, Function.update_apply, List.head?_cons]
        by_cases hy : y = x
        · simp [hy]
        · simp [hy, Ne.symm hy]
    | true =>
      obtain ⟨m₁, spurious₁, hturn, hclaimed, hcase⟩ := h.popTurn_claimed hx spurious
      have hrest : ∃ items₁, Holds m₁ items₁ ∧ items₁.length + spurious₁.length < n ∧
          items₁.dropWhile m.claimed = (x :: items).dropWhile m.claimed := by
        rw [List.length_cons] at hn
        obtain ⟨hholds, hle⟩ | ⟨hholds, hlt⟩ := hcase
        · exact ⟨items, hholds, by omega, (List.dropWhile_cons_of_pos hx).symm⟩
        · exact ⟨x :: items, hholds, by rw [List.length_cons]; omega, rfl⟩
      obtain ⟨items₁, hholds, hlt, hdrop⟩ := hrest
      obtain ⟨m', spurious', hreturns, hleft, hmarks⟩ := ih _ hlt hholds spurious₁ rfl
      rw [hclaimed, hdrop] at hreturns hleft hmarks
      refine ⟨m', spurious', hreturns.turn fun fuel => ?_, hleft, hmarks⟩
      rw [Mpmc.popLoop, hturn]

/-- The items that nobody has claimed. -/
def Mem.live (m : Mem X) (items : List X) : List X := items.filter (!m.claimed ·)

omit [DecidableEq X] in
/-- The items that nobody has claimed are the first one of them and those behind it. -/
theorem live_eq (m : Mem X) (items : List X) :
    m.live items = (items.dropWhile m.claimed).head?.toList ++ m.live (items.dropWhile m.claimed).tail := by
  induction items with
  | nil => rfl
  | cons x items ih =>
    unfold Mem.live at ih ⊢
    cases hx : m.claimed x with
    | true =>
      rw [List.dropWhile_cons_of_pos hx, List.filter_cons_of_neg (by rw [hx]; exact Bool.false_ne_true)]
      exact ih
    | false =>
      rw [List.dropWhile_cons_of_neg (by rw [hx]; exact Bool.false_ne_true), List.filter_cons_of_pos (by rw [hx]; rfl)]
      rfl

/-- **`PopMultipleFromHead`** takes the first `n` items that nobody had claimed, or all of them, and leaves the other
ones in their order. -/
theorem Holds.popUpTo (h : Holds m items) (spurious : List Bool) (n : ℕ) :
    ∃ m' spurious' left, Returns (fun fuel => Mpmc.popUpTo fuel n m spurious)
        ((m', spurious'), (m.live items).take n) ∧
      Holds m' left ∧ left <:+ items ∧ m'.live left = (m.live items).drop n ∧
      ∀ y, y ∉ (m.live items).take n → m'.claimed y = m.claimed y := by
  induction n generalizing m items spurious with
  | zero => exact ⟨m, spurious, items, .pure _, h, List.suffix_rfl, rfl, fun y _ => rfl⟩
  | succ n ih =>
    obtain ⟨m₁, spurious₁, hpop, hholds, hclaimed⟩ := h.popLoop spurious
    have hsuffix : (items.dropWhile m.claimed).tail <:+ items :=
      (List.tail_suffix _).trans (List.dropWhile_suffix _)
    have hnodup := h.nodup.sublist (List.dropWhile_suffix m.claimed).sublist
    rw [live_eq m items]
    cases hcons : items.dropWhile m.claimed with
    | nil =>
      rw [hcons] at hpop hholds hclaimed hsuffix
      refine ⟨m₁, spurious₁, [], hpop.bind (.pure _), hholds, hsuffix, rfl, fun y _ => ?_⟩
      rw [hclaimed]
      exact Bool.or_false _
    | cons x rest =>
      rw [hcons] at hpop hholds hclaimed hsuffix hnodup
      obtain ⟨hx, -⟩ := List.nodup_cons.mp hnodup
      have hlive : m₁.live rest = m.live rest := by
        apply List.filter_congr
        intro y hy
        have hyx : x ≠ y := fun he => hx (he ▸ hy)
        rw [hclaimed, List.head?_cons]
        simp [hyx]
      obtain ⟨m', spurious', left, hreturns, hholds', hleft, hlive', hclaimed'⟩ := ih hholds spurious₁
      rw [List.tail_cons, hlive] at hreturns hlive' hclaimed'
      refine ⟨m', spurious', left, hpop.bind hreturns.map, hholds', hleft.trans hsuffix, hlive', fun y hy => ?_⟩
      obtain ⟨hyx, hy⟩ := not_or.mp (List.mem_cons.not.mp hy)
      rw [hclaimed' y hy, hclaimed, List.head?_cons]
      simp [Ne.symm hyx]

/-! ## The calls -/

/-- A queue, and the flag `is_waiting` of every item. -/
structure WaitQueue (X : Type*) where
  mem : Mem X
  isWaiting : X → Bool

/-- A new queue. The items may have been in others before. -/
def WaitQueue.new {X : Type*} (next : X → Option X) (claimed isWaiting : X → Bool) : WaitQueue X :=
  ⟨⟨none, none, next, claimed⟩, isWaiting⟩

/-- A call, or what the owner of an item does to it before and after. -/
inductive Op (X : Type*)
  | addToTail (x : X)
  | addToHead (x : X)
  | remove (x : X)
  | popFromHead (spurious : List Bool)
  | setWaiting (x : X) (isWaiting : Bool)  -- `is_waiting` is stored
  | clearNode (x : X)  -- `next` and `claimed` are cleared
  deriving DecidableEq

/-- The answer to a call. -/
inductive Answer (X : Type*)
  | done
  | item (item : Option X)
  deriving DecidableEq

/-- `Remove(item, is_waiting)`. -/
def WaitQueue.remove (q : WaitQueue X) (x : X) : WaitQueue X :=
  if q.isWaiting x then
    ⟨{ q.mem with claimed := Function.update q.mem.claimed x true }, Function.update q.isWaiting x false⟩
  else q

/-- A call with the flag of the item. `fuel` bounds the loop of `PopFromHead`. -/
def WaitQueue.call (fuel : ℕ) (q : WaitQueue X) : Op X → Option (WaitQueue X × Answer X)
  | .addToTail x => some (if q.isWaiting x then { q with mem := q.mem.addToTail x } else q, .done)
  | .addToHead x => some (if q.isWaiting x then { q with mem := q.mem.addToHead x } else q, .done)
  | .remove x => some (q.remove x, .done)
  | .popFromHead spurious => (popLoop fuel q.mem spurious).map fun p => ({ q with mem := p.1.1 }, .item p.2)
  | .setWaiting x isWaiting => some ({ q with isWaiting := Function.update q.isWaiting x isWaiting }, .done)
  | .clearNode x =>
    some ({ q with mem := { q.mem with
      next := Function.update q.mem.next x none
      claimed := Function.update q.mem.claimed x false } }, .done)

/-- What the queue is for: items in order, some of which have been removed. -/
structure Deque (X : Type*) where
  items : List X  -- the removed ones included
  removed : X → Bool  -- since it was added
  waiting : X → Bool
  clear : X → Bool  -- cleared, and neither added nor removed since

/-- No items. -/
def Deque.new {X : Type*} (claimed isWaiting : X → Bool) : Deque X := ⟨[], fun _ => false, isWaiting, (!claimed ·)⟩

/-- A call of the deque. An item is added only while it is not in the list, waiting and clear. -/
def Deque.call (d : Deque X) : Op X → Option (Deque X × Answer X)
  | .addToTail x =>
    if d.waiting x ∧ d.clear x ∧ x ∉ d.items then
      some ({ d with
        items := d.items ++ [x]
        removed := Function.update d.removed x false
        clear := Function.update d.clear x false }, .done)
    else none
  | .addToHead x =>
    if d.waiting x ∧ d.clear x ∧ x ∉ d.items then
      some ({ d with
        items := x :: d.items
        removed := Function.update d.removed x false
        clear := Function.update d.clear x false }, .done)
    else none
  | .remove x =>
    some (if d.waiting x then
      { d with
        removed := Function.update d.removed x true
        waiting := Function.update d.waiting x false
        clear := Function.update d.clear x false } else d, .done)
  | .popFromHead _ =>
    some ({ d with items := (d.items.dropWhile d.removed).tail }, .item (d.items.find? (!d.removed ·)))
  | .setWaiting x isWaiting => some ({ d with waiting := Function.update d.waiting x isWaiting }, .done)
  | .clearNode x => if x ∈ d.items then none else some ({ d with clear := Function.update d.clear x true }, .done)

/-! ## The refinement -/

/-- The links lead through the items, of which the removed ones are claimed; the others are claimed until they are
cleared. -/
structure Reads (q : WaitQueue X) (d : Deque X) : Prop where
  holds : Holds q.mem d.items
  waiting : q.isWaiting = d.waiting
  linked : ∀ x ∈ d.items, q.mem.claimed x = d.removed x ∧ d.clear x = false
  unlinked : ∀ x, x ∉ d.items → q.mem.claimed x = !d.clear x

variable {q : WaitQueue X} {d : Deque X}

omit [DecidableEq X] in
theorem reads_new (next : X → Option X) (claimed isWaiting : X → Bool) :
    Reads (.new next claimed isWaiting) (.new claimed isWaiting) := by
  refine ⟨⟨rfl, rfl, List.nodup_nil⟩, rfl, fun _ hx => absurd hx List.not_mem_nil, fun x _ => ?_⟩
  exact (Bool.not_not _).symm

omit [DecidableEq X] in
theorem dropWhile_congr {p p' : X → Bool} (h : ∀ x ∈ items, p x = p' x) : items.dropWhile p = items.dropWhile p' := by
  induction items with
  | nil => rfl
  | cons x items ih =>
    rw [List.dropWhile_cons, List.dropWhile_cons, h x List.mem_cons_self,
      ih fun y hy => h y (List.mem_cons_of_mem x hy)]

omit [DecidableEq X] in
/-- In a list, what is not removed is behind the removed items at its front. -/
theorem mem_dropWhile {p : X → Bool} (hx : x ∈ items) (hp : p x = false) : x ∈ items.dropWhile p := by
  rw [← List.takeWhile_append_dropWhile (p := p) (l := items)] at hx
  obtain hx | hx := List.mem_append.mp hx
  · rw [List.mem_takeWhile_imp hx] at hp
    cases hp
  · exact hx

/-- An item is added at one end. -/
theorem Reads.add (h : Reads q d) {m : Mem X} {items : List X} (hholds : Holds m items)
    (hmem : ∀ y, y ∈ items ↔ y = x ∨ y ∈ d.items) (hself : m.claimed x = false)
    (hother : ∀ y, y ≠ x → m.claimed y = q.mem.claimed y) :
    Reads { q with mem := m } { d with
      items := items
      removed := Function.update d.removed x false
      clear := Function.update d.clear x false } := by
  refine ⟨hholds, h.waiting, fun y hy => ?_, fun y hy => ?_⟩
  · by_cases hyx : y = x
    · subst hyx
      simp only [Function.update_self, hself, and_self]
    · obtain ⟨hclaimed, hclear⟩ := h.linked y (((hmem y).mp hy).resolve_left hyx)
      simp only [Function.update_of_ne hyx]
      exact ⟨(hother y hyx).trans hclaimed, hclear⟩
  · have hyx : y ≠ x := fun he => hy ((hmem y).mpr (Or.inl he))
    simp only [Function.update_of_ne hyx]
    exact (hother y hyx).trans (h.unlinked y fun hm => hy ((hmem y).mpr (Or.inr hm)))

/-- **`Remove`** marks an item whose flag is still set. -/
theorem Reads.remove (h : Reads q d) (hx : d.waiting x = true) :
    Reads (q.remove x) { d with
      removed := Function.update d.removed x true
      waiting := Function.update d.waiting x false
      clear := Function.update d.clear x false } := by
  rw [WaitQueue.remove, h.waiting, if_pos hx]
  refine ⟨⟨h.holds.path, h.holds.tail, h.holds.nodup⟩, rfl, fun y hy => ?_, fun y hy => ?_⟩
  · obtain ⟨hclaimed, hclear⟩ := h.linked y hy
    by_cases hyx : y = x
    · subst hyx
      simp only [Function.update_self, and_self]
    · simp only [Function.update_of_ne hyx]
      exact ⟨hclaimed, hclear⟩
  · by_cases hyx : y = x
    · subst hyx
      simp only [Function.update_self, Bool.not_false]
    · simp only [Function.update_of_ne hyx]
      exact h.unlinked y hy

/-- **`PopFromHead`** returns the first item that has not been removed, and leaves those behind it. -/
theorem Reads.popFromHead (h : Reads q d) (spurious : List Bool) :
    ∃ q', Returns (fun fuel => q.call fuel (.popFromHead spurious)) (q', .item (d.items.find? (!d.removed ·))) ∧
      Reads q' { d with items := (d.items.dropWhile d.removed).tail } := by
  obtain ⟨m', spurious', hreturns, hholds, hclaimed⟩ := h.holds.popLoop spurious
  have hmarks : d.items.dropWhile q.mem.claimed = d.items.dropWhile d.removed :=
    dropWhile_congr fun x hx => (h.linked x hx).1
  have hfind : d.items.find? (!d.removed ·) = (d.items.dropWhile d.removed).head? := by
    rw [List.find?_eq_head?_dropWhile_not]
    simp only [Bool.not_not]
  rw [hmarks] at hreturns hholds hclaimed
  rw [hfind]
  have hsub : ∀ y ∈ d.items.dropWhile d.removed, y ∈ d.items := fun y hy => (List.dropWhile_suffix _).subset hy
  have hnodup := h.holds.nodup.sublist (List.dropWhile_suffix d.removed).sublist
  refine ⟨{ q with mem := m' }, hreturns.map, hholds, h.waiting, fun y hy => ?_, fun y hy => ?_⟩
  · obtain ⟨hmark, hclear⟩ := h.linked y (hsub y (List.mem_of_mem_tail hy))
    refine ⟨?_, hclear⟩
    show m'.claimed y = d.removed y
    rw [hclaimed, hmark]
    cases hleft : d.items.dropWhile d.removed with
    | nil => exact Bool.or_false _
    | cons x left =>
      rw [hleft] at hy hnodup
      have hyx : y ≠ x := fun he => (List.nodup_cons.mp hnodup).1 (he ▸ hy)
      simp [hyx.symm]
  · show m'.claimed y = !d.clear y
    rw [hclaimed]
    by_cases hlinked : y ∈ d.items
    · obtain ⟨hmark, hclear⟩ := h.linked y hlinked
      rw [hmark, hclear]
      cases hremoved : d.removed y with
      | true => rfl
      | false =>
        have hleft := mem_dropWhile hlinked hremoved
        cases hcons : d.items.dropWhile d.removed with
        | nil => exact absurd (hcons ▸ hleft) List.not_mem_nil
        | cons x left =>
          rw [hcons] at hy hleft
          have hyx : y = x := (List.mem_cons.mp hleft).resolve_right hy
          simp [hyx]
    · rw [h.unlinked y hlinked]
      cases hcons : d.items.dropWhile d.removed with
      | nil => exact Bool.or_false _
      | cons x left =>
        have hx : x ∈ d.items := hsub x (hcons ▸ List.mem_cons_self)
        have hyx : x ≠ y := fun he => hlinked (he ▸ hx)
        simp [hyx]

/-- **One call**: the queue answers as the deque that it reads as. -/
theorem refines : RefinesInTime WaitQueue.call Deque.call (Reads (X := X)) := by
  intro q d o d' r h hspec
  cases o with
  | addToTail x =>
    obtain ⟨⟨hwaiting, hclear, hx⟩, hspec⟩ := Option.ite_none_right_eq_some.mp hspec
    cases hspec
    have hcall : q.isWaiting x = true := h.waiting ▸ hwaiting
    refine ⟨{ q with mem := q.mem.addToTail x }, ?_, ?_⟩
    · simp only [WaitQueue.call, hcall, if_true]
      exact .pure _
    · refine h.add (h.holds.addToTail hx) (fun y => ?_) ?_ fun y hyx => ?_
      · rw [List.mem_append, List.mem_singleton, or_comm]
      · rw [addToTail_claimed, Function.update_self]
      · rw [addToTail_claimed, Function.update_of_ne hyx]
  | addToHead x =>
    obtain ⟨⟨hwaiting, hclear, hx⟩, hspec⟩ := Option.ite_none_right_eq_some.mp hspec
    cases hspec
    have hcall : q.isWaiting x = true := h.waiting ▸ hwaiting
    refine ⟨{ q with mem := q.mem.addToHead x }, ?_, ?_⟩
    · simp only [WaitQueue.call, hcall, if_true]
      exact .pure _
    · refine h.add (h.holds.addToHead hx) (fun y => List.mem_cons) ?_ fun y _ => rfl
      -- Nobody clears `claimed` here: the item comes with a clear node.
      show q.mem.claimed x = false
      rw [h.unlinked x hx, hclear, Bool.not_true]
  | remove x =>
    cases hspec
    refine ⟨q.remove x, .pure _, ?_⟩
    cases hwaiting : d.waiting x with
    | true => exact h.remove hwaiting
    | false =>
      rw [WaitQueue.remove, h.waiting, hwaiting]
      exact h
  | popFromHead spurious =>
    cases hspec
    exact h.popFromHead spurious
  | setWaiting x isWaiting =>
    cases hspec
    refine ⟨_, .pure _, ⟨h.holds.path, h.holds.tail, h.holds.nodup⟩, ?_, h.linked, h.unlinked⟩
    exact congrArg (Function.update · x isWaiting) h.waiting
  | clearNode x =>
    obtain ⟨hx, hspec⟩ := Option.ite_none_left_eq_some.mp hspec
    cases hspec
    refine ⟨_, .pure _, ⟨?_, h.holds.tail, h.holds.nodup⟩, h.waiting, fun y hy => ?_, fun y hy => ?_⟩
    · exact h.holds.path.update_of_notMem hx
    · have hyx : y ≠ x := fun he => hx (he ▸ hy)
      simp only [Function.update_of_ne hyx]
      exact h.linked y hy
    · by_cases hyx : y = x
      · subst hyx
        simp only [Function.update_self, Bool.not_true]
      · simp only [Function.update_of_ne hyx]
        exact h.unlinked y hy

/-- **A deque with tombstones**: after any calls, each of which added an item only while it was waiting, clear and not
linked, the answers are those of the deque. A `Remove` of an item that is not waiting changes nothing. The next
`PopFromHead` returns the first item that has not been removed and leaves those behind it; when there is none, both
ends are null. -/
theorem lazy_deque_answers (next : X → Option X) {claimed isWaiting : X → Bool} {ops : List (Op X)} {d : Deque X}
    {rs : List (Answer X)} (hspec : run Deque.call (.new claimed isWaiting) ops = some (d, rs)) :
    ∃ q, Returns (fun fuel => run (WaitQueue.call fuel) (.new next claimed isWaiting) ops) (q, rs) ∧
      Path q.mem.next q.mem.head d.items ∧ q.isWaiting = d.waiting ∧
      (∀ x, d.waiting x = false → q.remove x = q) ∧
      ∀ spurious, ∃ q' item, Returns (fun fuel => q.call fuel (.popFromHead spurious)) (q', .item item) ∧
        item = d.items.find? (!d.removed ·) ∧
        Path q'.mem.next q'.mem.head (d.items.dropWhile d.removed).tail ∧
        (item = none ↔ ∀ x ∈ d.items, d.removed x = true) ∧
        (item = none → q'.mem.head = none ∧ q'.mem.tail = none) := by
  obtain ⟨q, hreturns, h⟩ := refines.run (reads_new next claimed isWaiting) hspec
  refine ⟨q, hreturns, h.holds.path, h.waiting, fun x hx => ?_, fun spurious => ?_⟩
  · have hflag : ¬q.isWaiting x = true := by rw [h.waiting, hx]; exact Bool.false_ne_true
    exact if_neg hflag
  · obtain ⟨q', hpop, h'⟩ := h.popFromHead spurious
    have hnone : d.items.find? (!d.removed ·) = none ↔ ∀ x ∈ d.items, d.removed x = true := by
      simp only [List.find?_eq_none, Bool.not_eq_true', Bool.not_eq_false]
    refine ⟨q', _, hpop, rfl, h'.holds.path, hnone, fun hitem => ?_⟩
    have hempty : d.items.dropWhile d.removed = [] := List.dropWhile_eq_nil_iff.mpr (hnone.mp hitem)
    have hholds : Holds q'.mem [] := by
      have hleft := h'.holds
      simp only [hempty, List.tail_nil] at hleft
      exact hleft
    exact ⟨hholds.path, hholds.tail⟩

theorem lazy_deque_answers_two : ∃ q,
    Returns (fun fuel => run (WaitQueue.call fuel) (.new (fun _ => none) (fun _ => true) fun _ => true)
      [.clearNode 1, .addToTail 1, .clearNode 2, .addToHead 2, .remove 2, .popFromHead [true], .popFromHead []])
      (q, [.done, .done, .done, .done, .done, .item (some 1), .item none]) ∧
    q.mem.head = none := by
  have hspec : ∃ d : Deque ℕ, run Deque.call (.new (fun _ => true) fun _ => true)
      [.clearNode 1, .addToTail 1, .clearNode 2, .addToHead 2, .remove 2, .popFromHead [true], .popFromHead []] =
      some (d, [.done, .done, .done, .done, .done, .item (some 1), .item none]) ∧ d.items = [] := ⟨_, rfl, rfl⟩
  obtain ⟨d, hspec, hitems⟩ := hspec
  obtain ⟨q, hreturns, hpath, -⟩ := lazy_deque_answers (fun _ => none) hspec
  rw [hitems] at hpath
  exact ⟨q, hreturns, hpath⟩

end Cothread.Mpmc
