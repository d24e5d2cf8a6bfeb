import Cothread.Queue.MpscInv

/-!
# `MpscQueue` and lost items

`Pop` empties the queue in two steps: the exchange of `head_` against null, then `tail_.store(nullptr)`. A `Push` that
finds `head_` null between the two stores its item to `tail_`, and the second step overwrites it: the item is behind
`head_` and no `Pop` finds it any more (`lost_item`). While no store of a producer to `tail_` falls between the two
steps, every queued item is on the chain from `tail_` whenever no call is in progress (`noItemLost_of_not_overwritten`),
and `Pop` alone returns the items of that chain in order (`pops_path`).
-/

namespace Cothread.Mpsc

open Run Chain

variable {P T : Type*} [DecidableEq P] [DecidableEq T]

/-- No `Push` and no `Pop` is in progress. -/
def Quiescent (s : State P T) : Prop := (∀ p, s.push p = none) ∧ s.pop = none

/-- The consumer alone, by finitely many calls of `Pop`, goes from `s` to a state in which it has returned `l`. -/
def PopsAlone (s : State P T) (l : List T) : Prop :=
  ∃ ls t, (∀ a ∈ ls, a = Label.pop ∨ a = Label.consumer) ∧ exec (system P T) s ls = some t ∧
    t.pop = none ∧ t.returned = s.returned ++ l

/-- **No item is lost**: with no call in progress, every item whose `Push` has completed and that no `Pop` has returned
is on the chain from `tail_` and is returned after finitely many calls of `Pop`, and `head_` is null exactly when
`tail_` is. -/
def NoItemLost (s : State P T) : Prop :=
  Quiescent s →
    (∀ x, s.place x = .queued → (∃ q, Path s.mem.next s.mem.tail q ∧ x ∈ q) ∧ ∃ l, PopsAlone s l ∧ x ∈ l) ∧
    (s.mem.head = none ↔ s.mem.tail = none)

/-! ## `Pop` alone -/

/-- One call of `Pop` on a chain of several items. -/
theorem exec_pop_cons {s : State P T} {a b : T} (hp : s.pop = none) (ht : s.mem.tail = some a)
    (hn : s.mem.next a = some b) :
    exec (system P T) s [.pop, .consumer, .consumer, .consumer, .consumer] = some { s with
      mem := { s.mem with tail := some b, next := Function.update s.mem.next a none }
      returned := s.returned ++ [a]
      place := Function.update s.place a .out } := by
  simp [exec, system, step, hp, ht, hn, State.consumer, popStep]

/-- One call of `Pop` on the last item. -/
theorem exec_pop_singleton {s : State P T} {a : T} (hp : s.pop = none) (ht : s.mem.tail = some a)
    (hn : s.mem.next a = none) (hh : s.mem.head = some a) :
    exec (system P T) s [.pop, .consumer, .consumer, .consumer, .consumer, .consumer] = some { s with
      mem := { head := none, tail := none, next := Function.update s.mem.next a none }
      returned := s.returned ++ [a]
      place := Function.update s.place a .out } := by
  simp [exec, system, step, hp, ht, hn, hh, State.consumer, popStep]

theorem PopsAlone.nil {s : State P T} (hp : s.pop = none) : PopsAlone s [] :=
  ⟨[], s, nofun, rfl, hp, (List.append_nil _).symm⟩

/-- One call that returns `a`, then further calls. -/
theorem PopsAlone.cons {s t : State P T} {a : T} {l : List T} {ls : List (Label P T)}
    (hex : exec (system P T) s ls = some t) (ht : t.returned = s.returned ++ [a])
    (hls : ∀ c ∈ ls, c = Label.pop ∨ c = Label.consumer) (h : PopsAlone t l) : PopsAlone s (a :: l) := by
  obtain ⟨ks, u, h₁, h₂, h₃, h₄⟩ := h
  refine ⟨ls ++ ks, u, ?_, exec_trans hex h₂, h₃, by rw [h₄, ht, List.append_assoc, List.singleton_append]⟩
  intro c hc
  rcases List.mem_append.mp hc with hc | hc
  · exact hls c hc
  · exact h₁ c hc

/-- **`Pop` alone returns the items of the chain from `tail_`, in order.** -/
theorem pops_path : ∀ {q : List T} {s : State P T}, s.pop = none → q.Nodup → Path s.mem.next s.mem.tail q →
    s.mem.head = q.getLast? → PopsAlone s q
  | [], _, hp, _, _, _ => PopsAlone.nil hp
  | [a], s, hp, _, hq, hh => by
    obtain ⟨ht, hn⟩ := hq
    exact PopsAlone.cons (exec_pop_singleton hp ht hn hh) rfl (by simp) (PopsAlone.nil hp)
  | a :: b :: q, s, hp, hnd, hq, hh => by
    obtain ⟨ht, hn, hb⟩ := hq
    have hex := exec_pop_cons hp ht hn
    have htail : Path s.mem.next (some b) (b :: q) := ⟨rfl, hb⟩
    have hpath : Path (Function.update s.mem.next a none) (some b) (b :: q) :=
      htail.update_of_notMem (List.nodup_cons.mp hnd).1
    have hlast : s.mem.head = (b :: q).getLast? := by simpa using hh
    exact PopsAlone.cons hex rfl (by simp) (pops_path hp (List.nodup_cons.mp hnd).2 hpath hlast)

/-! ## When nothing is lost -/

omit [DecidableEq P] [DecidableEq T] in
/-- With no call in progress the queue is the chain from `tail_`. -/
theorem Inv.quiescent {s : State P T} {q : List T} (hi : Inv s q) (hf : Front s q) (hq : Quiescent s) :
    Path s.mem.next s.mem.tail q := by
  have hno : ∀ pc, ¬At s.push pc := by
    rintro pc ⟨p, hp⟩
    rw [hq.1 p] at hp; cases hp
  cases hf with
  | attached h₁ _ _ => rw [h₁]; exact hi.linked.path fun a b => hno _
  | pending x h₁ _ _ => exact absurd h₁ (hno _)
  | emptying t _ h₂ _ => rw [hq.2] at h₂; cases h₂
  | refilled t x h₁ _ _ => exact absurd h₁ (hno _)

/-- **No item is lost in any run in which no producer stores `tail_` between the two steps with which `Pop` empties the
queue.** -/
theorem noItemLost_of_not_overwritten (s : State P T)
    (hs : Reach (system P T) (fun s l => ¬Overwritten s l) s) : NoItemLost s := by
  obtain ⟨q, hi, hf⟩ := hs.invariant (I := fun s => ∃ q, Inv s q ∧ Front s q)
    (by rintro _ rfl; exact ⟨[], inv_empty, front_empty⟩)
    (by rintro s t l ⟨q, hi, hf⟩ hok h; exact front_step hi hf hok h)
  intro hq
  have hpath := hi.quiescent hf hq
  have htk : taken s.pop = [] := by rw [hq.2]; rfl
  have hnd : q.Nodup := by simpa [htk] using hi.nodup
  refine ⟨fun x hx => ?_, ?_⟩
  · have hxq : x ∈ q := by simpa [htk] using hi.queued x hx
    exact ⟨⟨q, hpath, hxq⟩, q, pops_path hq.2 hnd hpath hi.head, hxq⟩
  · rw [hi.head, hpath.head]
    simp

/-- A producer pushes 10, a second one pushes 20, and the consumer returns 10: no store is overwritten. -/
theorem noItemLost_two_pushes : ∃ s : State ℕ ℕ, s.mem.tail = some 20 ∧ s.returned = [10] ∧ NoItemLost s := by
  refine ⟨_, rfl, rfl,
    noItemLost_of_not_overwritten _ (reach_exec (fun _ _ => id) (.init rfl) (show exec (system ℕ ℕ) .empty
    [.push 0 10, .push 1 20, .producer 0, .producer 1, .producer 0, .pop, .producer 1, .producer 0, .producer 1,
      .consumer, .consumer, .consumer, .consumer] = some _ from rfl) (by decide))⟩

/-! ## When an item is lost -/

/-- A producer pushes 20 while the consumer is between the two steps with which it empties the queue. -/
def lossRun : List (Label ℕ ℕ) :=
  [.push 0 10, .producer 0, .producer 0, .producer 0, .pop, .consumer, .consumer, .consumer,
    .push 1 20, .producer 1, .producer 1, .producer 1, .consumer, .consumer]

/-- **An item is lost**: no call is in progress, the `Push` of 20 has completed, and `tail_` is null. -/
theorem lost_item : ∃ s, exec (system ℕ ℕ) .empty lossRun = some s ∧ Reachable (system ℕ ℕ) s ∧ ¬NoItemLost s := by
  refine ⟨_, rfl, reachable_exec (.init rfl) (show exec (system ℕ ℕ) .empty lossRun = some _ from rfl), fun h => ?_⟩
  refine absurd ((h ⟨fun p => ?_, rfl⟩).2.mpr rfl) nofun
  match p with
  | 0 | 1 | _ + 2 => rfl

end Cothread.Mpsc
