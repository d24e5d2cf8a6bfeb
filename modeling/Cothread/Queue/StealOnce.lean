import Cothread.Lib.Ring
import Cothread.Queue.WorkStealing
import Mathlib.Data.List.Perm.Basic
import Mathlib.Data.List.Nodup

/-!
# `WorkStealingQueue` and tasks delivered twice

`Pop` compares the index of `tail_` with a `head_` that it read earlier, and stores `tail_` without looking at `head_`
again. Thieves may have emptied the queue in between (`stolen_and_popped`), and a thief may take the element that such
a `Pop` took. While `Pop` stores `tail_` only over a queue that is not empty, and a thief's exchange of `head_` succeeds
only on a queue that is not empty and whose first slot still holds the task it read, no task is delivered twice and the
window from `head_` to `tail_` holds what has not been returned (`delivered_once`).
-/

namespace Cothread.WorkStealing

open Run Ring

variable {K T : Type*}

/-- The slots from the index of `head_` to the index of `tail_`. -/
def Queue.window (q : Queue T) : List (Option T) :=
  let n := (extractIndex q.tail + CAPACITY - extractIndex q.head) % CAPACITY
  (List.range n).map fun i => q.buffer ((extractIndex q.head + i) % CAPACITY)

/-- No call is in progress. -/
def Quiescent (s : State K T) : Prop := s.owner = none ∧ ∀ k, s.thief k = none

/-- **No task is delivered twice**, and with no call in progress the window holds the tasks that were not returned. -/
def DeliveredOnce [DecidableEq T] (s : State K T) : Prop :=
  s.returned.Nodup ∧ s.returned ⊆ s.pushed ∧
    (Quiescent s → s.queue.window.Perm ((s.pushed.filter (· ∉ s.returned)).map some))

/-! ## Packed words -/

theorem extractIndex_makeVal {v i : Nat} (hi : i < CAPACITY) : extractIndex (makeVal v i) = i := by
  unfold extractIndex makeVal CAPACITY at *
  omega

theorem extractVersion_makeVal {v i : Nat} (hi : i < CAPACITY) : extractVersion (makeVal v i) = v % 2 ^ 32 := by
  unfold extractVersion makeVal CAPACITY at *
  omega

/-- A version may be reduced before it is incremented. -/
theorem makeVal_succ {v i : Nat} : makeVal (v % 2 ^ 32 + 1) i = makeVal (v + 1) i := by
  unfold makeVal
  omega

theorem makeVal_inj {v v' i i' : Nat} (hv : v < 2 ^ 32) (hv' : v' < 2 ^ 32) (h : makeVal v i = makeVal v' i') :
    v = v' := by
  unfold makeVal at h
  omega

theorem nextIndex_mod (p : Nat) : nextIndex (p % CAPACITY) = (p + 1) % CAPACITY := by
  unfold nextIndex CAPACITY
  omega

theorem prevIndex_mod (p : Nat) : prevIndex ((p + 1) % CAPACITY) = p % CAPACITY := by
  unfold prevIndex CAPACITY
  omega

theorem prevIndex_ne {i : Nat} (hi : i < CAPACITY) : prevIndex i ≠ i := by
  unfold prevIndex CAPACITY at *
  omega

theorem nextIndex_prevIndex {i : Nat} (hi : i < CAPACITY) : nextIndex (prevIndex i) = i := by
  unfold nextIndex prevIndex CAPACITY at *
  omega

/-- The word that `head_` holds after `p` tasks were taken at the head. -/
def word (p : Nat) : Nat := makeVal p (p % CAPACITY)

theorem mod_lt (p : Nat) : p % CAPACITY < CAPACITY := Nat.mod_lt _ (by decide)

@[simp] theorem extractIndex_word (p : Nat) : extractIndex (word p) = p % CAPACITY := extractIndex_makeVal (mod_lt p)

theorem word_succ (p : Nat) : makeVal (extractVersion (word p) + 1) (nextIndex (p % CAPACITY)) = word (p + 1) := by
  rw [word, extractVersion_makeVal (mod_lt p), makeVal_succ, nextIndex_mod, word]

theorem word_inj {p p' : Nat} (hp : p < 2 ^ 32) (hp' : p' < 2 ^ 32) (h : word p = word p') : p = p' :=
  makeVal_inj hp hp' h

/-- An increment of the version changes the word. -/
theorem word_succ_ne (p : Nat) : word (p + 1) ≠ word p := by
  unfold word makeVal
  omega

/-! ## The invariant -/

/-- The task that the owner is pushing, or that it has claimed and not yet returned. -/
def OwnerPc.inFlight : OwnerPc T → List T
  | .pushLoadTail x | .pushStore x _ | .pushSetTail x _ => [x]
  | .popMatchTail _ task => task.toList
  | _ => []

def State.inFlight (s : State K T) : List T := s.owner.elim [] OwnerPc.inFlight

/-- What the owner's next access relies on, `p` tasks having been taken at the head and `xs` being in the queue. -/
def Owner (q : Queue T) (p : Nat) (xs : List T) : OwnerPc T → Prop
  | .pushLoadTail _ | .popLoadHead => True
  | .pushStore _ t => t = q.tail
  | .pushSetTail x t => t = q.tail ∧ q.buffer (extractIndex t) = some x
  | .popLoadTail h => ∃ p₀ ≤ p, h = word p₀
  | .popLoadSlot h t => (∃ p₀ ≤ p, h = word p₀) ∧ t = q.tail
  | .popClaim h t task =>
    (∃ p₀ ≤ p, h = word p₀) ∧ t = q.tail ∧ prevIndex (extractIndex t) = extractIndex h ∧ (xs ≠ [] → task = xs.getLast?)
  | .popMatchTail t _ => t = q.tail ∧ xs = []
  | .popSetTail t task => t = q.tail ∧ (xs ≠ [] → task = xs.getLast?)

/-- `p` tasks have been taken at the head, and the window from `head_` to `tail_` holds `xs`. -/
structure Inv (s : State K T) (p : Nat) (xs : List T) : Prop where
  head : s.queue.head = word p
  tail : extractIndex s.queue.tail = (p + xs.length) % CAPACITY
  slots : Slots s.queue.buffer CAPACITY p xs
  perm : s.pushed.Perm (s.returned ++ s.inFlight ++ xs)
  nodup : s.pushed.Nodup
  bound : s.pushed.length ≤ s.returned.length + (CAPACITY - 1)
  count : p ≤ s.increments
  owner : ∀ pc, s.owner = some pc → Owner s.queue p xs pc

/-- What the claims about the queue take for granted: tasks are pushed once and at most `CAPACITY - 1` of them are
undelivered, and versions do not wrap. -/
def Allowed [DecidableEq T] (s : State K T) : Label K T → Prop
  | .push x => s.increments + 1 < 2 ^ 32 ∧ x ∉ s.pushed ∧ s.pushed.length < s.returned.length + (CAPACITY - 1)
  | _ => s.increments + 1 < 2 ^ 32

/-- `Pop` stores `tail_` over an empty queue. -/
def OwnerPc.late (q : Queue T) : OwnerPc T → Bool
  | .popSetTail _ _ => q.empty
  | _ => false

/-- The exchange of `Steal` would succeed on an empty queue, or on one whose first slot holds another task. -/
def ThiefPc.late [DecidableEq T] (q : Queue T) : ThiefPc T → Bool
  | .claim _ h task => q.head == h && (q.empty || q.buffer (extractIndex h) != task)
  | _ => false

/-- The owner stores `tail_` over an empty queue, or a thief's exchange succeeds on an empty queue or on one whose first
slot holds another task than the thief read. -/
def Late [DecidableEq T] (s : State K T) : Label K T → Prop
  | .owner => s.owner.any (OwnerPc.late s.queue)
  | .thief k spurious => spurious = false ∧ (s.thief k).any (ThiefPc.late s.queue)
  | _ => False

instance [DecidableEq T] (s : State K T) : ∀ l, Decidable (Allowed s l)
  | .push x => inferInstanceAs (Decidable (_ ∧ x ∉ s.pushed ∧ _))
  | .pop | .owner | .steal _ | .thief _ _ => inferInstanceAs (Decidable (s.increments + 1 < 2 ^ 32))

instance [DecidableEq T] (s : State K T) : ∀ l, Decidable (Late s l)
  | .owner => inferInstanceAs (Decidable (s.owner.any (OwnerPc.late s.queue) = true))
  | .thief k spurious =>
    inferInstanceAs (Decidable (spurious = false ∧ (s.thief k).any (ThiefPc.late s.queue) = true))
  | .push _ | .pop | .steal _ => inferInstanceAs (Decidable False)

section Inv

variable {s t : State K T} {p : Nat} {xs : List T}

theorem Inv.length_add (h : Inv s p xs) : xs.length + s.inFlight.length < CAPACITY := by
  have hp := h.perm.length_eq
  have hb := h.bound
  simp only [List.length_append] at hp
  have hc : 0 < CAPACITY := by decide
  omega

theorem Inv.length_lt (h : Inv s p xs) : xs.length < CAPACITY := by
  have := h.length_add
  omega

/-- `Empty()` tells whether the window is empty. -/
theorem Inv.empty_iff (h : Inv s p xs) : s.queue.empty = true ↔ xs = [] := by
  have hlen := h.length_lt
  rw [Queue.empty, beq_iff_eq, h.head, h.tail, extractIndex_word]
  constructor
  · intro he
    rcases Nat.eq_zero_or_pos xs.length with h0 | h0
    · exact List.eq_nil_of_length_eq_zero h0
    · exact absurd he (mod_ne (by omega) (by omega))
  · rintro rfl
    rfl

/-- The index in front of `tail_`, when the window is not empty. -/
theorem Inv.prevIndex_tail {x : T} (h : Inv s p (xs ++ [x])) :
    prevIndex (extractIndex s.queue.tail) = (p + xs.length) % CAPACITY := by
  rw [h.tail, List.length_append, List.length_singleton, ← Nat.add_assoc, prevIndex_mod]

/-- Steps that leave the queue, the owner and the history alone. -/
theorem Inv.congr (h : Inv s p xs) (hq : t.queue = s.queue) (ho : t.owner = s.owner) (hp : t.pushed = s.pushed)
    (hr : t.returned = s.returned) (hi : s.increments ≤ t.increments) : Inv t p xs := by
  have hf : t.inFlight = s.inFlight := by rw [State.inFlight, State.inFlight, ho]
  exact ⟨by rw [hq]; exact h.head, by rw [hq]; exact h.tail, by rw [hq]; exact h.slots,
    by rw [hp, hr, hf]; exact h.perm,
    by rw [hp]; exact h.nodup, by rw [hp, hr]; exact h.bound, Nat.le_trans h.count hi, by rw [ho, hq]; exact h.owner⟩

/-- The first task is taken: the owner's knowledge is about the other end. -/
theorem Owner.taken {q q' : Queue T} {x : T} {pc : OwnerPc T} (h : Owner q p (x :: xs) pc) (ht : q'.tail = q.tail)
    (hb : q'.buffer = q.buffer) : Owner q' (p + 1) xs pc := by
  have hlast : xs ≠ [] → (x :: xs).getLast? = xs.getLast? := by
    intro hne
    cases xs with
    | nil => exact absurd rfl hne
    | cons y ys => rw [List.getLast?_cons_cons]
  cases pc with
  | pushLoadTail y => trivial
  | pushStore y t => exact (show t = q.tail from h).trans ht.symm
  | pushSetTail y t => exact ⟨h.1.trans ht.symm, hb ▸ h.2⟩
  | popLoadHead => trivial
  | popLoadTail v =>
    obtain ⟨p₀, hp, rfl⟩ := h
    exact ⟨p₀, by omega, rfl⟩
  | popLoadSlot v t =>
    obtain ⟨⟨p₀, hp, rfl⟩, h₂⟩ := h
    exact ⟨⟨p₀, by omega, rfl⟩, h₂.trans ht.symm⟩
  | popClaim v t task =>
    obtain ⟨⟨p₀, hp, rfl⟩, h₂, h₃, h₄⟩ := h
    exact ⟨⟨p₀, by omega, rfl⟩, h₂.trans ht.symm, h₃, fun hne => (h₄ (by simp)).trans (hlast hne)⟩
  | popMatchTail t task => cases h.2
  | popSetTail t task => exact ⟨h.1.trans ht.symm, fun hne => (h.2 (by simp)).trans (hlast hne)⟩

/-! ## Thieves -/

/-- A thief's exchange succeeds on a queue that is not empty. -/
theorem Inv.taken {x : T} {f : K → Option (ThiefPc T)} {i : Nat} (h : Inv s p (x :: xs)) (hi : s.increments < i) :
    Inv { s with
      queue := { s.queue with head := word (p + 1) }
      thief := f
      returned := s.returned ++ [x]
      increments := i } (p + 1) xs := by
  refine ⟨rfl, ?_, h.slots.2, ?_, h.nodup, ?_, ?_, fun pc hpc => (h.owner pc hpc).taken rfl rfl⟩
  · have harith : p + 1 + xs.length = p + (x :: xs).length := by simp; omega
    rw [harith]
    exact h.tail
  · have hp := h.perm
    simp only [List.append_assoc] at hp ⊢
    refine hp.trans (List.Perm.append_left _ ?_)
    exact List.perm_middle
  · have := h.bound
    simp only [List.length_append]
    omega
  · have hc := h.count
    show p + 1 ≤ i
    omega

variable [DecidableEq K]

/-- A thief's access that changes nothing and returns nothing. -/
theorem Inv.thief_idle {k : K} {spurious : Bool} {pc : ThiefPc T} {r : Result (ThiefPc T) T} (h : Inv s p xs)
    (he : thiefStep spurious s.queue pc = (s.queue, r)) (hr : ∀ x, r ≠ .returned (some x)) :
    Inv (s.thiefStep k spurious pc) p xs := by
  rcases r with pc' | _ | x
  · simp only [State.thiefStep, he]
    exact h.congr rfl rfl rfl rfl (Nat.le_add_right _ _)
  · simp only [State.thiefStep, he]
    exact h.congr rfl rfl rfl (List.append_nil _) (Nat.le_add_right _ _)
  · exact absurd rfl (hr x)

/-- **Thieves deliver nothing twice**, unless they are late. -/
theorem Inv.thief [DecidableEq T] {k : K} {spurious : Bool} {pc : ThiefPc T} (h : Inv s p xs) (hk : s.thief k = some pc)
    (hok : ¬Late s (.thief k spurious)) : ∃ p' xs', Inv (s.thiefStep k spurious pc) p' xs' := by
  cases pc with
  | loadHead attempt => exact ⟨p, xs, h.thief_idle rfl nofun⟩
  | loadTail attempt v => exact ⟨p, xs, h.thief_idle rfl (by split <;> nofun)⟩
  | loadSlot attempt v => exact ⟨p, xs, h.thief_idle rfl nofun⟩
  | claim attempt v task =>
    by_cases hc : s.queue.head = v ∧ spurious = false
    · obtain ⟨rfl, rfl⟩ := hc
      have hne : s.queue.empty = false ∧ s.queue.buffer (extractIndex s.queue.head) = task := by
        have hno : ThiefPc.late s.queue (.claim attempt s.queue.head task) = false := by simpa [Late, hk] using hok
        simpa [ThiefPc.late] using hno
      cases xs with
      | nil => simp [h.empty_iff.mpr rfl] at hne
      | cons x xs =>
        -- the first slot holds `x`, so this is the task that the thief read
        have hx : task = some x := by
          rw [← hne.2, h.head, extractIndex_word]
          exact h.slots.1
        subst hx
        have hq : thiefStep false s.queue (.claim attempt s.queue.head (some x)) =
            ({ s.queue with head := word (p + 1) }, .returned (some x)) := by
          simp [thiefStep, h.head, word_succ]
        have hb : bumps s.queue { s.queue with head := word (p + 1) } = 1 := by
          simp [bumps, h.head, word_succ_ne]
        refine ⟨p + 1, xs, ?_⟩
        simp only [State.thiefStep, hq, hb]
        exact h.taken (Nat.lt_succ_self _)
    · by_cases ha : attempt + 1 < MAX_STEAL_ATTEMPTS
      · exact ⟨p, xs, h.thief_idle (r := .running (.loadHead (attempt + 1)))
          (by simp only [thiefStep, if_neg hc, if_pos ha]) nofun⟩
      · exact ⟨p, xs, h.thief_idle (r := .returned none) (by simp only [thiefStep, if_neg hc, if_neg ha]) nofun⟩

/-! ## The owner -/

omit [DecidableEq K]

/-- The last slot of a window that is not empty. -/
theorem Inv.last (h : Inv s p xs) (hne : xs ≠ []) :
    s.queue.buffer (prevIndex (extractIndex s.queue.tail)) = xs.getLast? := by
  obtain ⟨ys, x, rfl⟩ := (List.eq_nil_or_concat' xs).resolve_left hne
  rw [h.prevIndex_tail, List.getLast?_concat]
  exact (slots_append.mp h.slots).2.1

/-- An access of the owner that changes nothing but the progress of the call. -/
theorem Inv.owner_read {pc pc' : OwnerPc T} (h : Inv s p xs) (ho : s.owner = some pc)
    (he : ownerStep s.queue pc = (s.queue, .running pc')) (hf : pc'.inFlight = pc.inFlight)
    (hpc : Owner s.queue p xs pc') : Inv (s.ownerStep pc) p xs := by
  have hs : s.inFlight = pc.inFlight := by rw [State.inFlight, ho]; rfl
  simp only [State.ownerStep, he]
  refine ⟨h.head, h.tail, h.slots, ?_, h.nodup, h.bound, Nat.le_trans h.count (Nat.le_add_right _ _), ?_⟩
  · have hp := h.perm
    rw [hs, ← hf] at hp
    exact hp
  · rintro _ ⟨⟩
    exact hpc

/-- `Pop` returns null. -/
theorem Inv.owner_null {pc : OwnerPc T} (h : Inv s p xs) (ho : s.owner = some pc)
    (he : ownerStep s.queue pc = (s.queue, .returned none)) (hf : pc.inFlight = []) : Inv (s.ownerStep pc) p xs := by
  have hs : s.inFlight = [] := by rw [State.inFlight, ho]; exact hf
  simp only [State.ownerStep, he]
  refine ⟨h.head, h.tail, h.slots, ?_, h.nodup, ?_, Nat.le_trans h.count (Nat.le_add_right _ _), nofun⟩
  · have hp := h.perm
    rw [hs] at hp
    simpa [State.inFlight] using hp
  · simpa using h.bound

/-- The owner's store of `tail_` at the end of a call, after which the queue holds `ys`. -/
theorem Inv.owner_store {pc : OwnerPc T} {tl : Nat} {task : Option T} {ys : List T} (h : Inv s p xs)
    (ho : s.owner = some pc) (he : ownerStep s.queue pc = ({ s.queue with tail := tl }, .returned task))
    (ht : extractIndex tl = (p + ys.length) % CAPACITY) (hs : Slots s.queue.buffer CAPACITY p ys)
    (hperm : (pc.inFlight ++ xs).Perm (task.toList ++ ys)) : Inv (s.ownerStep pc) p ys := by
  have hf : s.inFlight = pc.inFlight := by rw [State.inFlight, ho]; rfl
  simp only [State.ownerStep, he]
  refine ⟨h.head, ht, hs, ?_, h.nodup, ?_, Nat.le_trans h.count (Nat.le_add_right _ _), nofun⟩
  · have hp := h.perm
    rw [hf, List.append_assoc] at hp
    simpa [State.inFlight] using hp.trans (List.Perm.append_left _ hperm)
  · have hb := h.bound
    simp only [List.length_append]
    omega

/-- `buffer_[idx].store(task)`. -/
theorem Inv.pushStore {x : T} {v : Nat} (h : Inv s p xs) (ho : s.owner = some (.pushStore x v)) :
    Inv (s.ownerStep (.pushStore x v)) p xs := by
  have hv : v = s.queue.tail := h.owner _ ho
  have hs : s.inFlight = [x] := by rw [State.inFlight, ho]; rfl
  simp only [State.ownerStep, WorkStealing.ownerStep]
  refine ⟨h.head, h.tail, ?_, ?_, h.nodup, h.bound, Nat.le_trans h.count (Nat.le_add_right _ _), ?_⟩
  · rw [hv, h.tail]
    exact h.slots.write h.length_lt
  · have hp := h.perm
    rw [hs] at hp
    exact hp
  · rintro _ ⟨⟩
    exact ⟨hv, Function.update_self ..⟩

/-- `tail_.store(..)` of `Push`. -/
theorem Inv.pushSetTail {x : T} {v : Nat} (h : Inv s p xs) (ho : s.owner = some (.pushSetTail x v)) :
    Inv (s.ownerStep (.pushSetTail x v)) p (xs ++ [x]) := by
  obtain ⟨rfl, hx⟩ := h.owner _ ho
  rw [h.tail] at hx
  refine h.owner_store ho rfl ?_ (slots_append.mpr ⟨h.slots, hx, trivial⟩) ?_
  · rw [h.tail, nextIndex_mod, extractIndex_makeVal (mod_lt _), List.length_append, List.length_singleton,
      Nat.add_assoc]
  · exact List.perm_append_comm

/-- The exchange of `head_` in `Pop` succeeds: `head_` has not moved since `Pop` read it, and one task is left. -/
theorem Inv.popClaim {v w : Nat} {task : Option T} (h : Inv s p xs) (ho : s.owner = some (.popClaim v w task))
    (hp : p < 2 ^ 32) (hv : s.queue.head = v) : Inv (s.ownerStep (.popClaim v w task)) (p + 1) [] := by
  obtain ⟨⟨p₀, hle, rfl⟩, rfl, hidx, hlast⟩ := h.owner _ ho
  have hp₀ : p₀ < 2 ^ 32 := Nat.lt_of_le_of_lt hle hp
  obtain rfl : p = p₀ := word_inj hp hp₀ (h.head.symm.trans hv)
  rw [extractIndex_word] at hidx
  have hne : xs ≠ [] := by
    rintro rfl
    have ht : extractIndex s.queue.tail = p % CAPACITY := h.tail
    rw [ht] at hidx
    exact prevIndex_ne (mod_lt p) hidx
  obtain ⟨ys, x, rfl⟩ := (List.eq_nil_or_concat' xs).resolve_left hne
  have hys : ys = [] := by
    have hlen := h.length_lt
    rw [List.length_append, List.length_singleton] at hlen
    by_contra hcon
    have hpos := List.length_pos_iff.mpr hcon
    rw [h.prevIndex_tail] at hidx
    exact mod_ne (i := p) (j := p + ys.length) (by omega) (by omega) hidx.symm
  subst hys
  have htask : task = some x := hlast hne
  subst htask
  have hs : s.inFlight = [] := by rw [State.inFlight, ho]; rfl
  have hq : WorkStealing.ownerStep s.queue (.popClaim (word p) s.queue.tail (some x)) =
      ({ s.queue with head := word (p + 1) }, .running (.popMatchTail s.queue.tail (some x))) := by
    simp [WorkStealing.ownerStep, hv, hidx, word_succ]
  have hb : bumps s.queue { s.queue with head := word (p + 1) } = 1 := by simp [bumps, h.head, word_succ_ne]
  simp only [State.ownerStep, hq, hb]
  refine ⟨rfl, h.tail, trivial, ?_, h.nodup, h.bound, Nat.succ_le_succ h.count, ?_⟩
  · have hperm := h.perm
    rw [hs] at hperm
    simpa [State.inFlight, OwnerPc.inFlight] using hperm
  · rintro _ ⟨⟩
    exact ⟨rfl, rfl⟩

/-- **The owner delivers nothing twice**, unless it is late. -/
theorem Inv.ownerStep [DecidableEq T] {pc : OwnerPc T} (h : Inv s p xs) (ho : s.owner = some pc) (hp : p < 2 ^ 32)
    (hok : ¬Late s .owner) : ∃ p' xs', Inv (s.ownerStep pc) p' xs' := by
  cases pc with
  | pushLoadTail x => exact ⟨p, xs, h.owner_read ho rfl rfl rfl⟩
  | pushStore x v => exact ⟨p, xs, h.pushStore ho⟩
  | pushSetTail x v => exact ⟨p, xs ++ [x], h.pushSetTail ho⟩
  | popLoadHead => exact ⟨p, xs, h.owner_read ho rfl rfl ⟨p, Nat.le_refl p, h.head⟩⟩
  | popLoadTail v =>
    have hv : ∃ p₀ ≤ p, v = word p₀ := h.owner _ ho
    by_cases he : extractIndex v = extractIndex s.queue.tail
    · exact ⟨p, xs, h.owner_null ho (by simp only [WorkStealing.ownerStep, if_pos he]) rfl⟩
    · have hq : WorkStealing.ownerStep s.queue (.popLoadTail v) =
        (s.queue, .running (.popLoadSlot v s.queue.tail)) := by
        simp only [WorkStealing.ownerStep, if_neg he]
      exact ⟨p, xs, h.owner_read ho hq rfl ⟨hv, rfl⟩⟩
  | popLoadSlot v w =>
    obtain ⟨hv, rfl⟩ := h.owner _ ho
    by_cases he : prevIndex (extractIndex s.queue.tail) = extractIndex v
    · have hq : WorkStealing.ownerStep s.queue (.popLoadSlot v s.queue.tail) = (s.queue, .running
          (.popClaim v s.queue.tail (s.queue.buffer (prevIndex (extractIndex s.queue.tail))))) := by
        simp only [WorkStealing.ownerStep, if_pos he]
      exact ⟨p, xs, h.owner_read ho hq rfl ⟨hv, rfl, he, h.last⟩⟩
    · have hq : WorkStealing.ownerStep s.queue (.popLoadSlot v s.queue.tail) = (s.queue, .running
          (.popSetTail s.queue.tail (s.queue.buffer (prevIndex (extractIndex s.queue.tail))))) := by
        simp only [WorkStealing.ownerStep, if_neg he]
      exact ⟨p, xs, h.owner_read ho hq rfl ⟨rfl, h.last⟩⟩
  | popClaim v w task =>
    by_cases hv : s.queue.head = v
    · exact ⟨p + 1, [], h.popClaim ho hp hv⟩
    · exact ⟨p, xs, h.owner_null ho (by simp only [WorkStealing.ownerStep, if_neg hv]) rfl⟩
  | popMatchTail w task =>
    obtain ⟨rfl, rfl⟩ := h.owner _ ho
    refine ⟨p, [], h.owner_store ho rfl ?_ trivial (List.Perm.refl _)⟩
    rw [h.tail, nextIndex_prevIndex (mod_lt _), extractIndex_makeVal (mod_lt _)]
  | popSetTail w task =>
    obtain ⟨rfl, hlast⟩ := h.owner _ ho
    have hne : xs ≠ [] := by
      rw [Ne, ← h.empty_iff]
      simpa [Late, ho, OwnerPc.late] using hok
    obtain ⟨ys, x, rfl⟩ := (List.eq_nil_or_concat' xs).resolve_left hne
    have htask : task = some x := (hlast hne).trans List.getLast?_concat
    subst htask
    have hperm : (ys ++ [x]).Perm ([x] ++ ys) := List.perm_append_comm
    refine ⟨p, ys, h.owner_store ho rfl ?_ (slots_append.mp h.slots).1 hperm⟩
    rw [h.prevIndex_tail, extractIndex_makeVal (mod_lt _)]

end Inv

/-! ## Every run -/

section Runs

variable [DecidableEq K] [DecidableEq T] {s t : State K T} {l : Label K T}

omit [DecidableEq K] [DecidableEq T] in
theorem inv_new : Inv (State.new : State K T) 0 [] where
  head := rfl
  tail := rfl
  slots := trivial
  perm := List.Perm.refl _
  nodup := List.nodup_nil
  bound := Nat.zero_le _
  count := Nat.le_refl 0
  owner := nofun

/-- **Every step keeps the queue**, unless the owner or a thief is late. -/
theorem inv_step {p : Nat} {xs : List T} (h : Inv s p xs) (ha : Allowed s l) (hok : ¬Late s l)
    (hs : step s l = some t) : ∃ p' xs', Inv t p' xs' := by
  cases l with
  | push x =>
    simp only [step, Option.isNone_iff_eq_none, Option.ite_none_right_eq_some, Option.some.injEq] at hs
    obtain ⟨ho, rfl⟩ := hs
    obtain ⟨_, hx, hlen⟩ := ha
    refine ⟨p, xs, h.head, h.tail, h.slots, ?_, ?_, ?_, h.count, ?_⟩
    · have hp := h.perm
      simp only [State.inFlight, ho, Option.elim_none, List.append_nil] at hp
      simp only [State.inFlight, Option.elim_some, OwnerPc.inFlight, List.append_assoc]
      exact (hp.append_right [x]).trans (by rw [List.append_assoc]; exact List.Perm.append_left _ List.perm_append_comm)
    · exact h.nodup.append (List.nodup_singleton x) (by simpa using hx)
    · rw [List.length_append, List.length_singleton]
      exact hlen
    · rintro _ ⟨⟩
      trivial
  | pop =>
    simp only [step, Option.isNone_iff_eq_none, Option.ite_none_right_eq_some, Option.some.injEq] at hs
    obtain ⟨ho, rfl⟩ := hs
    refine ⟨p, xs, h.head, h.tail, h.slots, ?_, h.nodup, h.bound, h.count, ?_⟩
    · have hp := h.perm
      rw [State.inFlight, ho] at hp
      exact hp
    · rintro _ ⟨⟩
      trivial
  | owner =>
    obtain ⟨pc, ho, rfl⟩ := Option.map_eq_some_iff.mp hs
    have hi : s.increments + 1 < 2 ^ 32 := ha
    have hp : p ≤ s.increments := h.count
    exact h.ownerStep ho (by omega) hok
  | steal k =>
    simp only [step, Option.ite_none_right_eq_some, Option.some.injEq] at hs
    obtain ⟨_, rfl⟩ := hs
    exact ⟨p, xs, h.congr rfl rfl rfl rfl (Nat.le_refl _)⟩
  | thief k spurious =>
    obtain ⟨pc, hk, rfl⟩ := Option.map_eq_some_iff.mp hs
    exact h.thief hk hok

omit [DecidableEq K] [DecidableEq T] in
/-- The window that the code sees. -/
theorem Inv.window {p : Nat} {xs : List T} (h : Inv s p xs) : s.queue.window = xs.map some := by
  have hlen := h.length_lt
  have hn : (extractIndex s.queue.tail + CAPACITY - extractIndex s.queue.head) % CAPACITY = xs.length := by
    rw [h.tail, h.head, extractIndex_word]
    unfold CAPACITY at *
    omega
  rw [Queue.window, hn, ← h.slots.map_range]
  refine List.map_congr_left fun i _ => ?_
  rw [h.head, extractIndex_word, Nat.mod_add_mod]

/-- **Nothing is delivered twice** in any run in which neither the owner nor a thief is late. -/
theorem delivered_once (s : State K T)
    (hs : Reach (system K T) (fun s l => Allowed s l ∧ ¬Late s l) s) : DeliveredOnce s := by
  obtain ⟨p, xs, h⟩ := hs.invariant (I := fun s => ∃ p xs, Inv s p xs)
    (by rintro _ rfl; exact ⟨0, [], inv_new⟩)
    (by rintro s t l ⟨p, xs, h⟩ hok hst; exact inv_step h hok.1 hok.2 hst)
  have hnd : (s.returned ++ s.inFlight ++ xs).Nodup := h.perm.nodup_iff.mp h.nodup
  refine ⟨(hnd.of_append_left).of_append_left, fun x hx => ?_, fun hq => ?_⟩
  · exact h.perm.mem_iff.mpr (List.mem_append_left _ (List.mem_append_left _ hx))
  · rw [h.window]
    refine List.Perm.map some ?_
    have hf : s.inFlight = [] := by rw [State.inFlight, hq.1]; rfl
    have hp := h.perm
    rw [hf, List.append_nil] at hp hnd
    refine List.Perm.trans ?_ (hp.symm.filter _)
    have hret : s.returned.filter (· ∉ s.returned) = [] := by simp
    have hxs : xs.filter (· ∉ s.returned) = xs :=
      List.filter_eq_self.mpr fun x hx => decide_eq_true fun hr => List.disjoint_of_nodup_append hnd hr hx
    rw [List.filter_append, hret, hxs, List.nil_append]

/-- Two tasks are pushed; a thief takes the first and the owner the second. -/
theorem delivered_once_two_tasks : ∃ s : State ℕ ℕ, s.returned = [1, 2] ∧ DeliveredOnce s := by
  refine ⟨_, rfl, delivered_once _ (reach_exec (fun _ _ => id) (.init rfl) (show exec (system ℕ ℕ) .new
    (.push 1 :: List.replicate 3 .owner ++ .push 2 :: List.replicate 3 .owner ++ .steal 7 ::
      List.replicate 4 (.thief 7 false) ++ .pop :: List.replicate 5 .owner) = some _ from rfl) (by decide))⟩

/-! ## A task delivered twice -/

/-- The owner reads `head_` and the task 2, then a thief takes both tasks, and the owner stores `tail_`. -/
def lateRun : List (Label ℕ ℕ) :=
  .push 1 :: List.replicate 3 .owner ++ .push 2 :: List.replicate 3 .owner ++ .pop :: List.replicate 3 .owner ++
    .steal 7 :: List.replicate 4 (.thief 7 false) ++ .steal 7 :: List.replicate 4 (.thief 7 false) ++ [.owner]

/-- **A task is delivered twice**: by `Steal` and by `Pop`. -/
theorem stolen_and_popped : ∃ s, exec (system ℕ ℕ) .new lateRun = some s ∧ s.pushed = [1, 2] ∧
    s.returned = [1, 2, 2] ∧ Reach (system ℕ ℕ) Allowed s ∧ ¬DeliveredOnce s := by
  refine ⟨_, rfl, rfl, rfl, reach_exec (fun _ _ => id) (.init rfl)
    (show exec (system ℕ ℕ) .new lateRun = some _ from rfl) (by decide), fun h => ?_⟩
  exact absurd h.1 (by decide)

end Runs

end Cothread.WorkStealing
