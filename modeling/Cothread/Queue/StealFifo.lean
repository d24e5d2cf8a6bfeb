import Cothread.Queue.StealOnce

/-!
# `WorkStealingQueue` in front of thieves is a FIFO queue

An owner that only pushes, and any number of thieves (`thieves`), with at most `CAPACITY - 1` unstolen tasks in the ring
and fewer than 2^32 steals. A thief holds a word that `head_` had earlier. While `head_` still has it, the window is not
empty and its first slot holds the task that the thief read (`Seen`, `Knows`), and after another steal the exchange
fails. So the stolen tasks are a prefix of the pushed ones (`stolen_in_order`).
-/

namespace Cothread.WorkStealing

open Run Ring

variable {K T : Type*}

/-- The owner calls `Pop`. -/
def Label.isPop : Label K T → Bool
  | .pop => true
  | _ => false

/-- At most `CAPACITY - 1` tasks are in the ring, and fewer than 2^32 have been stolen. -/
def State.Fits (s : State K T) : Prop :=
  s.pushed.length ≤ s.returned.length + s.inFlight.length + (CAPACITY - 1) ∧ s.returned.length < 2 ^ 32

instance (s : State K T) : Decidable s.Fits := inferInstanceAs (Decidable (_ ∧ _))

/-- An owner that only calls `Push`, and thieves. -/
def thieves (K T : Type*) [DecidableEq K] : System (State K T) (Label K T) :=
  ((system K T).restrict fun l => l.isPop = false).within State.Fits

/-! ## The invariant -/

/-- A word that `head_` had earlier; while `head_` has it, `φ` holds. -/
def Seen (p h : Nat) (φ : Prop) : Prop := ∃ p₀ ≤ p, h = word p₀ ∧ (p₀ = p → φ)

/-- What a thief knows, `p` tasks having been stolen and `xs` being in the ring. -/
def Knows (p : Nat) (xs : List T) : ThiefPc T → Prop
  | .loadHead _ => True
  | .loadTail _ h => Seen p h True
  | .loadSlot _ h => Seen p h (xs ≠ [])
  | .claim _ h task => Seen p h (xs ≠ [] ∧ task = xs.head?)

/-- What the next access of a `Push` relies on. -/
def Pushing (q : Queue T) : OwnerPc T → Prop
  | .pushLoadTail _ => True
  | .pushStore _ t => t = q.tail
  | .pushSetTail x t => t = q.tail ∧ q.buffer (extractIndex t) = some x
  | _ => False

/-- The ring holds `xs`, the pushed tasks that have not been stolen, in order. -/
structure Line (s : State K T) (xs : List T) : Prop where
  head : s.queue.head = word s.returned.length
  tail : extractIndex s.queue.tail = (s.returned.length + xs.length) % CAPACITY
  slots : Slots s.queue.buffer CAPACITY s.returned.length xs
  order : s.pushed = s.returned ++ xs ++ s.inFlight
  fits : s.Fits
  owner : ∀ pc, s.owner = some pc → Pushing s.queue pc
  thief : ∀ k pc, s.thief k = some pc → Knows s.returned.length xs pc

variable {s t : State K T} {p h : Nat} {xs : List T}

theorem word_zero : word 0 = 0 := rfl

theorem line_new : Line (State.new : State K T) [] where
  head := word_zero.symm
  tail := rfl
  slots := trivial
  order := rfl
  fits := ⟨Nat.zero_le _, by simp [State.new]⟩
  owner := nofun
  thief := nofun

theorem Line.length_lt (hl : Line s xs) : xs.length < CAPACITY := by
  have hb := hl.fits.1
  rw [hl.order] at hb
  simp only [List.length_append] at hb
  have hc : 0 < CAPACITY := by decide
  omega

/-! ## What a thief knows stays true -/

theorem Seen.mono {φ ψ : Prop} (hs : Seen p h φ) (himp : φ → ψ) : Seen p h ψ := by
  obtain ⟨p₀, hp, rfl, hφ⟩ := hs
  exact ⟨p₀, hp, rfl, fun e => himp (hφ e)⟩

/-- After a steal `head_` has none of the earlier words. -/
theorem Seen.stolen {φ ψ : Prop} (hs : Seen p h φ) : Seen (p + 1) h ψ := by
  obtain ⟨p₀, hp, rfl, -⟩ := hs
  exact ⟨p₀, by omega, rfl, fun e => by omega⟩

/-- `head_` has the word. -/
theorem Seen.now {φ : Prop} (hs : Seen p h φ) (hp : p < 2 ^ 32) (hh : word p = h) : φ := by
  obtain ⟨p₀, hle, rfl, hφ⟩ := hs
  exact hφ (word_inj hp (Nat.lt_of_le_of_lt hle hp) hh).symm

theorem Knows.stolen {x : T} {pc : ThiefPc T} (hk : Knows p (x :: xs) pc) : Knows (p + 1) xs pc := by
  cases pc with
  | loadHead attempt => trivial
  | loadTail attempt v => exact Seen.stolen hk
  | loadSlot attempt v => exact Seen.stolen hk
  | claim attempt v task => exact Seen.stolen hk

theorem Knows.pushed {x : T} {pc : ThiefPc T} (hk : Knows p xs pc) : Knows p (xs ++ [x]) pc := by
  cases pc with
  | loadHead attempt => trivial
  | loadTail attempt v => exact hk
  | loadSlot attempt v => exact Seen.mono hk fun _ => by simp
  | claim attempt v task =>
    refine Seen.mono hk fun ⟨hne, ht⟩ => ⟨by simp, ?_⟩
    obtain ⟨y, ys, rfl⟩ := List.exists_cons_of_ne_nil hne
    exact ht

/-! ## The owner -/

/-- An access of the owner, which leaves `head_` and the stolen tasks alone. -/
theorem Line.pushes {q : Queue T} {r : Option (OwnerPc T)} {ys : List T} {i : Nat} (hl : Line s xs)
    (hh : q.head = s.queue.head) (ht : extractIndex q.tail = (s.returned.length + ys.length) % CAPACITY)
    (hs : Slots q.buffer CAPACITY s.returned.length ys) (ho : xs ++ s.inFlight = ys ++ r.elim [] OwnerPc.inFlight)
    (hr : ∀ pc, r = some pc → Pushing q pc) (hk : ∀ pc, Knows s.returned.length xs pc → Knows s.returned.length ys pc)
    (hf : ({ s with queue := q, owner := r, increments := i } : State K T).Fits) :
    Line { s with queue := q, owner := r, increments := i } ys where
  head := hh.trans hl.head
  tail := ht
  slots := hs
  order := by
    show s.pushed = _
    rw [hl.order, List.append_assoc, ho, ← List.append_assoc]
    rfl
  fits := hf
  owner := hr
  thief k pc hpc := hk pc (hl.thief k pc hpc)

/-- **`Push` keeps the line.** -/
theorem Line.ownerStep {pc : OwnerPc T} (hl : Line s xs) (ho : s.owner = some pc) (hf : (s.ownerStep pc).Fits) :
    ∃ ys, Line (s.ownerStep pc) ys := by
  have hs : s.inFlight = pc.inFlight := by rw [State.inFlight, ho]; rfl
  have hpc := hl.owner pc ho
  cases pc with
  | pushLoadTail x =>
    exact ⟨xs, hl.pushes rfl hl.tail hl.slots (by rw [hs]; rfl) (by rintro _ ⟨⟩; rfl) (fun _ => id) hf⟩
  | pushStore x v =>
    obtain rfl : v = s.queue.tail := hpc
    refine ⟨xs, hl.pushes rfl hl.tail ?_ (by rw [hs]; rfl) ?_ (fun _ => id) hf⟩
    · show Slots (Function.update s.queue.buffer (extractIndex s.queue.tail) (some x)) _ _ _
      rw [hl.tail]
      exact hl.slots.write hl.length_lt
    · rintro _ ⟨⟩
      exact ⟨rfl, Function.update_self ..⟩
  | pushSetTail x v =>
    obtain ⟨rfl, hx⟩ := hpc
    rw [hl.tail] at hx
    have hline : ∀ i, Line { s with
        queue := { s.queue with
          tail := makeVal (extractVersion s.queue.tail + 1) (nextIndex (extractIndex s.queue.tail)) }
        owner := none
        increments := i } (xs ++ [x]) := by
      intro i
      refine hl.pushes rfl ?_ (slots_append.mpr ⟨hl.slots, hx, trivial⟩) (by rw [hs]; simp [OwnerPc.inFlight]) (by simp)
        (fun _ => Knows.pushed) ?_
      · show extractIndex (makeVal _ (nextIndex (extractIndex s.queue.tail))) = _
        rw [hl.tail, nextIndex_mod, extractIndex_makeVal (mod_lt _), List.length_append, List.length_singleton,
          Nat.add_assoc]
      · simpa [State.ownerStep, WorkStealing.ownerStep, State.Fits, State.inFlight] using hf
    refine ⟨xs ++ [x], ?_⟩
    simpa [State.ownerStep, WorkStealing.ownerStep] using hline _
  | _ => exact hpc.elim

/-! ## Thieves -/

section Thieves

variable [DecidableEq K] {k : K}

/-- A thief goes on, or returns null. -/
theorem Line.looks {r : Option (ThiefPc T)} {i : Nat} (hl : Line s xs)
    (hr : ∀ pc, r = some pc → Knows s.returned.length xs pc) :
    Line { s with thief := Function.update s.thief k r, increments := i } xs where
  head := hl.head
  tail := hl.tail
  slots := hl.slots
  order := hl.order
  fits := hl.fits
  owner := hl.owner
  thief k' pc hpc := by
    by_cases e : k' = k
    · subst e
      exact hr pc (by simpa using hpc)
    · exact hl.thief k' pc (by simpa [Function.update_of_ne e] using hpc)

/-- An access of a thief that writes nothing. -/
theorem Line.reads {spurious : Bool} {pc : ThiefPc T} {r : Option (ThiefPc T)} (hl : Line s xs)
    (he : thiefStep spurious s.queue pc = (s.queue, r.elim (.returned none) .running))
    (hr : ∀ pc', r = some pc' → Knows s.returned.length xs pc') : Line (s.thiefStep k spurious pc) xs := by
  cases r with
  | none => simpa only [State.thiefStep, he, Option.elim, Option.toList, List.append_nil] using hl.looks hr
  | some pc' => simpa only [State.thiefStep, he, Option.elim] using hl.looks hr

/-- The exchange of `head_` succeeds: the thief takes the first task of the line. -/
theorem Line.steals {x : T} {i : Nat} (hl : Line s (x :: xs)) (hlt : s.returned.length + 1 < 2 ^ 32) :
    Line { s with
      queue := { s.queue with head := word (s.returned.length + 1) }
      thief := Function.update s.thief k none
      returned := s.returned ++ [x]
      increments := i } xs := by
  have hlen : (s.returned ++ [x]).length = s.returned.length + 1 := List.length_append
  refine ⟨?_, ?_, ?_, ?_, ?_, hl.owner, ?_⟩
  · exact congrArg word hlen.symm
  · show extractIndex s.queue.tail = ((s.returned ++ [x]).length + xs.length) % CAPACITY
    have harith : s.returned.length + 1 + xs.length = s.returned.length + (x :: xs).length := by
      rw [List.length_cons]
      omega
    rw [hl.tail, hlen, harith]
  · rw [hlen]
    exact hl.slots.2
  · show s.pushed = s.returned ++ [x] ++ xs ++ s.inFlight
    rw [hl.order, List.append_assoc s.returned [x] xs]
    rfl
  · refine ⟨?_, by rw [hlen]; exact hlt⟩
    have hb := hl.fits.1
    show s.pushed.length ≤ (s.returned ++ [x]).length + s.inFlight.length + _
    omega
  · intro k' pc hpc
    show Knows (s.returned ++ [x]).length xs pc
    rw [hlen]
    by_cases e : k' = k
    · subst e
      simp at hpc
    · exact (hl.thief k' pc (by simpa [Function.update_of_ne e] using hpc)).stolen

/-- **`Steal` keeps the line.** -/
theorem Line.thiefStep {spurious : Bool} {pc : ThiefPc T} (hl : Line s xs) (hk : s.thief k = some pc)
    (hf : (s.thiefStep k spurious pc).Fits) : ∃ ys, Line (s.thiefStep k spurious pc) ys := by
  have hpc := hl.thief k pc hk
  cases pc with
  | loadHead attempt =>
    refine ⟨xs, hl.reads (r := some (.loadTail attempt s.queue.head)) rfl ?_⟩
    rintro _ ⟨⟩
    exact ⟨_, Nat.le_refl _, hl.head, fun _ => trivial⟩
  | loadTail attempt v =>
    by_cases he : extractIndex v = extractIndex s.queue.tail
    · exact ⟨xs, hl.reads (r := none) (by simp only [WorkStealing.thiefStep, if_pos he]; rfl) nofun⟩
    · refine ⟨xs, hl.reads (r := some (.loadSlot attempt v))
        (by simp only [WorkStealing.thiefStep, if_neg he]; rfl) ?_⟩
      rintro _ ⟨⟩
      obtain ⟨p₀, hle, rfl, -⟩ := hpc
      refine ⟨p₀, hle, rfl, ?_⟩
      rintro rfl rfl
      exact he (by rw [hl.tail, extractIndex_word]; rfl)
  | loadSlot attempt v =>
    refine ⟨xs, hl.reads (r := some (.claim attempt v (s.queue.buffer (extractIndex v)))) rfl ?_⟩
    rintro _ ⟨⟩
    obtain ⟨p₀, hle, rfl, hne⟩ := hpc
    refine ⟨p₀, hle, rfl, fun e => ⟨hne e, ?_⟩⟩
    obtain ⟨y, ys, rfl⟩ := List.exists_cons_of_ne_nil (hne e)
    rw [extractIndex_word, e]
    exact hl.slots.1
  | claim attempt v task =>
    by_cases hc : s.queue.head = v ∧ spurious = false
    · obtain ⟨rfl, rfl⟩ := hc
      -- nobody has stolen since this thief read `head_`
      obtain ⟨hne, rfl⟩ := Seen.now hpc hl.fits.2 hl.head.symm
      obtain ⟨x, ys, rfl⟩ := List.exists_cons_of_ne_nil hne
      have hq : WorkStealing.thiefStep false s.queue (.claim attempt s.queue.head (x :: ys).head?) =
          ({ s.queue with head := word (s.returned.length + 1) }, .returned (some x)) := by
        simp [WorkStealing.thiefStep, hl.head, word_succ]
      simp only [State.thiefStep, hq] at hf ⊢
      exact ⟨ys, hl.steals (by simpa using hf.2)⟩
    · by_cases ha : attempt + 1 < MAX_STEAL_ATTEMPTS
      · refine ⟨xs, hl.reads (r := some (.loadHead (attempt + 1)))
          (by simp only [WorkStealing.thiefStep, if_neg hc, if_pos ha]; rfl) ?_⟩
        rintro _ ⟨⟩
        trivial
      · exact ⟨xs, hl.reads (r := none) (by simp only [WorkStealing.thiefStep, if_neg hc, if_neg ha]; rfl) nofun⟩

/-! ## Every run -/

/-- Every step keeps the line. -/
theorem Line.step {l : Label K T} (hl : Line s xs) (hst : (thieves K T).step s l = some t) : ∃ ys, Line t ys := by
  obtain ⟨hst, hf⟩ := System.step_within.mp hst
  obtain ⟨hpop, hst⟩ := Option.ite_none_right_eq_some.mp hst
  cases l with
  | push x =>
    obtain ⟨ho, hst⟩ := Option.ite_none_right_eq_some.mp hst
    cases hst
    have hs : s.inFlight = [] := by rw [State.inFlight, Option.isNone_iff_eq_none.mp ho]; rfl
    refine ⟨xs, hl.head, hl.tail, hl.slots, ?_, hf, ?_, hl.thief⟩
    · show s.pushed ++ [x] = s.returned ++ xs ++ [x]
      rw [hl.order, hs, List.append_nil]
    · rintro _ ⟨⟩
      trivial
  | pop => cases hpop
  | owner =>
    obtain ⟨pc, ho, rfl⟩ := Option.map_eq_some_iff.mp hst
    exact hl.ownerStep ho hf
  | steal k =>
    obtain ⟨-, hst⟩ := Option.ite_none_right_eq_some.mp hst
    cases hst
    refine ⟨xs, hl.looks (r := some (.loadHead 0)) ?_⟩
    rintro _ ⟨⟩
    trivial
  | thief k spurious =>
    obtain ⟨pc, hk, rfl⟩ := Option.map_eq_some_iff.mp hst
    exact hl.thiefStep hk hf

/-- **The stolen tasks, in the order of the exchanges on `head_`, are a prefix of the pushed tasks**, in every state
that an owner who only pushes and any number of thieves reach. -/
theorem stolen_in_order (s : State K T) (hs : Reachable (thieves K T) s) : s.returned <+: s.pushed := by
  obtain ⟨xs, hl⟩ := hs.invariant (I := fun s => ∃ xs, Line s xs)
    (by rintro _ rfl; exact ⟨[], line_new⟩) (by rintro s t l ⟨xs, hl⟩ - hst; exact hl.step hst)
  exact ⟨xs ++ s.inFlight, by rw [hl.order, List.append_assoc]⟩

end Thieves

/-- Two thieves read the first slot, one takes 10, the other one's exchange fails and it takes 20. -/
theorem stolen_by_two : ∃ s : State ℕ ℕ, s.returned = [10, 20] ∧ s.pushed = [10, 20, 30] ∧ s.returned <+: s.pushed := by
  have hs : ∃ s, exec (thieves ℕ ℕ) .new
      [.push 10, .owner, .owner, .owner, .push 20, .owner, .owner, .owner, .steal 0, .steal 1, .thief 0 false,
        .thief 1 false, .thief 0 false, .thief 1 false, .thief 0 false, .thief 1 false, .thief 0 false,
        .push 30, .owner, .thief 1 false, .thief 1 false, .thief 1 false, .thief 1 false, .thief 1 false] = some s ∧
      s.returned = [10, 20] ∧ s.pushed = [10, 20, 30] := ⟨_, rfl, rfl, rfl⟩
  obtain ⟨s, hs, hret, hpush⟩ := hs
  exact ⟨s, hret, hpush, stolen_in_order s (reachable_exec (.init rfl) hs)⟩

end Cothread.WorkStealing
