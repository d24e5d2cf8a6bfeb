import Cothread.Sync.MutexParked

/-!
# `Mutex`: a free mutex that cannot be taken

`try_lock` exchanges the whole of `state_` from 0, also where the mutex is free but `HAS_WAITERS` is set. The bit is set
by `lock_bthread` and by `await_suspend`, exchanges carry it along, and the only access that clears it, after the second
`try_lock` of `await_suspend`, is never reached: that `try_lock` finds the bit that the access before it has set. So the
bit is set from the first contention on (`Traced`), and from then on `try_lock` fails whenever the mutex is free
(`free_takes_iff`).
-/

namespace Cothread.Mutex

open Run WaiterQueue

universe u

variable {P : Type u} {Q : WaiterQueue P} [DecidableEq P] {kind : P → Kind} {s r t : State Q} {p : P} {a b : Pc Q}
  {c c' : Bool}

/-- `try_lock` of a bthread or a coroutine returns true. -/
def Takes (kind : P → Kind) (s : State Q) (p : P) : Prop :=
  ∃ t, exec (system Q kind) s [.tryLock p, .party p] = some t ∧ t.pc p = .holding

/-- The access marks the mutex as contended: it sets `HAS_WAITERS`. -/
def State.marks (s : State Q) : Pc Q → Bool
  | .casWaiters _ w => s.word = w
  | .setWaiters => true
  | _ => false

/-- The party's next access sets `HAS_WAITERS`. -/
def marks (s : State Q) : Label P → Bool
  | .party p => s.marks (s.pc p)
  | _ => false

/-- Whether `HAS_WAITERS` has been set by a step so far. -/
def noteMarks (s : State Q) (l : Label P) (c : Bool) : Bool := c || marks s l

/-! ## The bit stays -/

/-- `HAS_WAITERS` is set once a step has set it, and nobody is about to clear it. -/
structure Traced (s : State Q) (c : Bool) : Prop where
  bit : s.word.hasWaiters = c
  kept : ∀ p, s.pc p ≠ .clearWaiters
  retry : ∀ p, s.pc p = .retryTry → c = true

/-- A party goes on. -/
theorem Traced.goto (h : Traced s c) (hr : r.pc = s.pc) (hw : r.word.hasWaiters = c') (hc : c = true → c' = true)
    (hb : b ≠ .clearWaiters) (hb' : b = .retryTry → c' = true) : Traced (r.goto p b) c' where
  bit := hw
  kept := forall_goto (C := fun _ x => x ≠ .clearWaiters) hr hb h.kept
  retry := forall_goto (C := fun _ x => x = .retryTry → c' = true) hr hb' fun q hq => hc (h.retry q hq)

/-- An access that leaves `HAS_WAITERS` alone. -/
theorem Traced.move (h : Traced s c) (hr : r.pc = s.pc) (hw : r.word.hasWaiters = s.word.hasWaiters)
    (hb : b ≠ .clearWaiters) (hb' : b ≠ .retryTry) : Traced (r.goto p b) c :=
  h.goto hr (hw.trans h.bit) id hb fun e => absurd e hb'

theorem Traced.moved (h : Traced s c) (hm : Moved s t) : Traced t c := by
  induction hm with
  | refl => exact h
  | goto _ hr _ hw hb ih =>
    apply ih.move hr hw
    · rintro rfl
      cases hb
    · rintro rfl
      cases hb

/-- **What an access does to `HAS_WAITERS`**: it may set it. -/
theorem traced_access {k : Kind} (h : Traced s c) (hpc : s.pc p = a) (hst : s.access k p a = some t) :
    Traced t (c || s.marks a) := by
  have hno : ∀ {t : State Q}, s.marks a = false → Traced t c → Traced t (c || s.marks a) := by
    intro t ha ht
    rw [ha, Bool.or_false]
    exact ht
  cases a with
  | idle | holding | nativeOnly | asleep | suspended | granted => cases hst
  | casWaiters first w =>
    cases hst
    unfold State.cas
    split
    · rename_i he
      have hm : s.marks (.casWaiters first w) = true := decide_eq_true he
      rw [hm, Bool.or_true]
      exact h.goto (r := { s with word := { w with hasWaiters := true } }) rfl rfl (fun _ => rfl) nofun nofun
    · rename_i he
      have hm : s.marks (.casWaiters first w) = false := decide_eq_false he
      exact hno hm (h.move rfl rfl nofun nofun)
  | setWaiters =>
    cases hst
    have hm : s.marks (.setWaiters : Pc Q) = true := rfl
    rw [hm, Bool.or_true]
    exact h.goto (r := { s with word := { s.word with hasWaiters := true } }) rfl rfl (fun _ => rfl) nofun fun _ => rfl
  | clearWaiters => exact absurd hpc (h.kept p)
  | retryTry =>
    cases hst
    -- the bit is set, so the exchange from 0 fails
    have hne : s.word ≠ ⟨false, false⟩ := fun he => by
      have hbit := h.bit.trans (h.retry p hpc)
      rw [he] at hbit
      cases hbit
    refine hno rfl ?_
    unfold State.tryLock State.cas
    rw [if_neg hne]
    exact h.move rfl rfl nofun nofun
  | generation first | loadValue | storeValue v =>
    cases hst
    exact hno rfl (h.move rfl rfl nofun nofun)
  | _ => exact hno rfl (h.moved (moved_access rfl hst))

/-- **Every step** is traced. -/
theorem traced_step {l : Label P} (h : Traced s c) (hst : step kind s l = some t) : Traced t (noteMarks s l c) := by
  cases l with
  | party p => exact traced_access h rfl hst
  | _ =>
    have hm : Moved s t := moved_call (fun _ e => by cases e) hst
    simpa only [noteMarks, marks, Bool.or_false] using h.moved hm

omit [DecidableEq P] in
theorem traced_new : Traced (State.new Q) false where
  bit := rfl
  kept _ h := nomatch h
  retry _ h := nomatch h

/-! ## `try_lock` on a free mutex -/

/-- `try_lock` by a bthread or a coroutine takes the mutex when `state_` is 0. -/
theorem takes_iff (hk : kind p ≠ .pthread) (hp : s.pc p = .idle) : Takes kind s p ↔ s.word = ⟨false, false⟩ := by
  have hstart : tryStart (kind p) = (.tryCas false : Pc Q) := if_neg hk
  have hexec : exec (system Q kind) s [.tryLock p, .party p] =
      some ((s.goto p (.tryCas false)).tryLock p .holding .idle) := by
    have h₁ : step kind s (.tryLock p) = some (s.goto p (.tryCas false)) := by
      rw [step, hp, hstart]
      rfl
    have h₂ : step kind (s.goto p (.tryCas false)) (.party p) =
        some ((s.goto p (.tryCas false)).tryLock p .holding .idle) := by
      rw [step, goto_self]
      rfl
    show (step kind s (.tryLock p)).bind (fun t => (step kind t (.party p)).bind some) = _
    rw [h₁, Option.bind_some, h₂, Option.bind_some]
  rw [Takes, hexec]
  unfold State.tryLock State.cas
  constructor
  · rintro ⟨t, ht, hpt⟩
    cases ht
    split at hpt
    · assumption
    · rw [goto_self] at hpt
      cases hpt
  · intro hw
    rw [if_pos (show (s.goto p (.tryCas false)).word = ⟨false, false⟩ from hw)]
    exact ⟨_, rfl, goto_self⟩

/-- **A free mutex can be taken exactly while it has never been contended**: whatever the run was, with no call in
progress and no owner `try_lock` returns true if and only if no step has set `HAS_WAITERS`. -/
theorem free_takes_iff (kind : P → Kind) (s : State Q) (c : Bool)
    (hs : Reachable ((system Q kind).recording false noteMarks) (s, c)) (hfree : s.word.locked = false)
    (hidle : ∀ p, s.pc p = .idle) (p : P) (hk : kind p ≠ .pthread) : Takes kind s p ↔ c = false := by
  have h : Traced s c := by
    refine hs.invariant (I := fun x => Traced x.1 x.2) ?_ ?_
    · rintro ⟨_, _⟩ ⟨rfl, rfl⟩
      exact traced_new
    · rintro ⟨s, c⟩ t l h - hst
      obtain ⟨t', ht', rfl⟩ := Option.map_eq_some_iff.mp hst
      exact traced_step h ht'
  rw [takes_iff hk (hidle p), ← h.bit]
  cases hw : s.word with
  | mk locked hasWaiters =>
    obtain rfl : locked = false := by rw [hw] at hfree; exact hfree
    simp

/-- A bthread has locked and unlocked the mutex. -/
theorem free_takes_uncontended : ∃ s : State (mpsc Bool), s.word = ⟨false, false⟩ ∧
    Takes (fun _ => .bthread) s true := by
  have hrun : ∃ x : State (mpsc Bool) × Bool, exec ((system (mpsc Bool) fun _ => .bthread).recording false noteMarks)
      (.new (mpsc Bool), false) (.lock false :: List.replicate 2 (.party false) ++ .unlock false ::
        List.replicate 3 (.party false)) = some x ∧ x.1.word = ⟨false, false⟩ ∧ x.2 = false ∧ ∀ p, x.1.pc p = .idle :=
    ⟨_, rfl, rfl, rfl, fun | false => rfl | true => rfl⟩
  obtain ⟨⟨s, c⟩, hs, hw, rfl, hidle⟩ := hrun
  have hreach := reachable_exec (M := (system (mpsc Bool) fun _ => .bthread).recording false noteMarks)
    (s := (.new (mpsc Bool), false)) (.init ⟨rfl, rfl⟩) hs
  exact ⟨s, hw, (free_takes_iff (fun _ => .bthread) s false hreach (by rw [hw]) hidle true nofun).mpr rfl⟩

/-- A bthread waits for another one, and both have unlocked the mutex. -/
def contendedRun : List (Label Bool) :=
  List.flatten [[.lock false], List.replicate 2 (.party false), [.lock true], List.replicate 5 (.party true),
    [.unlock false], List.replicate 9 (.party false), List.replicate 2 (.party true), [.unlock true],
    List.replicate 9 (.party true)]

/-- **A free mutex that cannot be taken**: `LOCKED` is clear, no call is in progress, and `try_lock` returns false. -/
theorem free_not_taken : ∃ s : State (mpsc Bool), Reachable (system (mpsc Bool) fun _ => .bthread) s ∧
    s.word.locked = false ∧ (∀ p, s.pc p = .idle) ∧ ¬Takes (fun _ => .bthread) s false := by
  have hrun : ∃ s, exec (system (mpsc Bool) fun _ => .bthread) (.new (mpsc Bool)) contendedRun = some s ∧
      s.word = ⟨false, true⟩ ∧ ∀ p, s.pc p = .idle := ⟨_, rfl, rfl, fun | false => rfl | true => rfl⟩
  obtain ⟨s, hs, hw, hidle⟩ := hrun
  refine ⟨s, reachable_exec (.init rfl) hs, by rw [hw], hidle, ?_⟩
  have hb : Kind.bthread ≠ .pthread := nofun
  rw [takes_iff hb (hidle false), hw]
  exact fun h => absurd (congrArg Word.hasWaiters h) Bool.false_ne_true.symm

end Cothread.Mutex
