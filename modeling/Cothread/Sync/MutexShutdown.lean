import Cothread.Sync.MutexOwner

/-!
# `Mutex::lock` while the scheduler shuts down

Bthreads lock and unlock one mutex, and `Shutdown` stores false to `running_` at any time. `Wait` looks at `running_`
when it is entered and when the bthread is resumed, and returns `ECANCELED` when it is false; `lock_bthread` then
returns, and its caller goes on as if it owned the mutex. While no bthread of `lock` finds `running_` false, every
`lock` returns to a caller that has taken the mutex by its exchange, and an `unlock` clears `LOCKED` for its caller only
(`lock_owns_iff`).
-/

namespace Cothread.Mutex

open Run WaiterQueue

universe u

variable {P : Type u} {Q : WaiterQueue P}

/-! ## Steps -/

/-- The mutex of bthreads, and the scheduler. -/
structure Stopping {P : Type u} (Q : WaiterQueue P) where
  mutex : State Q
  running : Bool  -- `running_`
  entered : P → Bool  -- in `Wait`, and has found `running_` true
  woken : P → Bool  -- resumed in `Wait`, and has not looked at `running_` yet
  owner : P → Bool  -- has taken the mutex by an exchange, or was handed it, and has not released it

inductive StopLabel (P : Type u)
  | shutdown  -- `running_.store(false)`
  | act (l : Label P)
  deriving DecidableEq

namespace Pc

/-- At `Wait`. -/
def waits : Pc Q → Bool
  | wait _ _ => true
  | _ => false

/-- Asleep in `Wait`. -/
def sleeps : Pc Q → Bool
  | asleep => true
  | _ => false

/-- At the load in the loop of `lock_bthread`. -/
def loads : Pc Q → Bool
  | load _ => true
  | _ => false

/-- In `lock_bthread`. -/
def locks : Pc Q → Bool
  | fastLoad | fastCas | loadButex | createButex | load _ | casFree _ _ | casWaiters _ _ | recheck _ | generation _
  | wait _ _ | asleep => true
  | _ => false

/-- At the `fetch_and` of `unlock`. -/
def clears : Pc Q → Bool
  | clearOnly | clear => true
  | _ => false

end Pc

def Stopping.new (Q : WaiterQueue P) : Stopping Q where
  mutex := .new Q
  running := true
  entered _ := false
  woken _ := false
  owner _ := false

variable [DecidableEq P]

/-- Who owns the mutex after an access of `p`: a successful exchange takes it, `fetch_and` releases it, and a `Pop` that
returns a waiter hands it over. -/
def State.owners (s : State Q) (owner : P → Bool) (p : P) : Pc Q → P → Bool
  | .clearOnly | .clear => Function.update owner p false
  | .dequeue pc => match (Q.popStep s.queue pc).2 with
    | .returned (some t) => Function.update (Function.update owner t true) p false
    | _ => owner
  | a => if s.takes a then Function.update owner p true else owner

namespace Stopping

/-- The next access of `p` is a look at `running_`. -/
def looks (s : Stopping Q) (p : P) : Bool := s.woken p || (s.mutex.pc p).waits && !s.entered p

/-- `running_` is true, and `Wait` goes on. -/
def pass (s : Stopping Q) (p : P) : Stopping Q :=
  { s with
    entered := Function.update s.entered p (s.mutex.pc p).waits
    woken := Function.update s.woken p false }

/-- `Wait` returns `ECANCELED`, and `lock` returns. -/
def cancel (s : Stopping Q) (p : P) : Stopping Q :=
  { s with
    mutex := s.mutex.goto p .holding
    entered := Function.update s.entered p false
    woken := Function.update s.woken p false }

/-- A step of the mutex. -/
def act (s : Stopping Q) (l : Label P) : Option (Stopping Q) :=
  (Mutex.step (fun _ => .bthread) s.mutex l).map fun m => { s with
    mutex := m
    entered := fun q => (m.pc q).waits && s.entered q
    woken := fun q => (m.pc q).loads && (s.woken q || (s.mutex.pc q).sleeps)
    owner := match l with
      | .party p => s.mutex.owners s.owner p (s.mutex.pc p)
      | _ => s.owner }

/-- One step. -/
def step (s : Stopping Q) : StopLabel P → Option (Stopping Q)
  | .shutdown => some { s with running := false }
  | .act (.party p) =>
    if s.looks p then some (if s.running then s.pass p else s.cancel p) else s.act (.party p)
  | .act l => s.act l

/-- Any bthreads on one mutex. -/
def system (Q : WaiterQueue P) : System (Stopping Q) (StopLabel P) where
  init s := s = .new Q
  step := step

/-- A bthread in `lock` finds `running_` false. -/
def cancels (s : Stopping Q) : StopLabel P → Bool
  | .act (.party p) => s.looks p && !s.running
  | _ => false

/-- **The step gives and takes ownership as it should**: a `lock` that returns has taken the mutex for its caller, and
an `unlock` that clears `LOCKED` does so while no other party owns the mutex. -/
def Faithful (s : Stopping Q) (l : StopLabel P) : Prop :=
  ∀ t, s.step l = some t →
    (∀ p, (s.mutex.pc p).locks → t.mutex.pc p = .holding → t.owner p) ∧
    ∀ p q, l = .act (.party p) → (s.mutex.pc p).clears → s.owner q → q = p

end Stopping

/-! ## Who owns the mutex -/

/-- The owners are where owners can be. -/
def Owned (s : State Q) (owner : P → Bool) : Prop := ∀ q, owner q = (s.pc q).owns

section Owned

variable {kind : P → Kind} {s r t : State Q} {p : P} {a b : Pc Q} {owner : P → Bool}

/-- A party goes on. -/
theorem Owned.set (h : Owned s owner) (hr : r.pc = s.pc) : Owned (r.goto p b) (Function.update owner p b.owns) := by
  intro q
  by_cases hq : q = p
  · rw [hq, goto_self, Function.update_self]
  · rw [goto_of_ne hq, Function.update_of_ne hq, hr]
    exact h q

/-- A party goes on, and owns the mutex if it did before. -/
theorem Owned.keep (h : Owned s owner) (hr : r.pc = s.pc) (hpc : s.pc p = a) (hb : b.owns = a.owns) :
    Owned (r.goto p b) owner := by
  have hset := h.set (p := p) (b := b) hr
  rwa [hb, ← hpc, ← h p, Function.update_eq_self] at hset

/-- An exchange that sets `LOCKED`. -/
theorem Owned.take {w w' : Word} {d : Pc Q} (h : Owned s owner) (hpc : s.pc p = a) (ha : a.owns = false)
    (hb : b.owns = true) (hd : d.owns = false) (ht : s.takes a = decide (s.word = w)) :
    Owned (s.cas p w w' b d) (if s.takes a then Function.update owner p true else owner) := by
  rw [ht, State.cas]
  by_cases hw : s.word = w
  · rw [if_pos hw, if_pos (decide_eq_true hw), ← hb]
    exact h.set rfl
  · rw [if_neg hw, if_neg (by simpa using hw)]
    exact h.keep rfl hpc (hd.trans ha.symm)

/-- **What an access does to the owners.** -/
theorem owned_access (h : Owned s owner) (hp : Parked s) (hk : a.fits .bthread) (hpc : s.pc p = a)
    (hst : s.access .bthread p a = some t) : Owned t (s.owners owner p a) := by
  cases a with
  | idle | holding | nativeOnly | asleep | suspended | granted => cases hst
  | nativeLock | fetchOr | nativeTry | nativeUnlock => cases hk
  | fastLoad | loadButex | load first | recheck first | loadPending | getButex =>
    cases hst
    refine h.keep rfl hpc ?_
    repeat' split
    all_goals rfl
  | createButex | generation first | setWaiters | clearWaiters | addPending | loadValue | storeValue v | subPending =>
    cases hst
    exact h.keep rfl hpc rfl
  | fastCas | casFree first w | ready | suspendTry | retryTry =>
    cases hst
    exact h.take hpc rfl rfl rfl rfl
  | tryCas retry =>
    cases hst
    refine h.take hpc rfl rfl ?_ rfl
    split <;> rfl
  | casWaiters first w =>
    cases hst
    unfold State.cas
    split <;> exact h.keep rfl hpc rfl
  | wait first g =>
    cases hst
    split <;> exact h.keep rfl hpc rfl
  | enqueue pc =>
    cases hst
    refine h.keep rfl hpc ?_
    split <;> rfl
  | dequeue pc =>
    cases hst
    unfold State.dequeue
    split
    case h_1 m pc' hx =>
      simp only [State.owners, hx]
      exact h.keep rfl hpc rfl
    case h_2 m hx =>
      simp only [State.owners, hx]
      exact h.keep rfl hpc rfl
    case h_3 m x hx =>
      simp only [State.owners, hx]
      have hgiven : Owned ({ s with queue := m }.goto x .granted) (Function.update owner x true) := h.set rfl
      exact hgiven.set rfl
  | submit x =>
    cases hst
    have hgiven := hp.given p x hpc
    have hpx : p ≠ x := by
      rintro rfl
      rw [hpc] at hgiven
      cases hgiven
    have hx : Owned (s.goto x .holding) owner := h.keep rfl hgiven rfl
    exact hx.keep rfl ((goto_of_ne hpx).trans hpc) rfl
  | clearOnly =>
    cases hst
    exact h.set rfl
  | clear =>
    cases hst
    split <;> exact h.set rfl
  | wake =>
    cases hst
    obtain ⟨-, hw⟩ | ⟨q, hq, hw⟩ := hp.wakeFirst_cases
    · rw [hw]
      exact h.keep rfl hpc rfl
    · have hpq : p ≠ q := by
        rintro rfl
        rw [hpc] at hq
        cases hq
      have hrouse : Owned (s.rouse q) owner := h.keep rfl hq rfl
      rw [hw]
      exact hrouse.keep rfl ((rouse_of_ne hpq).trans hpc) rfl

/-- A call that starts and a bthread that is resumed leave the owners alone. -/
theorem owned_call {l : Label P} (h : Owned s owner) (hk : ∀ p, (s.pc p).fits .bthread) (hl : ∀ p, l ≠ .party p)
    (hst : step (fun _ => .bthread) s l = some t) : Owned t owner := by
  obtain ⟨p, b, hpc, rfl, hb⟩ | ⟨p, hpc, rfl⟩ | ⟨p, rfl, -⟩ | ⟨p, hpc, rfl⟩ := step_cases hst
  · obtain ⟨rfl, -⟩ | rfl | ⟨hco, -⟩ := hb
    · exact h.keep rfl hpc rfl
    · exact h.keep rfl hpc rfl
    · cases hco
  · obtain hpc | hpc := hpc
    · exact h.keep rfl hpc rfl
    · have hfits := hk p
      rw [hpc] at hfits
      cases hfits
  · exact absurd rfl (hl p)
  · exact h.keep rfl hpc rfl

end Owned

/-! ## The invariant -/

namespace Stopping

/-- The mutex has one owner at most, and a bthread that has been resumed is in the loop of `lock_bthread`. -/
structure Inv (L : Lawful Q) (s : Stopping Q) : Prop where
  parked : Parked s.mutex
  mutex : Mutex.Inv L (fun _ => .bthread) s.mutex
  owned : Owned s.mutex s.owner
  woken : ∀ p, s.woken p → (s.mutex.pc p).loads

variable {L : Lawful Q} {s t : Stopping Q} {p : P} {l : StopLabel P}

theorem inv_new : (Stopping.new Q).Inv L where
  parked := parked_new
  mutex := Mutex.inv_new L
  owned _ := rfl
  woken _ h := nomatch h

/-- A step of the mutex. -/
theorem Inv.act {l : Label P} (h : s.Inv L) (hst : s.act l = some t) : t.Inv L := by
  obtain ⟨m, hm, rfl⟩ := Option.map_eq_some_iff.mp hst
  have hno : ¬Crossed (fun _ => .bthread) s.mutex l := h.mutex.not_crossed fun _ => nofun
  refine ⟨parked_step h.parked h.mutex.queue.popsSuspended hm, inv_step h.mutex h.parked hno hm, ?_,
    fun q hq => (Bool.and_eq_true_iff.mp hq).1⟩
  cases l with
  | party p => exact owned_access h.owned h.parked (h.mutex.fits p) rfl hm
  | _ => exact owned_call h.owned h.mutex.fits (fun _ e => by cases e) hm

/-- A bthread that looks at `running_` is in `lock`, and does not own the mutex. -/
theorem Inv.looks (h : s.Inv L) (hp : s.looks p) : (s.mutex.pc p).locks ∧ s.owner p = false := by
  rw [h.owned p]
  obtain hw | hw := Bool.or_eq_true_iff.mp hp
  · have hl := h.woken p hw
    cases hpc : s.mutex.pc p <;> rw [hpc] at hl <;> first | exact ⟨rfl, rfl⟩ | cases hl
  · have hl := (Bool.and_eq_true_iff.mp hw).1
    cases hpc : s.mutex.pc p <;> rw [hpc] at hl <;> first | exact ⟨rfl, rfl⟩ | cases hl

/-- **What a step preserves** that cancels no `Wait`. -/
theorem Inv.step (h : s.Inv L) (hok : s.cancels l = false) (hst : s.step l = some t) : t.Inv L := by
  cases l with
  | shutdown =>
    cases hst
    exact ⟨h.parked, h.mutex, h.owned, h.woken⟩
  | act l =>
    cases l with
    | party p =>
      simp only [Stopping.step] at hst
      split at hst
      case isTrue hp =>
        have hrun : s.running = true := by simpa [cancels, hp] using hok
        rw [if_pos hrun] at hst
        cases hst
        refine ⟨h.parked, h.mutex, h.owned, fun q hq => h.woken q ?_⟩
        simp only [pass] at hq
        by_cases hqp : q = p
        · rw [hqp, Function.update_self] at hq
          cases hq
        · rwa [Function.update_of_ne hqp] at hq
      case isFalse => exact h.act hst
    | _ => exact h.act hst

/-- **A step is faithful exactly when it cancels no `Wait`.** -/
theorem Inv.faithful_iff (h : s.Inv L) (hst : s.step l = some t) : s.Faithful l ↔ s.cancels l = false := by
  refine ⟨fun hf => Bool.eq_false_iff.mpr fun hc => ?_, fun hok t' ht' => ?_⟩
  · cases l with
    | shutdown => cases hc
    | act l =>
      cases l with
      | party p =>
        obtain ⟨hp, hrun⟩ := Bool.and_eq_true_iff.mp hc
        have hstep : s.step (.act (.party p)) = some (s.cancel p) := by
          simp only [Stopping.step, if_pos hp]
          rw [if_neg (by simpa using hrun)]
        obtain ⟨hlocks, hown⟩ := h.looks hp
        have hreturns := (hf _ hstep).1 p hlocks goto_self
        rw [show (s.cancel p).owner p = s.owner p from rfl, hown] at hreturns
        cases hreturns
      | _ => cases hc
  · have h' := h.step hok ht'
    refine ⟨fun p _ hp => ?_, fun p q _ hp hq => ?_⟩
    · rw [h'.owned p, hp]
      rfl
    · rw [h.owned q] at hq
      refine h.mutex.unique q p hq ?_
      cases hpc : s.mutex.pc p <;> rw [hpc] at hp <;> first | rfl | cases hp

end Stopping

/-! ## Runs -/

/-- **`lock` never returns without the mutex** in exactly the runs in which no bthread of `lock` finds `running_`
false. -/
theorem lock_owns_iff (s : Stopping (mpsc P)) (h : List (Stopping (mpsc P) × StopLabel P))
    (hs : Reachable (Stopping.system (mpsc P)).traced (s, h)) :
    (∀ x ∈ h, x.1.Faithful x.2) ↔ ∀ x ∈ h, x.1.cancels x.2 = false :=
  traced_iff (I := fun s => s.Inv lawful_mpsc) (fun _ h0 => h0 ▸ Stopping.inv_new)
    (fun _ _ _ hi hok hst => hi.step hok hst) (fun _ _ _ hi hst => hi.faithful_iff hst) hs

/-- A bthread waits and is woken; `running_` becomes false after it has looked, and it takes the mutex and unlocks. -/
def servedRun : List (StopLabel Bool) :=
  List.flatten [[.act (.lock false)], List.replicate 2 (.act (.party false)), [.act (.lock true)],
    List.replicate 9 (.act (.party true)), [.act (.unlock false)], List.replicate 9 (.act (.party false)),
    [.act (.party true), .shutdown], List.replicate 2 (.act (.party true)), [.act (.unlock true)],
    List.replicate 3 (.act (.party true))]

theorem lock_owns_served : ∃ (s : Stopping (mpsc Bool)) (h : List (Stopping (mpsc Bool) × StopLabel Bool)),
    s.running = false ∧ s.mutex.word.locked = false ∧ h.length = 31 ∧ ∀ x ∈ h, x.1.Faithful x.2 := by
  have hrun : (exec (Stopping.system (mpsc Bool)).traced (.new (mpsc Bool), []) servedRun).any fun x =>
      x.1.running = false ∧ x.1.mutex.word.locked = false ∧ x.2.length = 31 ∧
        (x.2.all fun y => y.1.cancels y.2 = false) = true := by decide +kernel
  obtain ⟨⟨s, h⟩, hs, hstop, hfree, hlen, hok⟩ := of_exec_any hrun
  have hreach := reachable_exec (M := (Stopping.system (mpsc Bool)).traced) (s := (.new (mpsc Bool), []))
    (.init ⟨rfl, rfl⟩) hs
  exact ⟨s, h, hstop, hfree, hlen, (lock_owns_iff s h hreach).mpr fun x hx =>
    of_decide_eq_true (List.all_eq_true.mp hok x hx)⟩

/-- A bthread calls `lock` while another one owns the mutex, `running_` becomes false before `Wait` looks at it, and the
bthread unlocks. -/
def cancelledRun : List (StopLabel Bool) :=
  List.flatten [[.act (.lock false)], List.replicate 2 (.act (.party false)), [.act (.lock true)],
    List.replicate 7 (.act (.party true)), [.shutdown, .act (.party true), .act (.unlock true)],
    List.replicate 3 (.act (.party true))]

/-- **The mutex unlocked under its owner**: `lock` has returned to a bthread that does not own the mutex, and its
`unlock` has cleared `LOCKED`. -/
theorem unlocked_under_owner : ∃ (s : Stopping (mpsc Bool)) (h : List (Stopping (mpsc Bool) × StopLabel Bool)),
    Reachable (Stopping.system (mpsc Bool)).traced (s, h) ∧ s.owner false = true ∧ s.mutex.word.locked = false ∧
    ¬∀ x ∈ h, x.1.Faithful x.2 := by
  have hrun : (exec (Stopping.system (mpsc Bool)).traced (.new (mpsc Bool), []) cancelledRun).any fun x =>
      x.1.owner false = true ∧ x.1.mutex.word.locked = false ∧
        (x.2.any fun y => y.2 = .act (.party true) ∧ (y.1.mutex.pc true).clears = true ∧ y.1.owner false = true ∧
          (y.1.step y.2).isSome = true) = true := by decide +kernel
  obtain ⟨⟨s, h⟩, hs, hown, hfree, hbad⟩ := of_exec_any hrun
  obtain ⟨⟨r, l⟩, hmem, hy⟩ := List.any_eq_true.mp hbad
  obtain ⟨rfl, hclears, howner, hsome⟩ := of_decide_eq_true hy
  obtain ⟨t, ht⟩ := Option.isSome_iff_exists.mp hsome
  have hreach := reachable_exec (M := (Stopping.system (mpsc Bool)).traced) (s := (.new (mpsc Bool), []))
    (.init ⟨rfl, rfl⟩) hs
  refine ⟨s, h, hreach, hown, hfree, fun hall => ?_⟩
  cases (hall _ hmem t ht).2 true false rfl hclears howner

end Cothread.Mutex
