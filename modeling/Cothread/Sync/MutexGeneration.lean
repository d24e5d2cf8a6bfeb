import Cothread.Sync.MutexParked

/-!
# `Mutex`: the generation of its butex

`unlock` advances the generation by a load and a store, `set_value(value() + 1)`. The guard by `pending_wake_` is a
load before the mutex is released and an addition after it, so the next owner can pass it too, and two unlockers can
load the same generation: the second store repeats it, or sets it back (`generation_repeated`). The stored generations
increase in exactly the runs in which no unlocker stores over a generation that another one has stored since its load
(`generations_increase_iff`).
-/

namespace Cothread.Mutex

open Run WaiterQueue

universe u

variable {P : Type u} {Q : WaiterQueue P} [DecidableEq P] {kind : P → Kind} {s r t : State Q} {p : P} {a b : Pc Q}

/-! ## The history of the generation -/

/-- What the unlockers have stored and the waiters have read. -/
structure Bumps (P : Type u) where
  stored : List Int  -- the values that `set_value` has stored, in order
  seen : P → ℕ  -- how many of them there were when the party read the generation that it waits for
  stale : Bool  -- a value was stored after another one had been stored since the load

/-- Before any call. -/
def Bumps.start : Bumps P := ⟨[], fun _ => 0, false⟩

/-- The access is written down. -/
def State.noteBump (s : State Q) (p : P) : Pc Q → Bumps P → Bumps P
  | .storeValue v, h => { h with stored := h.stored ++ [wrap32 (v + 1)], stale := h.stale || s.value ≠ v }
  | .generation _, h => { h with seen := Function.update h.seen p h.stored.length }
  | _, h => h

/-- The step is written down. -/
def noteBump (s : State Q) : Label P → Bumps P → Bumps P
  | .party p, h => s.noteBump p (s.pc p) h
  | _, h => h

/-- **The generation never repeats**: the stored values increase, and a waiter that has read the generation before the
last store does not find it again. -/
structure Increasing (s : State Q) (h : Bumps P) : Prop where
  stored : h.stored.Pairwise (· < ·)
  waiters : ∀ p first g, s.pc p = .wait first g → h.seen p < h.stored.length → s.value ≠ g

/-! ## While no store is stale -/

/-- The generation counts the stores, an unlocker has loaded an earlier one or the current one, and a waiter has read
the one of its time. -/
structure Counted (s : State Q) (h : Bumps P) : Prop where
  stored : h.stored.Pairwise (· < ·)
  le : ∀ v ∈ h.stored, v ≤ s.value
  last : s.value = 0 ∨ s.value ∈ h.stored
  value : s.value = h.stored.length
  loaded : ∀ p v, s.pc p = .storeValue v → 0 ≤ v ∧ v ≤ s.value
  seen : ∀ p first g, s.pc p = .wait first g → g = h.seen p

variable {h : Bumps P}

omit [DecidableEq P] in
theorem Counted.increasing (hc : Counted s h) : Increasing s h where
  stored := hc.stored
  waiters p first g hp hlt hv := by
    rw [hc.value, hc.seen p first g hp] at hv
    omega

/-- A party goes on, and the generation stays. -/
theorem Counted.goto (hc : Counted s h) (hr : r.pc = s.pc) (hv : r.value = s.value)
    (hl : ∀ v, b = .storeValue v → 0 ≤ v ∧ v ≤ s.value) (hs : ∀ first g, b = .wait first g → g = h.seen p) :
    Counted (r.goto p b) h where
  stored := hc.stored
  le := hv ▸ hc.le
  last := hv ▸ hc.last
  value := hv ▸ hc.value
  loaded := by
    show ∀ q v, _ → 0 ≤ v ∧ v ≤ r.value
    rw [hv]
    exact forall_goto (C := fun _ x => ∀ v, x = .storeValue v → 0 ≤ v ∧ v ≤ s.value) hr hl hc.loaded
  seen := forall_goto (C := fun q x => ∀ first g, x = .wait first g → g = h.seen q) hr hs hc.seen

/-- An access that has nothing to do with the generation. -/
theorem Counted.move (hc : Counted s h) (hr : r.pc = s.pc) (hv : r.value = s.value) (hb : ∀ v, b ≠ .storeValue v)
    (hb' : ∀ first g, b ≠ .wait first g) : Counted (r.goto p b) h :=
  hc.goto hr hv (fun v e => absurd e (hb v)) fun first g e => absurd e (hb' first g)

theorem Counted.moved (hc : Counted s h) (hm : Moved s t) : Counted t h := by
  induction hm with
  | refl => exact hc
  | goto _ hr hv _ hb ih =>
    apply ih.move hr hv
    · rintro v rfl
      cases hb
    · rintro first g rfl
      cases hb

theorem Counted.cas {w w' : Word} {d : Pc Q} (hc : Counted s h) (hb : ∀ v, b ≠ .storeValue v)
    (hb' : ∀ first g, b ≠ .wait first g) (hd : ∀ v, d ≠ .storeValue v) (hd' : ∀ first g, d ≠ .wait first g) :
    Counted (s.cas p w w' b d) h := by
  unfold State.cas
  split
  · exact hc.move (r := { s with word := w' }) rfl rfl hb hb'
  · exact hc.move rfl rfl hd hd'

/-- A waiter reads the generation. -/
theorem Counted.read (hc : Counted s h) (first : Bool) :
    Counted (s.goto p (.wait first s.value)) { h with seen := Function.update h.seen p h.stored.length } where
  stored := hc.stored
  le := hc.le
  last := hc.last
  value := hc.value
  loaded := forall_goto (C := fun _ x => ∀ v, x = .storeValue v → 0 ≤ v ∧ v ≤ s.value) rfl nofun hc.loaded
  seen q first' g hq := by
    by_cases hqp : q = p
    · rw [hqp, goto_self] at hq
      cases hq
      simpa [hqp] using hc.value
    · rw [goto_of_ne hqp] at hq
      simpa [Function.update_of_ne hqp] using hc.seen q first' g hq

/-- **A store of the next generation.** -/
theorem Counted.store (hc : Counted s h) (hlt : h.stored.length + 1 < 2 ^ 31) :
    Counted ({ s with value := wrap32 (s.value + 1) }.goto p .wake)
      { h with stored := h.stored ++ [wrap32 (s.value + 1)] } := by
  have hval := hc.value
  have hnext : wrap32 (s.value + 1) = s.value + 1 := wrap32_eq (by omega) (by omega)
  rw [hnext]
  refine ⟨?_, fun v hv => ?_, .inr (List.mem_append_right _ List.mem_cons_self), ?_, ?_,
    forall_goto (C := fun q x => ∀ first g, x = .wait first g → g = h.seen q) rfl nofun hc.seen⟩
  · refine List.pairwise_append.mpr ⟨hc.stored, List.pairwise_singleton _ _, fun v hv w hw => ?_⟩
    obtain rfl := List.mem_singleton.mp hw
    exact Int.lt_add_one_of_le (hc.le v hv)
  · show v ≤ s.value + 1
    rcases List.mem_append.mp hv with hv | hv
    · exact Int.le_of_lt (Int.lt_add_one_of_le (hc.le v hv))
    · exact Int.le_of_eq (List.mem_singleton.mp hv)
  · show s.value + 1 = (h.stored ++ [s.value + 1]).length
    rw [List.length_append, List.length_singleton]
    omega
  · refine forall_goto (C := fun _ x => ∀ v, x = .storeValue v → 0 ≤ v ∧ v ≤ s.value + 1) rfl nofun fun q v hq => ?_
    have := hc.loaded q v hq
    omega

omit [DecidableEq P] in
/-- A stale store does not increase the generation. -/
theorem Counted.not_pairwise (hc : Counted s h) {v : Int} (hp : s.pc p = .storeValue v) (hne : s.value ≠ v)
    (hlt : h.stored.length < 2 ^ 31) : ¬(h.stored ++ [wrap32 (v + 1)]).Pairwise (· < ·) := by
  obtain ⟨h0, hle⟩ := hc.loaded p v hp
  have hval := hc.value
  have hnext : wrap32 (v + 1) = v + 1 := wrap32_eq (by omega) (by omega)
  have hmem : s.value ∈ h.stored := hc.last.resolve_left (by omega)
  intro hpair
  have := (List.pairwise_append.mp hpair).2.2 s.value hmem _ (List.mem_singleton_self _)
  omega

/-- **What an access does to the generation**, while no store was stale. -/
theorem counted_access {k : Kind} (hc : Counted s h) (hstale : h.stale = false) (hpc : s.pc p = a)
    (hst : s.access k p a = some t) (hlt : (s.noteBump p a h).stored.length < 2 ^ 31) :
    (s.noteBump p a h).stale = false ∧ Counted t (s.noteBump p a h) ∨
      (s.noteBump p a h).stale = true ∧ ¬(s.noteBump p a h).stored.Pairwise (· < ·) := by
  cases a with
  | idle | holding | nativeOnly | asleep | suspended | granted => cases hst
  | storeValue v =>
    cases hst
    have hlen : h.stored.length + 1 < 2 ^ 31 := by
      have hl : (h.stored ++ [wrap32 (v + 1)]).length < 2 ^ 31 := hlt
      rwa [List.length_append, List.length_singleton] at hl
    by_cases hv : s.value = v
    · subst hv
      have hnote : s.noteBump p (.storeValue s.value) h = { h with stored := h.stored ++ [wrap32 (s.value + 1)] } := by
        simp [State.noteBump]
      rw [hnote]
      exact .inl ⟨hstale, hc.store hlen⟩
    · refine .inr ⟨?_, hc.not_pairwise hpc hv (by omega)⟩
      simp [State.noteBump, hv]
  | generation first =>
    cases hst
    exact .inl ⟨hstale, hc.read first⟩
  | loadValue =>
    cases hst
    refine .inl ⟨hstale, hc.goto rfl rfl ?_ nofun⟩
    rintro _ ⟨⟩
    have := hc.value
    omega
  | casWaiters first w | retryTry =>
    cases hst
    exact .inl ⟨hstale, hc.cas nofun nofun nofun nofun⟩
  | setWaiters | clearWaiters =>
    cases hst
    exact .inl ⟨hstale, hc.move rfl rfl nofun nofun⟩
  | _ => exact .inl ⟨hstale, hc.moved (moved_access rfl hst)⟩

/-- The access is written down only. -/
theorem stored_mono (h : Bumps P) : h.stored <+: (s.noteBump p a h).stored := by
  unfold State.noteBump
  split
  · exact List.prefix_append _ _
  · exact List.prefix_rfl
  · exact List.prefix_rfl

theorem stale_noteBump (hs : h.stale = true) : (s.noteBump p a h).stale = true := by
  unfold State.noteBump
  split
  · exact congrArg (· || _) hs
  · exact hs
  · exact hs

/-- **Every step**: the generation counts the stores, or a stale store has been made and the stored values do not
increase. -/
theorem counted_step {l : Label P} (hc : h.stale = false ∧ Counted s h ∨ h.stale = true ∧ ¬h.stored.Pairwise (· < ·))
    (hst : step kind s l = some t) (hlt : (noteBump s l h).stored.length < 2 ^ 31) :
    (noteBump s l h).stale = false ∧ Counted t (noteBump s l h) ∨
      (noteBump s l h).stale = true ∧ ¬(noteBump s l h).stored.Pairwise (· < ·) := by
  obtain ⟨hstale, hc⟩ | ⟨hstale, hno⟩ := hc
  · cases l with
    | party p => exact counted_access hc hstale rfl hst hlt
    | _ => exact .inl ⟨hstale, hc.moved (moved_call (fun _ e => by cases e) hst)⟩
  · refine .inr ⟨?_, fun hp => hno ?_⟩
    · cases l <;> first | exact hstale | exact stale_noteBump hstale
    · cases l <;> first | exact hp | exact hp.sublist (stored_mono h).sublist

omit [DecidableEq P] in
theorem counted_new : Counted (State.new Q) Bumps.start where
  stored := .nil
  le _ hv := nomatch hv
  last := .inl rfl
  value := rfl
  loaded _ _ hp := nomatch hp
  seen _ _ _ hp := nomatch hp

/-! ## Runs -/

/-- **The generations increase in exactly the runs without a stale store**: no unlocker has stored over a generation
that another one had stored since its load. -/
theorem generations_increase_iff (kind : P → Kind) (s : State Q) (h : Bumps P)
    (hs : Reachable ((system Q kind).recording .start noteBump) (s, h)) (hlt : h.stored.length < 2 ^ 31) :
    Increasing s h ↔ h.stale = false := by
  have hc : h.stored.length < 2 ^ 31 →
      h.stale = false ∧ Counted s h ∨ h.stale = true ∧ ¬h.stored.Pairwise (· < ·) := by
    refine hs.invariant (I := fun x => x.2.stored.length < 2 ^ 31 →
      x.2.stale = false ∧ Counted x.1 x.2 ∨ x.2.stale = true ∧ ¬x.2.stored.Pairwise (· < ·)) ?_ ?_
    · rintro ⟨_, _⟩ ⟨rfl, rfl⟩ -
      exact .inl ⟨rfl, counted_new⟩
    · rintro ⟨s, h⟩ t l hc - hst hlt
      obtain ⟨t', ht', rfl⟩ := Option.map_eq_some_iff.mp hst
      have hle : h.stored.length ≤ (noteBump s l h).stored.length := by
        cases l <;> first | exact Nat.le_refl _ | exact (stored_mono h).length_le
      exact counted_step (hc (Nat.lt_of_le_of_lt hle hlt)) ht' hlt
  obtain ⟨hstale, hc⟩ | ⟨hstale, hno⟩ := hc hlt
  · exact iff_of_true hc.increasing hstale
  · exact iff_of_false (fun hi => hno hi.stored) (by rw [hstale]; nofun)

/-- Two bthreads, one of which waits for the other; each advances the generation when it unlocks. -/
def advancedRun : List (Label Bool) :=
  List.flatten [[.lock false], List.replicate 2 (.party false), [.lock true], List.replicate 5 (.party true),
    [.unlock false], List.replicate 9 (.party false), List.replicate 2 (.party true), [.unlock true],
    List.replicate 9 (.party true)]

theorem generations_increase_twice : ∃ (s : State (mpsc Bool)) (h : Bumps Bool), h.stored = [1, 2] ∧
    Increasing s h := by
  have hrun : (exec ((system (mpsc Bool) fun _ => .bthread).recording .start noteBump) (.new (mpsc Bool), .start)
      advancedRun).any fun x => x.2.stored = [1, 2] ∧ x.2.stale = false := by decide +kernel
  obtain ⟨⟨s, h⟩, hs, hst, hstale⟩ := of_exec_any hrun
  have hreach := reachable_exec (M := (system (mpsc Bool) fun _ => .bthread).recording .start noteBump)
    (s := (.new (mpsc Bool), .start)) (.init ⟨rfl, rfl⟩) hs
  have hlt : h.stored.length < 2 ^ 31 := by
    rw [show h.stored = [1, 2] from hst]
    decide
  exact ⟨s, h, hst, (generations_increase_iff (fun _ => .bthread) s h hreach hlt).mpr hstale⟩

/-- The second owner passes the guard before the first one has added to `pending_wake_`, and both load generation 0. -/
def repeatedRun : List (Label Bool) :=
  List.flatten [[.lock false], List.replicate 2 (.party false), [.lock true], List.replicate 5 (.party true),
    [.unlock false], List.replicate 3 (.party false), List.replicate 2 (.party true), [.unlock true],
    List.replicate 3 (.party true), List.replicate 3 (.party false), List.replicate 3 (.party true),
    [.party false, .party true]]

/-- **The generation repeats**: both store generation 1. -/
theorem generation_repeated : ∃ (s : State (mpsc Bool)) (h : Bumps Bool),
    Reachable ((system (mpsc Bool) fun _ => .bthread).recording .start noteBump) (s, h) ∧ h.stored = [1, 1] ∧
    ¬Increasing s h := by
  have hrun : (exec ((system (mpsc Bool) fun _ => .bthread).recording .start noteBump) (.new (mpsc Bool), .start)
      repeatedRun).any fun x => x.2.stored = [1, 1] := by decide +kernel
  obtain ⟨⟨s, h⟩, hs, hst⟩ := of_exec_any hrun
  have hreach := reachable_exec (M := (system (mpsc Bool) fun _ => .bthread).recording .start noteBump)
    (s := (.new (mpsc Bool), .start)) (.init ⟨rfl, rfl⟩) hs
  refine ⟨s, h, hreach, hst, fun hi => ?_⟩
  have hpair := hi.stored
  rw [show h.stored = [1, 1] from hst] at hpair
  simp at hpair

end Cothread.Mutex
