import Cothread.Timer.ShardView

/-!
# How long the timer thread plans to sleep

One thread `m` runs `TimerThreadMain`, and `ProcessShard` runs only for it. The cached deadline of a shard is at most
the deadline of every timer in it, and while no shard is found expired `min_deadline` is at most the cached deadlines
that the iteration has passed, or one ahead is smaller (`State.Plan`). So the thread does not sleep longer than until
the earliest deadline, in every run without the steps `Oversleeps`. There are such steps: an iteration that has
processed a shard sleeps for the default time, also when `ProcessShard` has left a cached deadline that is near
(`overslept`).
-/

namespace Cothread.Timer

open Run

variable {P E C : Type*}

/-- Only `m` runs `TimerThreadMain`, and only `TimerThreadMain` calls `ProcessShard`. -/
def Label.Served (m : P) : Label P E C → Prop
  | .process _ _ => False
  | .main p => p = m
  | _ => True

instance [DecidableEq P] (m : P) : DecidablePred (Label.Served (E := E) (C := C) m)
  | .process _ _ => inferInstanceAs (Decidable False)
  | .main p => inferInstanceAs (Decidable (p = m))
  | .tick _ | .schedule _ _ _ _ | .cancel _ _ | .acquire _ _ | .thread _ | .wake _ => inferInstanceAs (Decidable True)

/-- `n` shards, the timer thread `m`, and any number of other threads, of entries and of timers. -/
def served (n : ℕ) (m : P) (E C : Type*) [DecidableEq P] [DecidableEq E] : System (State P E C) (Label P E C) :=
  (timers n P E C).restrict (Label.Served m)

/-- The entry carries a timer that is pending and not cancelled. -/
def State.Pending (s : State P E C) (e : E) : Prop := (∃ i, e ∈ (s.shard i).heap) ∧ (s.entry e).cancelled = false

/-- **The sleep of the timer thread ends in time**: not after the deadline of a pending timer, unless that has passed
already when the thread falls asleep, and then at once. -/
def InTime (s : State P E C) : Prop :=
  ∀ p since til, s.pc p = some (.asleep since til) → ∀ e, s.Pending e → til ≤ max since (s.deadline e)

/-- The steps after which the timer thread sleeps too long. -/
inductive Oversleeps (n : ℕ) (s : State P E C) : Label P E C → Prop
  /-- `Schedule` does not wake the thread for an earlier deadline. -/
  | unwoken {p q : P} {e : E} {id i since til : Int} : s.pc p = some (.insert e id i) →
      s.pc q = some (.asleep since til) → s.deadline e < til → Oversleeps n s (.thread p)
  /-- The earliest timer of all comes into a shard that the iteration has passed. -/
  | behind {p q : P} {e : E} {id i j now minDeadline : Int} : s.pc p = some (.insert e id i) →
      s.pc q = some (.mainLoad j now minDeadline) → i < j → now < minDeadline →
      (∀ k : Int, 0 ≤ k → k < n → s.deadline e < (s.shard k).nextDeadline) → Oversleeps n s (.thread p)
  /-- It comes when the iteration has passed all shards. -/
  | after {p q : P} {e : E} {id i now minDeadline : Int} : s.pc p = some (.insert e id i) →
      s.pc q = some (.mainSleep now minDeadline) → now < minDeadline →
      (∀ k : Int, 0 ≤ k → k < n → s.deadline e < (s.shard k).nextDeadline) → Oversleeps n s (.thread p)
  /-- The default sleep after an expired shard, or at the end of time, although a timer is due sooner. -/
  | default {p : P} {e : E} {now minDeadline : Int} : s.pc p = some (.mainSleep now minDeadline) →
      minDeadline ≤ now ∨ minDeadline = INT64_MAX ∧ INT64_MAX < s.clock + 100000 → s.Pending e →
      s.deadline e < s.clock + 100000 → Oversleeps n s (.thread p)
  /-- The clock has gone on since the iteration has read it. -/
  | late {p : P} {e : E} {now minDeadline : Int} : s.pc p = some (.mainSleep now minDeadline) → now < minDeadline →
      minDeadline ≠ INT64_MAX → s.clock ≠ now → s.Pending e →
      (∀ k : Int, 0 ≤ k → k < n → s.deadline e < (s.shard k).nextDeadline + (s.clock - now)) →
      Oversleeps n s (.thread p)

/-! ## The plan -/

/-- The step is one of the timer thread. -/
def Pc.Serves : Pc E C → Prop
  | .process _ _ _ | .mainClock | .mainLoad _ _ _ | .mainReload _ _ _ | .mainSleep _ _ | .asleep _ _ => True
  | _ => False

/-- `min_deadline`, or a cached deadline that the iteration has not passed yet, is at most `a`. -/
def State.Found (s : State P E C) (n : ℕ) (i m a : Int) : Prop :=
  m ≤ a ∨ ∃ j : Int, i ≤ j ∧ j < n ∧ (s.shard j).nextDeadline ≤ a

/-- What `min_deadline` says about the shards, and the planned end of the sleep about the timers. -/
def State.Plan (s : State P E C) (n : ℕ) : Pc E C → Prop
  | .process _ outer _ => ∀ now m, outer = some (now, m) → m ≤ now
  | .mainLoad i now m => now < m → ∀ k : Int, 0 ≤ k → k < n → s.Found n i m (s.shard k).nextDeadline
  | .mainReload _ now m => m ≤ now
  | .mainSleep now m => now < m → ∀ k : Int, 0 ≤ k → k < n → m ≤ (s.shard k).nextDeadline
  | .asleep _ til => ∀ e, s.Pending e → til ≤ s.deadline e
  | _ => True

/-- The shard that a timer goes to is one of the `n`. -/
def Pc.Aims (n : ℕ) : Pc E C → Prop
  | .acquire _ _ | .fill _ _ _ | .assign _ _ => 0 < n
  | .insert _ _ i => 0 ≤ i ∧ i < n
  | _ => True

structure Planned (n : ℕ) (m : P) (s : State P E C) : Prop where
  heaps : ∀ i e, e ∈ (s.shard i).heap → 0 ≤ i ∧ i < n
  aims : ∀ p pc, s.pc p = some pc → pc.Aims n
  serves : ∀ p pc, s.pc p = some pc → pc.Serves → p = m
  plan : ∀ p pc, s.pc p = some pc → s.Plan n pc

variable {n : ℕ} {m : P} {s t : State P E C}

theorem plan_of_not_serves {pc : Pc E C} (hpc : ¬pc.Serves) : s.Plan n pc := by
  cases pc <;> first | trivial | exact absurd trivial hpc

theorem Planned.inTime (h : Planned n m s) : InTime s :=
  fun p _ _ hp e he => (h.plan p _ hp e he).trans (le_max_right _ _)

/-- The shards stay as they are, and no timer in them changes its deadline or gets back from being cancelled. -/
structure Calm (s t : State P E C) : Prop where
  heap : ∀ i, (t.shard i).heap = (s.shard i).heap
  next : ∀ i, (t.shard i).nextDeadline = (s.shard i).nextDeadline
  deadline : ∀ i e, e ∈ (s.shard i).heap → t.deadline e = s.deadline e
  cancelled : ∀ i e, e ∈ (s.shard i).heap → (s.entry e).cancelled = true → (t.entry e).cancelled = true

theorem Calm.of_eq (hshard : t.shard = s.shard) (hentry : t.entry = s.entry) : Calm s t :=
  ⟨fun _ => by rw [hshard], fun _ => by rw [hshard], fun _ _ _ => by rw [State.deadline, hentry, State.deadline],
    fun _ _ _ => by rw [hentry]; exact id⟩

theorem Calm.plan (hc : Calm s t) {pc : Pc E C} (h : s.Plan n pc) : t.Plan n pc := by
  cases pc with
  | mainLoad i now m | mainSleep now m =>
    simp only [State.Plan, State.Found, hc.next]
    exact h
  | asleep since til =>
    rintro e ⟨⟨i, hi⟩, hcancelled⟩
    rw [hc.heap] at hi
    rw [hc.deadline i e hi]
    refine h e ⟨⟨i, hi⟩, Bool.eq_false_iff.mpr fun htrue => ?_⟩
    rw [hc.cancelled i e hi htrue] at hcancelled
    cases hcancelled
  | process | mainReload => exact h
  | _ => trivial

section Step

variable [DecidableEq P] {p : P} {c : Option (Pc E C)}

/-- A step off the shards. -/
theorem Planned.calm (h : Planned n m s) (hc : Calm s t) (hpc : t.pc = Function.update s.pc p c)
    (hnew : ∀ pc, c = some pc → (pc.Serves → p = m) ∧ pc.Aims n ∧ t.Plan n pc) : Planned n m t := by
  refine ⟨fun i e he => h.heaps i e (hc.heap i ▸ he), fun q pc hq => ?_, fun q pc hq hs => ?_, fun q pc hq => ?_⟩
  · obtain ⟨rfl, hq⟩ | ⟨-, hq⟩ := pc_cases hpc hq
    · exact (hnew pc hq).2.1
    · exact h.aims q pc hq
  · obtain ⟨rfl, hq⟩ | ⟨-, hq⟩ := pc_cases hpc hq
    · exact (hnew pc hq).1 hs
    · exact h.serves q pc hq hs
  · obtain ⟨rfl, hq⟩ | ⟨-, hq⟩ := pc_cases hpc hq
    · exact (hnew pc hq).2.2
    · exact hc.plan (h.plan q pc hq)

/-- A step off the shards, of a thread that is not the timer thread. -/
theorem Planned.idle (h : Planned n m s) (hc : Calm s t) (hpc : t.pc = Function.update s.pc p c)
    (hnew : ∀ pc, c = some pc → ¬pc.Serves ∧ pc.Aims n) : Planned n m t :=
  h.calm hc hpc fun pc hpc =>
    ⟨fun hs => absurd hs (hnew pc hpc).1, (hnew pc hpc).2, plan_of_not_serves (hnew pc hpc).1⟩

/-- **A step of the timer thread**, which may change a shard: no other thread has a plan. -/
theorem Planned.serve (h : Planned n m s) {pc : Pc E C} (hp : s.pc p = some pc) (hs : pc.Serves)
    (hheap : ∀ i, (s.shard i).heap = [] → (t.shard i).heap = []) (hpc : t.pc = Function.update s.pc p c)
    (hnew : ∀ pc, c = some pc → pc.Aims n ∧ t.Plan n pc) : Planned n m t := by
  have hpm := h.serves p pc hp hs
  refine ⟨fun i e he => ?_, fun q pc' hq => ?_, fun q pc' hq hs' => ?_, fun q pc' hq => ?_⟩
  · obtain ⟨d, hd⟩ := List.exists_mem_of_ne_nil (s.shard i).heap fun hnil => by
      rw [hheap i hnil] at he
      cases he
    exact h.heaps i d hd
  · obtain ⟨rfl, hq⟩ | ⟨-, hq⟩ := pc_cases hpc hq
    · exact (hnew pc' hq).1
    · exact h.aims q pc' hq
  · obtain ⟨rfl, -⟩ | ⟨-, hq⟩ := pc_cases hpc hq
    · exact hpm
    · exact h.serves q pc' hq hs'
  · obtain ⟨rfl, hq⟩ | ⟨hqp, hq⟩ := pc_cases hpc hq
    · exact (hnew pc' hq).2
    · exact plan_of_not_serves fun hs' => hqp ((h.serves q pc' hq hs').trans hpm.symm)

end Step

/-! ## The steps -/

section Insert

variable {e : E} {i : Int}

theorem next_insert : ((s.insert i e).shard i).nextDeadline = min (s.deadline e) (s.shard i).nextDeadline := by
  rw [State.insert, State.setShard_self, min_def]
  dsimp only
  split_ifs <;> omega

theorem next_insert_of_ne {k : Int} (hk : k ≠ i) :
    ((s.insert i e).shard k).nextDeadline = (s.shard k).nextDeadline := by
  rw [State.insert, State.setShard_of_ne _ _ hk]

theorem next_insert_le (k : Int) : ((s.insert i e).shard k).nextDeadline ≤ (s.shard k).nextDeadline := by
  by_cases hk : k = i
  · subst hk
    rw [next_insert]
    exact min_le_right _ _
  · rw [next_insert_of_ne hk]

/-- The cached deadline is the old one, or that of the new timer. -/
theorem le_next_insert {a k : Int} (hold : a ≤ (s.shard k).nextDeadline) (hnew : k = i → a ≤ s.deadline e) :
    a ≤ ((s.insert i e).shard k).nextDeadline := by
  by_cases hk : k = i
  · subst hk
    rw [next_insert]
    exact le_min (hnew rfl) hold
  · rwa [next_insert_of_ne hk]

theorem State.Found.mono {j m a b : Int} (h : s.Found n j m a) (hab : a ≤ b) : s.Found n j m b :=
  h.imp (fun hm => hm.trans hab) fun ⟨x, hjx, hxn, hx⟩ => ⟨x, hjx, hxn, hx.trans hab⟩

theorem State.Found.insert {j m a : Int} (h : s.Found n j m a) : (s.insert i e).Found n j m a :=
  h.imp_right fun ⟨x, hjx, hxn, hx⟩ => ⟨x, hjx, hxn, (next_insert_le x).trans hx⟩

/-- **The plan stays good** when a timer is inserted, unless that is one of the bad steps. -/
theorem plan_insert [DecidableEq P] {p q : P} {id : Int} {pc : Pc E C} (hp : s.pc p = some (.insert e id i))
    (hq : s.pc q = some pc) (hok : ¬Oversleeps n s (.thread p)) (h : s.Plan n pc) :
    (s.insert i e).Plan n pc := by
  cases pc with
  | mainLoad j now m =>
    intro hm k hk0 hkn
    by_cases hki : k = i
    · subst hki
      rw [next_insert]
      obtain hmin | hmin := min_choice (s.deadline e) (s.shard k).nextDeadline
      · rw [hmin]
        by_cases hjk : j ≤ k
        · exact Or.inr ⟨k, hjk, hkn, by rw [next_insert]; exact min_le_left _ _⟩
        · -- behind the scan: another timer comes first
          by_contra hnot
          refine hok (.behind hp hq (not_le.mp hjk) hm fun x hx0 hxn => ?_)
          exact not_le.mp fun hle => hnot ((h hm x hx0 hxn).mono hle).insert
      · rw [hmin]
        exact (h hm k hk0 hkn).insert
    · rw [next_insert_of_ne hki]
      exact (h hm k hk0 hkn).insert
  | mainSleep now m =>
    intro hm k hk0 hkn
    refine le_next_insert (h hm k hk0 hkn) fun _ => ?_
    by_contra hlt
    refine hok (.after hp hq hm fun x hx0 hxn => ?_)
    exact lt_of_lt_of_le (not_le.mp hlt) (h hm x hx0 hxn)
  | asleep since til =>
    rintro d ⟨⟨x, hx⟩, hcancelled⟩
    by_cases hd : d = e
    · subst hd
      exact not_lt.mp fun hlt => hok (.unwoken hp hq hlt)
    · refine h d ⟨⟨x, ?_⟩, hcancelled⟩
      by_cases hxi : x = i
      · subst hxi
        exact (List.mem_cons.mp (heap_insert_perm.mem_iff.mp hx)).resolve_left hd
      · rwa [heap_insert_of_ne hxi] at hx
  | process | mainReload => exact h
  | _ => trivial

theorem Planned.insert [DecidableEq P] (h : Planned n m s) {p : P} {id : Int} (hp : s.pc p = some (.insert e id i))
    (hok : ¬Oversleeps n s (.thread p)) : Planned n m ((s.insert i e).goto p (some (.ret e id))) := by
  set t := (s.insert i e).goto p (some (.ret e id))
  have hpc : t.pc = Function.update s.pc p (some (.ret e id)) := rfl
  refine ⟨fun k d hd => ?_, fun q pc hq => ?_, fun q pc hq hs => ?_, fun q pc hq => ?_⟩
  · by_cases hk : k = i
    · rw [hk]
      exact h.aims p _ hp
    · have hd : d ∈ ((s.insert i e).shard k).heap := hd
      rw [heap_insert_of_ne hk] at hd
      exact h.heaps k d hd
  · obtain ⟨rfl, ⟨⟩⟩ | ⟨-, hq⟩ := pc_cases hpc hq
    · trivial
    · exact h.aims q pc hq
  · obtain ⟨rfl, ⟨⟩⟩ | ⟨-, hq⟩ := pc_cases hpc hq
    · cases hs
    · exact h.serves q pc hq hs
  · obtain ⟨rfl, ⟨⟩⟩ | ⟨-, hq⟩ := pc_cases hpc hq
    · trivial
    · exact plan_insert hp hq hok (h.plan q pc hq)

end Insert

section Serve

variable [DecidableEq P] [DecidableEq E] {p : P} {i : Int} {outer : Option (Int × Int)} {now : Int}

omit [DecidableEq P] [DecidableEq E] in
theorem heap_lock (b : Bool) (k : Int) :
    ((s.setShard i { s.shard i with locked := b }).shard k).heap = (s.shard k).heap := by
  by_cases hk : k = i
  · subst hk
    rw [State.setShard_self]
  · rw [State.setShard_of_ne _ _ hk]

/-- A turn of `ProcessShard` puts nothing into an empty heap. -/
theorem heap_processLoop {k : Int} (hk : (s.shard k).heap = []) :
    ((s.processLoop p i outer now).shard k).heap = [] := by
  by_cases hki : k = i
  · subst hki
    unfold State.processLoop
    split
    · exact (heap_lock false k).trans hk
    · next hheap =>
      rw [hk] at hheap
      cases hheap
  · obtain ⟨-, sh, hshard, -⟩ := processLoop_cases s p i outer now
    rw [hshard, Function.update_of_ne hki, hk]

theorem Planned.processLoop (h : Planned n m s) (hp : s.pc p = some (.process i outer (.loop now))) :
    Planned n m (s.processLoop p i outer now) := by
  have hplan : ∀ now m, outer = some (now, m) → m ≤ now := h.plan p _ hp
  have hheap : ∀ k, (s.shard k).heap = [] → ((s.processLoop p i outer now).shard k).heap = [] :=
    fun _ hk => heap_processLoop hk
  obtain ⟨-, sh, -, ⟨hpc, -⟩ | ⟨c, hpc, hc⟩⟩ := processLoop_cases s p i outer now
  · refine h.serve hp trivial hheap (hpc.trans (Function.update_eq_self p s.pc).symm) fun pc hpc => ?_
    rw [hp] at hpc
    cases hpc
    exact ⟨trivial, hplan⟩
  · refine h.serve hp trivial hheap hpc ?_
    rintro pc rfl
    obtain hc | ⟨id, callback, ⟨⟩⟩ := hc
    · obtain ⟨o, ho, rfl⟩ := Option.map_eq_some_iff.mp hc.symm
      exact ⟨trivial, hplan o.1 o.2 ho⟩
    · exact ⟨trivial, hplan⟩

theorem Planned.processStep (h : Planned n m s) {pc : ProcessPc C} (hp : s.pc p = some (.process i outer pc))
    (hst : s.processStep p i outer pc = some t) : Planned n m t := by
  have hplan := h.plan p _ hp
  have hgoto : ∀ pc' : ProcessPc C, ∀ pc, some (Pc.process i outer pc') = some pc → pc.Aims n ∧ t.Plan n pc := by
    rintro pc' _ ⟨⟩
    exact ⟨trivial, hplan⟩
  cases pc with
  | clock | call now id callback =>
    cases hst
    exact h.serve hp trivial (fun _ hk => hk) rfl (hgoto _)
  | lock now =>
    simp only [State.processStep, Option.ite_none_left_eq_some, Option.some.injEq] at hst
    obtain ⟨-, rfl⟩ := hst
    exact h.serve hp trivial (fun k hk => (heap_lock true k).trans hk) rfl (hgoto _)
  | loop now =>
    cases hst
    exact h.processLoop hp

/-- One shard of an iteration. -/
theorem Planned.mainLoad (h : Planned n m s) {min : Int} (hp : s.pc p = some (.mainLoad i now min))
    (hst : s.access n p (.mainLoad i now min) = some t) : Planned n m t := by
  have hplan := h.plan p _ hp
  simp only [State.access, Option.some.injEq] at hst
  have hle : (if (s.shard i).nextDeadline < min then (s.shard i).nextDeadline else min) ≤ min ∧
      (if (s.shard i).nextDeadline < min then (s.shard i).nextDeadline else min) ≤ (s.shard i).nextDeadline := by
    split_ifs <;> omega
  generalize (if (s.shard i).nextDeadline < min then (s.shard i).nextDeadline else min) = min' at hle hst
  obtain ⟨hmin, hnext⟩ := hle
  split_ifs at hst with hi hdue
  · subst hst
    refine h.serve hp trivial (fun _ hk => hk) rfl ?_
    rintro _ ⟨⟩
    refine ⟨trivial, ?_⟩
    rintro _ _ ⟨⟩
    exact hnext.trans hdue
  · subst hst
    refine h.serve hp trivial (fun _ hk => hk) rfl ?_
    rintro _ ⟨⟩
    refine ⟨trivial, fun hlt k hk0 hkn => ?_⟩
    obtain hle | ⟨j, hij, hjn, hj⟩ := hplan (hlt.trans_le hmin) k hk0 hkn
    · exact Or.inl (hmin.trans hle)
    · obtain rfl | hne := eq_or_ne j i
      · exact Or.inl (hnext.trans hj)
      · exact Or.inr ⟨j, by omega, hjn, hj⟩
  · subst hst
    refine h.serve hp trivial (fun _ hk => hk) rfl ?_
    rintro _ ⟨⟩
    refine ⟨trivial, fun hlt k hk0 hkn => ?_⟩
    obtain hle | ⟨j, hij, hjn, -⟩ := hplan hlt k hk0 hkn
    · exact hle
    · omega

/-- `Cancel` looks in a shard. -/
theorem Planned.scan (h : Planned n m s) {id : Int} {known : Bool} {i : Int}
    (hst : s.access n p (.scan id known i) = some t) : Planned n m t := by
  rw [State.access] at hst
  split_ifs at hst
  · cases hfind : (s.shard i).heap.find? fun e => (s.entry e).id = id with
    | none =>
      rw [hfind] at hst
      cases hst
      refine h.idle (.of_eq rfl rfl) rfl ?_
      rintro _ ⟨⟩
      exact ⟨not_false, trivial⟩
    | some e =>
      rw [hfind] at hst
      cases hst
      have hmark : ∀ d, (s.mark e).deadline d = s.deadline d ∧
          ((s.entry d).cancelled = true → ((s.mark e).entry d).cancelled = true) := by
        intro d
        by_cases hd : d = e
        · subst hd
          simp [State.mark, State.deadline]
        · simp [State.mark, State.deadline, hd]
      refine h.idle ⟨fun _ => rfl, fun _ => rfl, fun _ d _ => (hmark d).1, fun _ d _ => (hmark d).2⟩ rfl ?_
      rintro _ ⟨⟩
      exact ⟨not_false, trivial⟩
  · cases hst
    refine h.idle (.of_eq rfl rfl) rfl ?_
    rintro _ ⟨⟩
    exact ⟨not_false, trivial⟩

/-- The timer thread goes to sleep. -/
theorem Planned.mainSleep (h : Planned n m s) (hsound : ∀ k, s.ShardSound k) {now min : Int}
    (hp : s.pc p = some (.mainSleep now min)) (hok : ¬Oversleeps n s (.thread p))
    (hst : s.access n p (.mainSleep now min) = some t) : Planned n m t := by
  cases hst
  refine h.serve hp trivial (fun _ hk => hk) rfl ?_
  rintro _ ⟨⟩
  refine ⟨trivial, fun e he => ?_⟩
  show s.clock + sleepUs now min ≤ s.deadline e
  have hplan : now < min → min ≤ s.deadline e := by
    intro hlt
    obtain ⟨⟨i, hi⟩, -⟩ := he
    obtain ⟨hi0, hin⟩ := h.heaps i e hi
    have hmin : ∀ k : Int, 0 ≤ k → k < n → min ≤ (s.shard k).nextDeadline := h.plan p _ hp hlt
    exact (hmin i hi0 hin).trans ((hsound i).cached e hi)
  by_contra hlt
  rw [sleepUs] at hlt
  split_ifs at hlt with hdefault
  · refine hok (.default hp ?_ he (not_le.mp hlt))
    obtain hnow | hmax := hdefault
    · exact Or.inl (sub_nonpos.mp hnow)
    · obtain hnow | hnow := le_or_gt min now
      · exact Or.inl hnow
      · -- all cached deadlines are the greatest time, and the timers are not before them
        have := hplan hnow
        exact Or.inr ⟨hmax, by omega⟩
  · obtain ⟨hnow, hmax⟩ := not_or.mp hdefault
    have hmin := hplan (by omega)
    refine hok (.late hp (by omega) hmax (by omega) he fun k hk0 hkn => ?_)
    have := h.plan p _ hp (by omega) k hk0 hkn
    omega

theorem Planned.access (h : Planned n m s) (hown : s.Owned) (hsound : ∀ k, s.ShardSound k) {pc : Pc E C}
    (hp : s.pc p = some pc) (hok : ¬Oversleeps n s (.thread p)) (hst : s.access n p pc = some t) : Planned n m t := by
  cases pc with
  | acquire callback deadline | asleep since til => cases hst
  | fill e callback deadline =>
    cases hst
    have hother : ∀ i d, d ∈ (s.shard i).heap →
        Function.update s.entry e ⟨callback, deadline, s.nextId, false⟩ d = s.entry d := fun i d hd =>
      Function.update_of_ne (fun hde : d = e => hown.unfilled_fill hp (Or.inl ⟨i, by rwa [← hde]⟩)) _ _
    refine h.idle ⟨fun _ => rfl, fun _ => rfl, fun i d hd => congrArg _ (hother i d hd), fun i d hd hc => ?_⟩
      rfl ?_
    · exact (congrArg _ (hother i d hd)).trans hc
    · rintro _ ⟨⟩
      have hn : 0 < n := h.aims p _ hp
      exact ⟨not_false, hn⟩
  | assign e id =>
    simp only [State.access, Option.ite_none_right_eq_some, Option.some.injEq] at hst
    obtain ⟨hpos, rfl⟩ := hst
    refine h.idle (.of_eq rfl rfl) rfl ?_
    rintro _ ⟨⟩
    have hn : 0 < n := h.aims p _ hp
    exact ⟨not_false, hpos, Int.tmod_lt_of_pos _ (by omega)⟩
  | insert e id i =>
    simp only [State.access, Option.ite_none_left_eq_some, Option.some.injEq] at hst
    obtain ⟨-, rfl⟩ := hst
    exact h.insert hp hok
  | ret e id | cancelled id known r =>
    cases hst
    exact h.idle (.of_eq rfl rfl) rfl (by simp)
  | scan id known i => exact h.scan hst
  | process i outer pc => exact h.processStep hp hst
  | mainClock =>
    cases hst
    refine h.serve hp trivial (fun _ hk => hk) rfl ?_
    rintro _ ⟨⟩
    exact ⟨trivial, fun _ k hk0 hkn => Or.inr ⟨k, hk0, hkn, le_rfl⟩⟩
  | mainReload i now min =>
    cases hst
    refine h.serve hp trivial (fun _ hk => hk) rfl ?_
    rintro _ ⟨⟩
    refine ⟨trivial, fun hlt => ?_⟩
    have hle : min ≤ now := h.plan p _ hp
    split_ifs at hlt <;> omega
  | mainLoad i now min => exact h.mainLoad hp hst
  | mainSleep now min => exact h.mainSleep hsound hp hok hst

theorem Planned.step (h : Planned n m s) (hown : s.Owned) (hsound : ∀ k, s.ShardSound k) {l : Label P E C}
    (hserved : l.Served m) (hok : ¬Oversleeps n s l) (hst : step n s l = some t) : Planned n m t := by
  cases l with
  | tick d =>
    cases hst
    have hc : Calm s { s with clock := s.clock + d } := .of_eq rfl rfl
    exact h.calm hc (Function.update_eq_self m s.pc).symm fun pc hpc =>
      ⟨fun _ => rfl, h.aims m pc hpc, hc.plan (h.plan m pc hpc)⟩
  | schedule p callback sec nsec =>
    simp only [Timer.step, Option.ite_none_right_eq_some, Option.some.injEq] at hst
    obtain ⟨⟨-, hn⟩, rfl⟩ := hst
    refine h.idle (.of_eq rfl rfl) rfl ?_
    rintro _ ⟨⟩
    exact ⟨not_false, hn⟩
  | cancel p id =>
    simp only [Timer.step, Option.ite_none_right_eq_some, Option.some.injEq] at hst
    obtain ⟨-, rfl⟩ := hst
    refine h.idle (.of_eq rfl rfl) rfl ?_
    rintro _ ⟨⟩
    exact ⟨not_false, trivial⟩
  | main p =>
    simp only [Timer.step, Option.ite_none_right_eq_some, Option.some.injEq] at hst
    obtain ⟨-, rfl⟩ := hst
    refine h.calm (.of_eq rfl rfl) rfl ?_
    rintro _ ⟨⟩
    exact ⟨fun _ => hserved, trivial, trivial⟩
  | process p i => cases hserved
  | acquire p e =>
    rw [Timer.step] at hst
    split at hst
    · next callback deadline hp =>
      simp only [Option.ite_none_right_eq_some, Option.some.injEq] at hst
      obtain ⟨-, rfl⟩ := hst
      refine h.idle (.of_eq rfl rfl) rfl ?_
      rintro _ ⟨⟩
      have hn : 0 < n := h.aims p _ hp
      exact ⟨not_false, hn⟩
    · cases hst
  | thread p =>
    obtain ⟨pc, hp, hst⟩ := Option.bind_eq_some_iff.mp hst
    exact h.access hown hsound hp hok hst
  | wake p =>
    rw [Timer.step] at hst
    split at hst
    next since til hp =>
      cases hst
      refine h.serve hp trivial (fun _ hk => hk) rfl ?_
      rintro _ ⟨⟩
      exact ⟨trivial, trivial⟩
    · cases hst

end Serve

variable [DecidableEq P] [DecidableEq E]

/-- **The timer thread does not oversleep** in every run without a step after which it does. -/
theorem sleeps_in_time (hs : Reach (served n m E C) (fun s l => ¬Oversleeps n s l) s) : InTime s := by
  have hplanned : Planned n m s := by
    refine hs.of_restrict.invariant_of (fun s hs => hs.reachable) (fun s h0 => ?_) fun s t l hr h hok hst =>
      h.step (owned_reach hr) (shards_sound hr) hok.1 hok.2 hst
    obtain ⟨clock, entry, rfl⟩ := h0
    exact ⟨nofun, nofun, nofun, nofun⟩
  exact hplanned.inTime

/-- One thread inserts at a time, and `MainLoop` does not sleep behind the deadline. -/
def sleepsShort (s : State Bool Unit Unit) : Label Bool Unit Unit → Bool
  | .thread p => match s.pc p with
    | some (.insert _ _ _) => (s.pc !p).isNone
    | some (.mainSleep now min) => now < min && min != INT64_MAX && s.clock == now &&
      (s.shard 0).nextDeadline ≤ s.deadline ()
    | _ => true
  | _ => true

/-- The thread sleeps until the deadline of the only timer. -/
theorem sleeps_in_time_one : ∃ s : State Bool Unit Unit, s.pc true = some (.asleep 0 50) ∧ s.Pending () ∧
    s.deadline () = 50 ∧ InTime s := by
  have halone : ∀ {s : State Bool Unit Unit} {p q e id i pc}, sleepsShort s (.thread p) = true →
      s.pc p = some (.insert e id i) → s.pc q = some pc → pc = .insert e id i := by
    intro s p q e id i pc h hp hq
    simp only [sleepsShort, hp] at h
    obtain rfl | hne := eq_or_ne q p
    · exact Option.some.inj (hq.symm.trans hp)
    · rw [Bool.eq_not_of_ne hne] at hq
      rw [hq] at h
      cases h
  have himp : ∀ s l, sleepsShort s l = true → ¬Oversleeps 2 s l := by
    rintro s _ h (⟨hp, hq, -⟩ | ⟨hp, hq, -⟩ | ⟨hp, hq, -⟩ | ⟨hp, hdefault, -⟩ | ⟨hp, -, -, -, -, hlate⟩)
    · cases halone h hp hq
    · cases halone h hp hq
    · cases halone h hp hq
    · simp only [sleepsShort, hp, Bool.and_eq_true, decide_eq_true_eq, bne_iff_ne] at h
      omega
    · simp only [sleepsShort, hp, Bool.and_eq_true, decide_eq_true_eq, beq_iff_eq] at h
      have hlt : s.deadline () < _ := hlate 0 le_rfl (by decide)
      omega
  have htime := sleeps_in_time (reach_exec (M := served 2 true Unit Unit) himp
    (.init ⟨0, fun _ => ⟨(), 0, 0, false⟩, rfl⟩)
    (show exec (served 2 true Unit Unit) (.start 0 _) (.schedule false () 0 50000 :: .acquire false () ::
      List.replicate 4 (.thread false) ++ .main true :: List.replicate 5 (.thread true)) = some _ from rfl)
    (by decide +kernel))
  exact ⟨_, rfl, ⟨⟨0, List.mem_singleton.mpr rfl⟩, rfl⟩, rfl, htime⟩

/-- **The second timer is overslept**: the iteration that fires the first one goes on with the deadline of that one as
`min_deadline`, which has expired, and sleeps for 100 ms. The second is due after 1 ms. -/
theorem overslept : ∃ s : State Bool Bool Unit, Reachable (served 1 true Bool Unit) s ∧ ¬InTime s := by
  have hrun : ∃ s, exec (served 1 true Bool Unit) (.start 0 fun _ => ⟨(), 0, 0, false⟩)
      (.schedule false () 0 0 :: .acquire false false :: List.replicate 4 (.thread false) ++
      .schedule false () 0 1000000 :: .acquire false true :: List.replicate 4 (.thread false) ++
      .main true :: List.replicate 11 (.thread true)) = some s ∧ s.pc true = some (.asleep 0 100000) ∧
      (s.shard 0).heap = [true] ∧ s.entry true = ⟨(), 1000, 1, false⟩ := ⟨_, rfl, rfl, rfl, rfl⟩
  obtain ⟨s, hs, hpc, hheap, hentry⟩ := hrun
  refine ⟨s, reachable_exec (.init ⟨0, _, rfl⟩) hs, fun h => ?_⟩
  have hle := h true 0 100000 hpc true ⟨⟨0, hheap ▸ List.mem_singleton.mpr rfl⟩, by rw [hentry]⟩
  rw [State.deadline, hentry] at hle
  exact absurd hle (by decide)

end Cothread.Timer
