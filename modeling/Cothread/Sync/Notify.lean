import Cothread.Queue.MpscTurns

/-!
# Notifiers of one waiter queue

Any number of calls of `CondVar::notify_one`, `CondVar::notify_all` and `Event::set` pop the tasks that wait and submit
them. A task that waits pushes itself; it waits again only after it has been submitted. All accesses of `Push` and `Pop`
interleave. Each enqueued wait is submitted at most once (`SubmittedOnce`), in every run in which no `Pop` stores
`tail_` or exchanges `head_` after another one has changed what it has read (`Interfered`); two calls of `Pop` that read
the same first item both return it (`submitted_twice`).
-/

namespace Cothread.Notify

open Run Mpsc

/-- The next access of `notify_one`, or of `notify_all` or `set` (`all`), whose loop pops until the queue is empty. -/
inductive NotifyPc (T : Type*)
  | pop (all : Bool) (pc : PopPc T)  -- `waiter_queue_.Pop()`
  | submit (all : Bool) (t : T) (round : ℕ)  -- `Submit(waiter)`, of which of the task's waits
  deriving DecidableEq

structure State (N T : Type*) where
  mem : Mem T
  push : T → Option (PushPc T)
  waiting : T → Bool  -- from the start of the `Push` to the first `Submit`
  round : T → ℕ  -- how often the task has waited
  notifier : N → Option (NotifyPc T)
  submits : T → ℕ → ℕ  -- how often each wait of a task has been passed to `Submit`

inductive Label (N T : Type*)
  | wait (t : T)
  | waiter (t : T)
  | notify (n : N) (all : Bool)
  | notifier (n : N)
  deriving DecidableEq

/-- Nobody has waited yet. -/
def State.start {N T : Type*} : State N T where
  mem := .empty
  push _ := none
  waiting _ := false
  round _ := 0
  notifier _ := none
  submits _ _ := 0

variable {N T : Type*}

section Steps

variable [DecidableEq N] [DecidableEq T]

def State.goto (s : State N T) (n : N) (pc : Option (NotifyPc T)) : State N T :=
  { s with notifier := Function.update s.notifier n pc }

/-- One access of a notifier. -/
def State.notifierStep (s : State N T) (n : N) : NotifyPc T → State N T
  | .pop all pc => match popStep s.mem pc with
    | (m, .running pc') => { s with mem := m }.goto n (some (.pop all pc'))
    | (m, .returned none) => { s with mem := m }.goto n none
    | (m, .returned (some t)) => { s with mem := m }.goto n (some (.submit all t (s.round t)))
  | .submit all t r =>
    { s with
      waiting := Function.update s.waiting t false
      submits := Function.update s.submits t (Function.update (s.submits t) r (s.submits t r + 1)) }.goto n
      (if all then some (.pop all .loadTail) else none)

/-- One step. -/
def step (s : State N T) : Label N T → Option (State N T)
  | .wait t =>
    if s.push t = none ∧ s.waiting t = false then
      some { s with
        push := Function.update s.push t (some (.clear t))
        waiting := Function.update s.waiting t true
        round := Function.update s.round t (s.round t + 1) }
    else none
  | .waiter t => (s.push t).map fun pc =>
    { s with mem := (pushStep s.mem pc).1, push := Function.update s.push t (pushStep s.mem pc).2 }
  | .notify n all => if s.notifier n = none then some (s.goto n (some (.pop all .loadTail))) else none
  | .notifier n => (s.notifier n).map (s.notifierStep n)

end Steps

/-- Any tasks and any notifiers. -/
def system (N T : Type*) [DecidableEq N] [DecidableEq T] : System (State N T) (Label N T) where
  init s := s = .start
  step := step

/-- **At most once**: no wait is passed to `Submit` twice. -/
def SubmittedOnce (s : State N T) : Prop := ∀ t r, s.submits t r ≤ 1

/-- A `Pop` stores `tail_` although `tail_` or the `next` field of its item is not what it has read, or it exchanges
`head_` although `tail_` is not its item any more. -/
def Interfered (s : State N T) : Label N T → Prop
  | .notifier n => (∃ all t x, s.notifier n = some (.pop all (.storeTail t x)) ∧
        ¬(s.mem.tail = some t ∧ s.mem.next t = some x)) ∨
      ∃ all t, s.notifier n = some (.pop all (.claim t)) ∧ s.mem.head = some t ∧ s.mem.tail ≠ some t
  | _ => False

/-! ## The invariant -/

/-- The task that a notifier has taken out of the queue and not submitted yet. -/
def NotifyPc.holds : NotifyPc T → Option T
  | .pop _ pc => pc.taken.head?
  | .submit _ t _ => some t

def State.Holds (s : State N T) (n : N) (t : T) : Prop := ∃ pc, s.notifier n = some pc ∧ pc.holds = some t

/-- A notifier has exchanged `head_` against null, and has not stored `tail_` yet. -/
def State.Claimed (s : State N T) (t : T) : Prop := ∃ n all, s.notifier n = some (.pop all (.storeNull t))

/-- The items of `q` are the waits that are enqueued and that no notifier has taken; a notifier that has taken one is
the only one, and the task's wait has not been submitted. -/
structure Inv (s : State N T) (q : List T) : Prop where
  chained : Chained s.mem s.push s.Claimed q
  held : ∀ n t, s.Holds n t → s.waiting t = true ∧ t ∉ q ∧ s.push t = none
  single : ∀ n n' t, s.Holds n t → s.Holds n' t → n = n'
  current : ∀ n all t r, s.notifier n = some (.submit all t r) → r = s.round t
  queued : ∀ t ∈ q, s.waiting t = true
  pushing : ∀ t, s.push t ≠ none → s.waiting t = true
  once : ∀ t r, s.submits t r ≤ 1
  later : ∀ t r, s.round t < r → s.submits t r = 0
  unsubmitted : ∀ t, s.waiting t = true → s.submits t (s.round t) = 0

section Invariant

variable [DecidableEq N] [DecidableEq T] {s s' : State N T} {q q' : List T} {n : N} {t : T} {m : Mem T}
  {c : Option (NotifyPc T)}

omit [DecidableEq T] in
theorem claimed_goto {u : T} : ({ s with mem := m }.goto n c).Claimed u ↔ (∃ all, c = some (.pop all (.storeNull u))) ∨
    ∃ v all, v ≠ n ∧ s.notifier v = some (.pop all (.storeNull u)) := by
  constructor
  · rintro ⟨v, all, hv⟩
    by_cases hvn : v = n
    · subst hvn
      exact Or.inl ⟨all, by simpa [State.goto] using hv⟩
    · exact Or.inr ⟨v, all, hvn, by simpa [State.goto, hvn] using hv⟩
  · rintro (⟨all, hc⟩ | ⟨v, all, hvn, hv⟩)
    · exact ⟨n, all, by simpa [State.goto] using hc⟩
    · exact ⟨v, all, by simpa [State.goto, hvn] using hv⟩

omit [DecidableEq T] in
/-- Nothing is claimed or given back by the notifier. -/
theorem claimed_keep (hold : ∀ all u, s.notifier n ≠ some (.pop all (.storeNull u)))
    (hnew : ∀ all u, c ≠ some (.pop all (.storeNull u))) (u : T) :
    ({ s with mem := m }.goto n c).Claimed u ↔ s.Claimed u := by
  rw [claimed_goto]
  constructor
  · rintro (⟨all, hc⟩ | ⟨v, all, -, hv⟩)
    · exact absurd hc (hnew all u)
    · exact ⟨v, all, hv⟩
  · rintro ⟨v, all, hv⟩
    refine Or.inr ⟨v, all, ?_, hv⟩
    rintro rfl
    exact hold all u hv

omit [DecidableEq T] in
/-- **An access of a notifier** other than a `Submit`. -/
theorem Inv.notifier (h : Inv s q) (hch : Chained m s.push ({ s with mem := m }.goto n c).Claimed q') (hq : q' ⊆ q)
    (hmine : ∀ pc u, c = some pc → pc.holds = some u →
      s.waiting u = true ∧ u ∉ q' ∧ s.push u = none ∧ ∀ v, v ≠ n → ¬s.Holds v u)
    (hround : ∀ all u r, c = some (.submit all u r) → r = s.round u) : Inv ({ s with mem := m }.goto n c) q' := by
  have hother : ∀ {v u}, v ≠ n → ({ s with mem := m }.goto n c).Holds v u → s.Holds v u := by
    rintro v u hv ⟨pc, hpc, hu⟩
    exact ⟨pc, by simpa [State.goto, hv] using hpc, hu⟩
  have hself : ∀ {u}, ({ s with mem := m }.goto n c).Holds n u → ∃ pc, c = some pc ∧ pc.holds = some u := by
    rintro u ⟨pc, hpc, hu⟩
    exact ⟨pc, by simpa [State.goto] using hpc, hu⟩
  refine ⟨hch, fun v u hu => ?_, fun v w u hv hw => ?_, fun v all u r hv => ?_, fun u hu => h.queued u (hq hu),
    h.pushing, h.once, h.later, h.unsubmitted⟩
  · by_cases hv : v = n
    · subst hv
      obtain ⟨pc, hc, hpu⟩ := hself hu
      obtain ⟨hw, huq, hpush, -⟩ := hmine pc u hc hpu
      exact ⟨hw, huq, hpush⟩
    · obtain ⟨hw, huq, hpush⟩ := h.held v u (hother hv hu)
      exact ⟨hw, fun hm => huq (hq hm), hpush⟩
  · by_cases hvn : v = n <;> by_cases hwn : w = n
    · rw [hvn, hwn]
    · subst hvn
      obtain ⟨pc, hc, hpu⟩ := hself hv
      exact absurd (hother hwn hw) ((hmine pc u hc hpu).2.2.2 w hwn)
    · subst hwn
      obtain ⟨pc, hc, hpu⟩ := hself hw
      exact absurd (hother hvn hv) ((hmine pc u hc hpu).2.2.2 v hvn)
    · exact h.single v w u (hother hvn hv) (hother hwn hw)
  · by_cases hvn : v = n
    · subst hvn
      exact hround all u r (by simpa [State.goto] using hv)
    · exact h.current v all u r (by simpa [State.goto, hvn] using hv)

omit [DecidableEq T] in
/-- A notifier takes an item of the queue. -/
theorem Inv.take (h : Inv s q) {pc : NotifyPc T} (ht : t ∈ q) (hpush : s.push t = none) (hpc : pc.holds = some t)
    (hnot : ∀ all u r, pc ≠ .submit all u r) (hch : Chained m s.push ({ s with mem := m }.goto n (some pc)).Claimed q')
    (hq : q' ⊆ q) (htq : t ∉ q') : Inv ({ s with mem := m }.goto n (some pc)) q' := by
  refine h.notifier hch hq (fun pc' u hc hu => ?_) fun all u r hc => absurd (Option.some.inj hc) (hnot all u r)
  cases hc
  cases hpc.symm.trans hu
  exact ⟨h.queued t ht, htq, hpush, fun v _ hv => (h.held v t hv).2.1 ht⟩

omit [DecidableEq T] in
/-- A notifier goes on with the item that it has taken. -/
theorem Inv.keep (h : Inv s q) {old pc : NotifyPc T} (hn : s.notifier n = some old) (hold : old.holds = some t)
    (hpc : pc.holds = some t) (hround : ∀ all u r, pc = .submit all u r → r = s.round u)
    (hch : Chained m s.push ({ s with mem := m }.goto n (some pc)).Claimed q) :
    Inv ({ s with mem := m }.goto n (some pc)) q := by
  refine h.notifier hch (fun _ hu => hu) (fun pc' u hc hu => ?_) fun all u r hc => hround all u r (Option.some.inj hc)
  cases hc
  cases hpc.symm.trans hu
  have hmine : s.Holds n t := ⟨old, hn, hold⟩
  obtain ⟨hw, htq, hpush⟩ := h.held n t hmine
  exact ⟨hw, htq, hpush, fun v hv hvt => hv (h.single v n t hvt hmine)⟩

omit [DecidableEq T] in
/-- A notifier that holds nothing goes on without having taken anything. -/
theorem Inv.look (h : Inv s q) (hold : ∀ pc, s.notifier n = some pc → pc.holds = none)
    (hnew : ∀ pc, c = some pc → pc.holds = none) : Inv (s.goto n c) q := by
  have hch : Chained s.mem s.push ({ s with mem := s.mem }.goto n c).Claimed q :=
    h.chained.congr (claimed_keep (fun all u hu => by cases hold _ hu) fun all u hu => by cases hnew _ hu)
  refine h.notifier hch (fun _ hu => hu) (fun pc u hc hu => ?_) fun all u r hc => ?_
  · cases (hnew pc hc).symm.trans hu
  · cases hnew _ hc

/-- **An access of `Pop`.** -/
theorem Inv.pop (h : Inv s q) {all : Bool} {pc : PopPc T} (hn : s.notifier n = some (.pop all pc))
    (hok : ¬Interfered s (.notifier n)) : ∃ q', Inv (s.notifierStep n (.pop all pc)) q' := by
  have hkeep : ∀ (m : Mem T) (c : NotifyPc T), (∀ all u, pc ≠ .storeNull u ∧ c ≠ .pop all (.storeNull u)) →
      ∀ u, ({ s with mem := m }.goto n (some c)).Claimed u ↔ s.Claimed u := fun m c hc =>
    claimed_keep (fun all u hu => by
      cases hn.symm.trans hu
      exact (hc all u).1 rfl) fun all u hu => (hc all u).2 (Option.some.inj hu)
  rcases hpop : popStep s.mem pc with ⟨m, r⟩
  simp only [State.notifierStep, hpop]
  obtain ⟨rfl, hnone, hr⟩ | ⟨t, x, rfl, rfl, rfl⟩ | ⟨t, rfl, hh, rfl, rfl⟩ | ⟨t, rfl, rfl, rfl⟩ | ⟨t, rfl, rfl, rfl⟩ :=
    popStep_cases hpop
  · have hold : ∀ c, s.notifier n = some c → c.holds = none := by
      intro c hc
      cases hn.symm.trans hc
      rw [NotifyPc.holds, hnone]
      rfl
    obtain ⟨pc', rfl, hnone'⟩ | rfl := hr
    · refine ⟨q, h.look hold fun c hc => ?_⟩
      cases hc
      rw [NotifyPc.holds, hnone']
      rfl
    · exact ⟨q, h.look hold nofun⟩
  · obtain ⟨ht, hx⟩ : s.mem.tail = some t ∧ s.mem.next t = some x := by
      by_contra hne
      exact hok (Or.inl ⟨all, t, x, hn, hne⟩)
    obtain ⟨htq, hpush, q', hch, htq', hq⟩ := h.chained.popTail ht hx
    exact ⟨q', h.take htq hpush rfl nofun (hch.congr (hkeep _ _ fun _ _ => ⟨nofun, nofun⟩)) hq htq'⟩
  · have ht : s.mem.tail = some t := by
      by_contra hne
      exact hok (Or.inr ⟨all, t, hn, hh, hne⟩)
    obtain ⟨htq, hpush, hch⟩ := h.chained.popClaim hh ht
    refine ⟨[], h.take htq hpush rfl nofun (hch.congr fun u => ?_) (List.nil_subset q) List.not_mem_nil⟩
    rw [claimed_goto]
    refine or_congr ⟨?_, ?_⟩ ⟨?_, ?_⟩
    · rintro ⟨all', hu⟩
      cases hu
      rfl
    · rintro rfl
      exact ⟨all, rfl⟩
    · rintro ⟨v, all', -, hv⟩
      exact ⟨v, all', hv⟩
    · rintro ⟨v, all', hv⟩
      refine ⟨v, all', ?_, hv⟩
      rintro rfl
      cases hn.symm.trans hv
  · refine ⟨q, h.keep hn rfl rfl nofun (h.chained.popNull fun u hu => ?_)⟩
    obtain ⟨all', hc⟩ | ⟨v, all', -, hv⟩ := claimed_goto.mp hu
    · cases hc
    · exact ⟨v, all', hv⟩
  · have hmine : s.Holds n t := ⟨_, hn, rfl⟩
    refine ⟨q, h.keep hn rfl rfl (fun _ _ _ hc => by cases hc; rfl)
      ((h.chained.popClear (h.held n t hmine).2.1).congr (hkeep _ _ fun _ _ => ⟨nofun, nofun⟩))⟩

/-- `Submit(waiter)`. -/
theorem Inv.submit (h : Inv s q) {all : Bool} {r : ℕ} (hn : s.notifier n = some (.submit all t r)) :
    Inv (s.notifierStep n (.submit all t r)) q := by
  have hmine : s.Holds n t := ⟨_, hn, rfl⟩
  obtain ⟨hw, htq, hpush⟩ := h.held n t hmine
  obtain rfl := h.current n all t r hn
  have hzero : s.submits t (s.round t) = 0 := h.unsubmitted t hw
  have hwaiting : ∀ u, u ≠ t → Function.update s.waiting t false u = s.waiting u := fun u hu =>
    Function.update_of_ne hu _ _
  have hsubmits : ∀ u i, Function.update s.submits t (Function.update (s.submits t) (s.round t)
      (s.submits t (s.round t) + 1)) u i = if u = t ∧ i = s.round t then 1 else s.submits u i := by
    intro u i
    by_cases hu : u = t
    · subst hu
      by_cases hi : i = s.round u
      · subst hi
        simp [hzero]
      · simp [hi]
    · simp [hu]
  have hnone : ∀ pc, (if all then some (NotifyPc.pop all (.loadTail : PopPc T)) else none) = some pc →
      pc.holds = none := by
    intro pc hpc
    split_ifs at hpc
    cases hpc
    rfl
  have hl : Inv (s.goto n (if all then some (.pop all .loadTail) else none)) q := by
    have hch : Chained s.mem s.push ({ s with mem := s.mem }.goto n (if all then some (.pop all .loadTail)
        else none)).Claimed q :=
      h.chained.congr (claimed_keep (fun all u hu => by cases hn.symm.trans hu) fun all u hu => by cases hnone _ hu)
    refine h.notifier hch (fun _ hu => hu) (fun pc u hc hu => ?_) fun all u r hc => ?_
    · cases (hnone pc hc).symm.trans hu
    · cases hnone _ hc
  have hfree : ∀ v, ¬(s.goto n (if all then some (.pop all .loadTail) else none)).Holds v t := by
    rintro v ⟨pc, hpc, hu⟩
    by_cases hv : v = n
    · subst hv
      cases (hnone pc (by simpa [State.goto] using hpc)).symm.trans hu
    · exact hv (h.single v n t ⟨pc, by simpa [State.goto, hv] using hpc, hu⟩ hmine)
  refine ⟨hl.chained, fun v u hv => ?_, hl.single, hl.current, fun u hu => ?_, fun u hu => ?_, fun u i => ?_,
    fun u i hi => ?_, fun u hu => ?_⟩
  · obtain ⟨hwu, hrest⟩ := hl.held v u hv
    refine ⟨(hwaiting u ?_).trans hwu, hrest⟩
    rintro rfl
    exact hfree v hv
  · refine (hwaiting u ?_).trans (hl.queued u hu)
    rintro rfl
    exact htq hu
  · refine (hwaiting u ?_).trans (hl.pushing u hu)
    rintro rfl
    exact hu hpush
  · refine (hsubmits u i).trans_le ?_
    split_ifs
    · exact le_rfl
    · exact h.once u i
  · refine (hsubmits u i).trans ?_
    rw [if_neg]
    · exact h.later u i hi
    · rintro ⟨rfl, rfl⟩
      exact Nat.lt_irrefl _ hi
  · have hut : u ≠ t := by
      rintro rfl
      simp [State.notifierStep, State.goto] at hu
    refine (hsubmits u _).trans ?_
    rw [if_neg fun hh => hut hh.1]
    exact h.unsubmitted u ((hwaiting u hut).symm.trans hu)

omit [DecidableEq N] in
/-- A task that is not waiting waits. -/
theorem Inv.wait (h : Inv s q) (hpush : s.push t = none) (hw : s.waiting t = false) :
    Inv { s with
      push := Function.update s.push t (some (.clear t))
      waiting := Function.update s.waiting t true
      round := Function.update s.round t (s.round t + 1) } q := by
  have hout : ∀ {u}, s.waiting u = true → u ≠ t := by
    rintro u hu rfl
    rw [hw] at hu
    cases hu
  have htrue : ∀ {u}, s.waiting u = true → Function.update s.waiting t true u = true := fun hu => by
    rwa [Function.update_of_ne (hout hu)]
  have htq : t ∉ q := fun hm => hout (h.queued t hm) rfl
  have hclaimed : ¬s.Claimed t := by
    rintro ⟨n, all, hn⟩
    exact hout (h.held n t ⟨_, hn, rfl⟩).1 rfl
  refine ⟨h.chained.start hpush htq hclaimed, fun n u hu => ?_, h.single, fun n all u r hn => ?_,
    fun u hu => htrue (h.queued u hu), fun u hu => ?_, h.once, fun u r hr => ?_, fun u hu => ?_⟩
  · obtain ⟨hwu, huq, hpu⟩ := h.held n u hu
    exact ⟨htrue hwu, huq, (Function.update_of_ne (hout hwu) _ _).trans hpu⟩
  · have hu := hout (h.held n u ⟨_, hn, rfl⟩).1
    exact (h.current n all u r hn).trans (Function.update_of_ne hu _ _).symm
  · by_cases hut : u = t
    · subst hut
      exact Function.update_self ..
    · exact htrue (h.pushing u (by simpa [hut] using hu))
  · refine h.later u r ?_
    by_cases hut : u = t
    · subst hut
      have : s.round u + 1 < r := by simpa using hr
      omega
    · simpa [hut] using hr
  · by_cases hut : u = t
    · subst hut
      simpa using h.later u (s.round u + 1) (Nat.lt_succ_self _)
    · simpa [hut] using h.unsubmitted u (by simpa [hut] using hu)

omit [DecidableEq N] in
/-- An access of a `Push`. -/
theorem Inv.waiter (h : Inv s q) {pc : PushPc T} (hp : s.push t = some pc) :
    ∃ q', Inv { s with mem := (pushStep s.mem pc).1, push := Function.update s.push t (pushStep s.mem pc).2 } q' := by
  obtain ⟨q', hch, hq⟩ := h.chained.pushStep hp
  have hwt : s.waiting t = true := h.pushing t (by rw [hp]; nofun)
  refine ⟨q', hch, fun n u hu => ?_, h.single, h.current, fun u hu => ?_, fun u hu => ?_, h.once, h.later,
    h.unsubmitted⟩
  · obtain ⟨hwu, huq, hpu⟩ := h.held n u hu
    have hut : u ≠ t := by
      rintro rfl
      cases hp.symm.trans hpu
    exact ⟨hwu, fun hm => (hq u hm).elim huq hut, (Function.update_of_ne hut _ _).trans hpu⟩
  · obtain hu | rfl := hq u hu
    · exact h.queued u hu
    · exact hwt
  · by_cases hut : u = t
    · exact hut ▸ hwt
    · exact h.pushing u (by simpa [hut] using hu)

/-- **What one step preserves**, unless a `Pop` is interfered with. -/
theorem inv_step {l : Label N T} (h : Inv s q) (hok : ¬Interfered s l) (hst : step s l = some s') :
    ∃ q', Inv s' q' := by
  cases l with
  | wait t =>
    obtain ⟨⟨hpush, hw⟩, hst⟩ := Option.ite_none_right_eq_some.mp hst
    cases hst
    exact ⟨q, h.wait hpush hw⟩
  | waiter t =>
    obtain ⟨pc, hp, rfl⟩ := Option.map_eq_some_iff.mp hst
    exact h.waiter hp
  | notify n all =>
    obtain ⟨hn, hst⟩ := Option.ite_none_right_eq_some.mp hst
    cases hst
    refine ⟨q, h.look (fun pc hpc => ?_) fun pc hpc => ?_⟩
    · cases hn.symm.trans hpc
    · cases hpc
      rfl
  | notifier n =>
    obtain ⟨pc, hn, rfl⟩ := Option.map_eq_some_iff.mp hst
    cases pc with
    | pop all pc => exact h.pop hn hok
    | submit all t r => exact ⟨q, h.submit hn⟩

/-- **Each wait is submitted at most once**, in every run in which no `Pop` is interfered with. -/
theorem submitted_once (hs : Reach (system N T) (fun s l => ¬Interfered s l) s) : SubmittedOnce s := by
  have h : ∃ q, Inv s q := by
    refine hs.invariant (I := fun s => ∃ q, Inv s q) ?_ fun s t l ⟨q, h⟩ hok hst => inv_step h hok hst
    rintro _ rfl
    exact ⟨[], chained_empty.congr fun u => ⟨fun ⟨n, all, hn⟩ => (by cases hn), False.elim⟩,
      fun n t ⟨pc, hpc, _⟩ => (by cases hpc), fun n _ t ⟨pc, hpc, _⟩ => (by cases hpc), nofun, nofun,
      fun _ hp => absurd rfl hp, fun _ _ => Nat.zero_le 1, fun _ _ _ => rfl, nofun⟩
  obtain ⟨q, h⟩ := h
  exact h.once

end Invariant

/-- The nodes that a `Pop` has read are still there. -/
def popsAlone (s : State Bool Bool) : Label Bool Bool → Bool
  | .notifier n => match s.notifier n with
    | some (.pop _ (.storeTail t x)) => s.mem.tail == some t && s.mem.next t == some x
    | some (.pop _ (.claim t)) => s.mem.tail == some t
    | _ => true
  | _ => true

/-- Two bthreads wait; a call of `notify_all` and then one of `notify_one`, whose accesses fall between those of the
first. -/
theorem submitted_once_two : ∃ s : State Bool Bool, s.submits false 1 = 1 ∧ s.submits true 1 = 1 ∧
    SubmittedOnce s := by
  have himp : ∀ s l, popsAlone s l = true → ¬Interfered s l := by
    intro s l h hin
    cases l with
    | notifier n =>
      obtain ⟨all, t, x, hn, hne⟩ | ⟨all, t, hn, -, hne⟩ := hin
      · simp only [popsAlone, hn, Bool.and_eq_true, beq_iff_eq] at h
        exact hne h
      · simp only [popsAlone, hn, beq_iff_eq] at h
        exact hne h
    | _ => exact hin
  exact ⟨_, rfl, rfl, submitted_once (reach_exec (M := system Bool Bool) himp (.init rfl) (show
    exec (system Bool Bool) .start ([.wait false, .wait true] ++ List.replicate 3 (.waiter false) ++
      List.replicate 3 (.waiter true) ++ [.notify true true, .notify false false] ++
      List.replicate 4 (.notifier true) ++ List.replicate 6 (.notifier false) ++ List.replicate 2 (.notifier true)) =
      some _ from rfl) (by decide))⟩

/-- **Submitted twice**: two calls of `notify_one` both read the same first item and its successor, and both return
it. -/
theorem submitted_twice : ∃ s : State Bool Bool, Reachable (system Bool Bool) s ∧ s.round false = 1 ∧
    s.submits false 1 = 2 ∧ ¬SubmittedOnce s := by
  refine ⟨_, reachable_exec (.init rfl) (show exec (system Bool Bool) .start ([.wait false, .wait true] ++
    List.replicate 3 (.waiter false) ++ List.replicate 3 (.waiter true) ++ [.notify true false, .notify false false,
    .notifier true, .notifier true, .notifier false, .notifier false, .notifier true, .notifier false, .notifier true,
    .notifier false, .notifier true, .notifier false]) = some _ from rfl), rfl, rfl, fun h => ?_⟩
  exact absurd (h false 1) (by decide)

end Cothread.Notify
