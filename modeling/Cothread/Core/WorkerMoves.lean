import Cothread.Core.WorkerView

/-!
# `Worker`: what one step does

`step_cases`: a step picks a task, moves a worker along `Worker::Run`, runs an access of a task's code, starts or
continues a waker (on a worker or on another thread), or runs an access of a timeout callback. As a first use, no wait
is known to a queue, a waker or a timer before it begins (`known_le`).
-/

namespace Cothread.Worker

open Run Places
open Butex (Call WaitPc WakePc TimerPc Loop)

variable {W E T B C : Type*} [DecidableEq W] [DecidableEq E] [DecidableEq T] [DecidableEq B] [DecidableEq C]

section Moves

variable {s s' : State W E T B C}

/-- Only the waker `a` goes on; the memory becomes `m`. -/
structure Agent (s s' : State W E T B C) (a : W ⊕ E) (m : Mem W T B C) (r : Option (WakerPc T B C)) : Prop where
  mem : s'.mem = m
  waker : s'.waker = Function.update s.waker a r
  picked : s'.picked = s.picked
  current : ∀ v, (s'.worker v).current = (s.worker v).current
  code : ∀ v t c', s'.worker v = .exec t c' →
    ∃ c, s.worker v = .exec t c ∧ (c' = c ∨ c.stage = 3 ∧ c'.stage = 3 ∧ ¬c.Asleep ∧ ¬c'.Asleep)

/-- The run queues after a worker has picked `t`: nothing is added. -/
def Picks (m m' : Mem W T B C) (t : T) : Prop :=
  ∃ ready, m' = { m with ready := ready } ∧ ∃ K : Finset (Place W), (∀ p ∉ K, ready p = m.ready p) ∧
    ∀ x, ∑ p ∈ K, (ready p).count x + [t].count x ≤ ∑ p ∈ K, (m.ready p).count x

/-- What a step is. -/
inductive Moved (s : State W E T B C) : Label W E T B C → State W E T B C → Prop
  | pick (l : Label W E T B C) (w : W) (t : T) (m : Mem W T B C) (at_ : s.worker w = .pick) (picks : Picks s.mem m t)
      (old : ∀ v, l ≠ .worker v) : Moved s l (s.goto m w (.setCurrent t))
  | setCurrent (w : W) (t : T) (at_ : s.worker w = .setCurrent t) :
      Moved s (.worker w) (s.goto s.mem w (.setRunning t))
  | setRunning (w : W) (t : T) (at_ : s.worker w = .setRunning t) :
      Moved s (.worker w) (s.goto (s.mem.setState t .running) w (.swapIn t))
  | swapIn (w : W) (t : T) (at_ : s.worker w = .swapIn t) :
      Moved s (.worker w) (s.goto s.mem w (.exec t (s.mem.context t)))
  | swap (w : W) (t : T) (next : TaskPc T B C) (at_ : s.worker w = .exec t (.swap next)) :
      Moved s (.worker w) (s.goto { s.mem with context := Function.update s.mem.context t next } w (.swapped t))
  | swapped (w : W) (t : T) (at_ : s.worker w = .swapped t) : Moved s (.worker w) (s.goto s.mem w (.handle t))
  | handle (w : W) (t : T) (at_ : s.worker w = .handle t) : Moved s (.worker w) (s.goto s.mem w .pick)
  | task (w : W) (t : T) (c c' : TaskPc T B C) (m : Mem W T B C) (at_ : s.worker w = .exec t c)
      (code : ∀ k, c ≠ .wake k) (access : s.mem.taskStep w t c = some (m, c')) :
      Moved s (.worker w) (s.goto m w (.exec t c'))
  | call (w : W) (t : T) (k : Waiting B C) (at_ : s.worker w = .exec t .user) :
      Moved s (.call w k) (s.goto (s.mem.startWaiting t k).1 w (.exec t (s.mem.startWaiting t k).2))
  | start (l : Label W E T B C) (a : W ⊕ E) (k : Waking T B C) (m : Mem W T B C) (s' : State W E T B C)
      (at_ : s.waker a = none) (starts : s.mem.startWaking k = some m) (agent : Agent s s' a m (some k.start)) :
      Moved s l s'
  | waker (l : Label W E T B C) (a : W ⊕ E) (p : Place W) (pc : WakerPc T B C) (s' : State W E T B C)
      (at_ : s.waker a = some pc)
      (agent : Agent s s' a (s.mem.wakerStep p pc).1 (s.mem.wakerStep p pc).2)
      (label : l = a.elim .worker .thread) : Moved s l s'
  | fire (t : T) (n : ℕ) (armed : s.mem.timer t n = some .armed) :
      Moved s (.fire t n) { s with mem := s.mem.setTimer t n .claim }
  | timer (t : T) (n : ℕ) (pc : TimerPc) (m : Mem W T B C) (at_ : s.mem.timer t n = some pc)
      (access : s.mem.timerStep t n pc = some m) : Moved s (.timer t n) { s with mem := m }

theorem pickLast_moved {l : Label W E T B C} {w : W} {m : Mem W T B C} {q : List T} (hw : s.worker w = .pick)
    (hl : ∀ v, l ≠ .worker v) (h : s.pickLast m w q = some s')
    (hp : ∀ t, q.getLast? = some t → Picks s.mem (m.setReady (.batch w) q.dropLast) t) : Moved s l s' := by
  obtain ⟨t, ht, rfl⟩ := Option.map_eq_some_iff.mp h
  exact .pick l w t _ hw (hp t ht) hl

omit [DecidableEq W] [DecidableEq E] in
theorem count_dropLast {q : List T} {t x : T} (h : q.getLast? = some t) :
    q.dropLast.count x + [t].count x = q.count x := by
  rw [← List.count_append, List.dropLast_append_getLast? t h]

/-- A picking worker. -/
theorem pick_cases {l : Label W E T B C} (hl : ∀ v, l ≠ .worker v) {w : W} (h : (l = .pickBatch w ∨ l = .pickLocal w ∨
    (∃ t, l = .pickGlobal w t) ∨ ∃ v, l = .steal w v) ∧ step s l = some s') : Moved s l s' := by
  obtain ⟨rfl | rfl | ⟨t, rfl⟩ | ⟨v, rfl⟩, hst⟩ := h
  · simp only [step] at hst
    split at hst
    · next hw =>
      refine pickLast_moved hw hl hst fun t ht => ⟨_, rfl, {.batch w}, ?_, ?_⟩
      · intro p hp
        exact Function.update_of_ne (by simpa using hp) _ _
      · intro x
        simp [count_dropLast ht]
    · cases hst
  · simp only [step] at hst
    split at hst
    · next hw hb =>
      refine pickLast_moved hw hl hst fun t ht => ⟨_, rfl, {.localQueue w, .batch w}, ?_, ?_⟩
      · intro p hp
        simp only [Finset.mem_insert, Finset.mem_singleton, not_or] at hp
        rw [Function.update_of_ne hp.2]
        exact Function.update_of_ne hp.1 _ _
      · intro x
        rw [Finset.sum_pair (by simp), Finset.sum_pair (by simp)]
        have hc := count_dropLast (x := x) ht
        simp only [popMultiple, List.count_reverse] at hc ⊢
        have htd := congrArg (List.count x) (List.take_append_drop
          ((s.mem.ready (.localQueue w)).length - BATCH_SIZE) (s.mem.ready (.localQueue w)))
        rw [List.count_append] at htd
        simp only [Mem.setReady, Function.update_self,
          Function.update_of_ne (show Place.localQueue w ≠ .batch w by simp),
          hb, List.count_nil, Nat.add_zero]
        omega
    · cases hst
  · simp only [step] at hst
    split at hst
    · next hw =>
      split_ifs at hst with hc
      cases hst
      refine .pick _ w t _ hw ⟨_, rfl, {.global}, ?_, ?_⟩ hl
      · intro p hp
        exact Function.update_of_ne (by simpa using hp) _ _
      · intro x
        have := List.perm_cons_erase hc.2
        have hx := this.count_eq x
        simp [hx, List.count_cons]
    · cases hst
  · simp only [step] at hst
    split at hst
    · next t q hw hq =>
      split_ifs at hst with hc
      cases hst
      refine .pick _ w t _ hw ⟨_, rfl, {.localQueue v}, ?_, ?_⟩ hl
      · intro p hp
        exact Function.update_of_ne (by simpa using hp) _ _
      · intro x
        simp [hq, List.count_cons]
    · cases hst

omit [DecidableEq T] [DecidableEq B] [DecidableEq C] in
/-- A waker on a worker goes on. -/
theorem agent_worker {w : W} {m : Mem W T B C} {pc pc' : WorkerPc T B C} (hw : s.worker w = pc)
    (hp : pc'.picked = pc.picked) (hc : pc'.current = pc.current)
    (hcode : ∀ t c', pc' = .exec t c' → ∃ c, pc = .exec t c ∧ c.stage = 3 ∧ c'.stage = 3 ∧ ¬c.Asleep ∧ ¬c'.Asleep) :
    Agent s (s.goto m w pc') (.inl w) m pc'.waker where
  mem := rfl
  waker := goto_waker
  picked := goto_picked_eq (by rw [hw]; exact hp)
  current v := by
    by_cases hv : v = w
    · subst hv; rw [goto_worker, if_pos rfl, hc, hw]
    · rw [goto_worker, if_neg hv]
  code v t c' h := by
    rw [goto_worker] at h
    split_ifs at h with hv
    · obtain ⟨c, h1, h2⟩ := hcode t c' h
      exact ⟨c, by rw [hv, hw, h1], Or.inr h2⟩
    · exact ⟨c', h, Or.inl rfl⟩

omit [DecidableEq T] [DecidableEq B] [DecidableEq C] in
/-- A waker on a thread goes on. -/
theorem agent_thread {e : E} {m : Mem W T B C} {r : Option (WakerPc T B C)} :
    Agent s { s with mem := m, thread := Function.update s.thread e r } (.inr e) m r where
  mem := rfl
  waker := thread_waker
  picked := rfl
  current _ := rfl
  code _ _ c' h := ⟨c', h, Or.inl rfl⟩

/-- The access of a worker. -/
theorem access_cases {w : W} (h : s.access w (s.worker w) = some s') : Moved s (.worker w) s' := by
  cases hw : s.worker w with
  | pick => rw [hw] at h; cases h
  | setCurrent t => rw [hw] at h; cases h; exact .setCurrent w t hw
  | setRunning t => rw [hw] at h; cases h; exact .setRunning w t hw
  | swapIn t => rw [hw] at h; cases h; exact .swapIn w t hw
  | swapped t => rw [hw] at h; cases h; exact .swapped w t hw
  | handle t => rw [hw] at h; cases h; exact .handle w t hw
  | finishing pc =>
    rw [hw] at h
    cases h
    refine .waker _ (.inl w) (.localQueue w) pc _ (by simp [State.waker, hw, WorkerPc.waker]) ?_ rfl
    cases hr : (s.mem.wakerStep (.localQueue w) pc).2 with
    | none => exact agent_worker hw rfl rfl fun t c' h => by cases h
    | some k => exact agent_worker hw rfl rfl fun t c' h => by cases h
  | exec t c =>
    rw [hw] at h
    have htask : ∀ {m c'}, (∀ k, c ≠ .wake k) → s.mem.taskStep w t c = some (m, c') → s' = s.goto m w (.exec t c') →
        Moved s (.worker w) s' := by
      rintro m c' hc ht rfl
      exact .task w t c c' m hw hc ht
    cases c with
    | swap next => cases h; exact .swap w t next hw
    | wake k =>
      cases h
      refine .waker _ (.inl w) (.localQueue w) k _ (by simp [State.waker, hw, WorkerPc.waker]) ?_ rfl
      cases hr : (s.mem.wakerStep (.localQueue w) k).2 with
      | none => exact agent_worker hw rfl rfl fun u c' h => by cases h; exact ⟨_, rfl, rfl, rfl, id, id⟩
      | some k' => exact agent_worker hw rfl rfl fun u c' h => by cases h; exact ⟨_, rfl, rfl, rfl, id, id⟩
    | _ =>
      simp only [State.access] at h
      obtain ⟨r, hr, rfl⟩ := Option.map_eq_some_iff.mp h
      exact htask (fun k hk => by cases hk) hr rfl

/-- **What a step is.** -/
theorem step_cases {l : Label W E T B C} (h : step s l = some s') : Moved s l s' := by
  cases l with
  | pickBatch w => exact pick_cases (w := w) (fun v hv => by cases hv) ⟨.inl rfl, h⟩
  | pickLocal w => exact pick_cases (w := w) (fun v hv => by cases hv) ⟨.inr (.inl rfl), h⟩
  | pickGlobal w t => exact pick_cases (w := w) (fun v hv => by cases hv) ⟨.inr (.inr (.inl ⟨t, rfl⟩)), h⟩
  | steal w v => exact pick_cases (w := w) (fun v hv => by cases hv) ⟨.inr (.inr (.inr ⟨v, rfl⟩)), h⟩
  | worker w => exact access_cases h
  | call w k =>
    simp only [step] at h
    split at h
    · next t hw =>
      cases h
      exact .call w t k hw
    · cases h
  | wake w k =>
    simp only [step] at h
    split at h
    · next t hw =>
      obtain ⟨m, hm, rfl⟩ := Option.map_eq_some_iff.mp h
      exact .start _ (.inl w) k m _ (by simp [State.waker, hw, WorkerPc.waker]) hm
        (agent_worker hw rfl rfl fun u c' h => by cases h; exact ⟨_, rfl, rfl, rfl, id, id⟩)
    · cases h
  | joined w b v count =>
    simp only [step] at h
    split at h
    · next t hw =>
      split_ifs at h
      cases h
      exact .start _ (.inl w) (.wake b v count) s.mem _ (by simp [State.waker, hw, WorkerPc.waker]) rfl
        (agent_worker hw rfl rfl fun u c' h => by cases h)
    · cases h
  | threadWake e k =>
    simp only [step] at h
    split at h
    · next he =>
      obtain ⟨m, hm, rfl⟩ := Option.map_eq_some_iff.mp h
      exact .start _ (.inr e) k m _ he hm agent_thread
    · cases h
  | thread e =>
    obtain ⟨pc, he, rfl⟩ := Option.map_eq_some_iff.mp h
    exact .waker _ (.inr e) .global pc _ he agent_thread rfl
  | fire t n =>
    simp only [step] at h
    split_ifs at h with ht
    cases h
    exact .fire t n ht
  | timer t n =>
    obtain ⟨m, hm, rfl⟩ := Option.map_eq_some_iff.mp h
    obtain ⟨pc, hpc, ha⟩ := Option.bind_eq_some_iff.mp hm
    exact .timer t n pc m hpc ha

end Moves

/-! ## No wait is known before it begins -/

/-- Nobody knows a wait that has not begun, and tasks are resumed where they have switched away. -/
structure Books (s : State W E T B C) : Prop where
  known : ∀ x, Known s x → x.2 ≤ s.mem.epoch x.1
  context : ∀ t, (s.mem.context t).Saved
  swap : ∀ w t next, s.worker w = .exec t (.swap next) → next.Saved

section Books

variable {s s' : State W E T B C}

/-- After an access of a task's code only its current wait is newly known. -/
theorem coded_knows {m m' : Mem W T B C} {w : W} {t : T} {c c' : TaskPc T B C} {x : T × ℕ} (h : Coded m w t c m' c')
    (hx : m'.Knows x) : m.Knows x ∨ x = (t, m.epoch t) := by
  have hcount : ∀ {q q' : List (T × ℕ)}, (∀ y, q'.count y = q.count y + [(t, m.epoch t)].count y) → x ∈ q' →
      x ∈ q ∨ x = (t, m.epoch t) := by
    intro q q' hq hxq
    have h0 := hq x ▸ List.count_pos_iff.mpr hxq
    by_cases hqx : x ∈ q
    · exact Or.inl hqx
    · rw [List.count_eq_zero.mpr hqx, Nat.zero_add] at h0
      exact Or.inr (List.mem_singleton.mp (List.count_pos_iff.mp h0))
  have hold : m'.queue = m.queue → m'.waiters = m.waiters → m'.timer = m.timer → m.Knows x := by
    intro hq hw ht
    unfold Mem.Knows at hx
    rwa [hq, hw, ht] at hx
  cases h with
  | idle _ hw hq ht => exact Or.inl (hold hq hw ht)
  | push _ _ hw hq ht => exact Or.inl (hold hq hw ht)
  | flush _ hw hq ht => exact Or.inl (hold hq hw ht)
  | arm _ hw hq ht =>
    obtain ⟨b, hb⟩ | ⟨d, hd⟩ | htm := hx
    · exact Or.inl (Or.inl ⟨b, hq ▸ hb⟩)
    · exact Or.inl (Or.inr (Or.inl ⟨d, hw ▸ hd⟩))
    · by_cases hxt : x = (t, m.epoch t)
      · exact Or.inr hxt
      · refine Or.inl (Or.inr (Or.inr ?_))
        rw [ht] at htm
        obtain ⟨u, n⟩ := x
        by_cases hu : u = t
        · subst hu
          have hn : n ≠ m.epoch u := fun he => hxt (by rw [he])
          simpa [Mem.setTimer, hn] using htm
        · simpa [Mem.setTimer, hu] using htm
  | enqueue b q _ hw hq hcq ht =>
    obtain ⟨b', hb⟩ | ⟨d, hd⟩ | htm := hx
    · rw [hq] at hb
      by_cases hbb : b' = b
      · subst hbb
        rw [Function.update_self] at hb
        rcases hcount hcq hb with h1 | h1
        · exact Or.inl (Or.inl ⟨b', h1⟩)
        · exact Or.inr h1
      · rw [Function.update_of_ne hbb] at hb
        exact Or.inl (Or.inl ⟨b', hb⟩)
    · exact Or.inl (Or.inr (Or.inl ⟨d, hw ▸ hd⟩))
    · exact Or.inl (Or.inr (Or.inr (ht ▸ htm)))
  | publish d _ hw hq ht =>
    obtain ⟨b, hb⟩ | ⟨d', hd⟩ | htm := hx
    · exact Or.inl (Or.inl ⟨b, hq ▸ hb⟩)
    · rw [hw] at hd
      by_cases hdd : d' = d
      · subst hdd
        rw [Function.update_self] at hd
        rcases hcount (fun y => List.count_append) hd with h1 | h1
        · exact Or.inl (Or.inr (Or.inl ⟨d', h1⟩))
        · exact Or.inr h1
      · rw [Function.update_of_ne hdd] at hd
        exact Or.inl (Or.inr (Or.inl ⟨d', hd⟩))
    · exact Or.inl (Or.inr (Or.inr (ht ▸ htm)))

/-- A waker learns of waits from the queues. -/
theorem waker_knows (m : Mem W T B C) (p : Place W) (pc : WakerPc T B C) (x : T × ℕ) :
    ((m.wakerStep p pc).1.Knows x → m.Knows x) ∧
      ∀ k, (m.wakerStep p pc).2 = some k → k.Knows x → m.Knows x ∨ pc.Knows x := by
  have hqueue := wakerStep_batch m p pc
  have hwoke := woke m p pc
  have htimer := wakerStep_timer m p pc x.1 x.2
  generalize m.wakerStep p pc = r at hqueue hwoke htimer
  refine ⟨?_, ?_⟩
  · rintro (⟨b, hb⟩ | ⟨d, hd⟩ | htm)
    · rcases hqueue with ⟨hq, _⟩ | ⟨b', q, hq, hsub, _⟩
      · exact Or.inl ⟨b, hq ▸ hb⟩
      · rw [hq] at hb
        by_cases hbb : b = b'
        · subst hbb
          rw [Function.update_self] at hb
          exact Or.inl ⟨b, hsub.subset hb⟩
        · rw [Function.update_of_ne hbb] at hb
          exact Or.inl ⟨b, hb⟩
    · cases hwoke with
      | pop c y q _ hc hw =>
        rw [hw] at hd
        by_cases hdc : d = c
        · subst hdc
          rw [Function.update_self] at hd
          exact Or.inr (Or.inl ⟨d, hc ▸ List.mem_cons_of_mem _ hd⟩)
        · rw [Function.update_of_ne hdc] at hd
          exact Or.inr (Or.inl ⟨d, hd⟩)
      | idle _ hw | find _ _ hw | push _ _ hw => exact Or.inr (Or.inl ⟨d, hw ▸ hd⟩)
    · refine Or.inr (Or.inr ?_)
      rcases htimer with h | h
      · rwa [h] at htm
      · rw [h.1]
        exact fun hn => by cases hn
  · rintro k hk (hb | hp)
    · have hkb : x ∈ r.2.elim [] WakerPc.batch := by rw [hk]; exact hb
      rcases hqueue with ⟨_, hsub⟩ | ⟨b', q, _, _, hcount⟩
      · exact Or.inr (Or.inl (hsub.subset hkb))
      · have h1 := hcount x
        have h2 := List.count_pos_iff.mpr hkb
        by_cases hq : x ∈ m.queue b'
        · exact Or.inl (Or.inl ⟨b', hq⟩)
        · rw [List.count_eq_zero.mpr hq] at h1
          exact Or.inr (Or.inl (List.count_pos_iff.mp (by omega)))
    · have hkp : r.2.bind WakerPc.popped = some x := by rw [hk]; exact hp
      cases hwoke with
      | idle _ _ _ hpop => exact Or.inr (Or.inr (hpop x hkp))
      | pop c y q _ hc _ _ hy =>
        rw [hy] at hkp
        cases hkp
        exact Or.inl (Or.inr (Or.inl ⟨c, hc ▸ List.mem_cons_self⟩))
      | find _ _ _ _ _ _ hnone | push _ _ _ _ _ hnone =>
        rw [hnone] at hkp
        cases hkp

omit [DecidableEq W] [DecidableEq E] [DecidableEq T] [DecidableEq B] [DecidableEq C] in
/-- Nothing becomes known but waits that have begun. -/
theorem Books.of (h : Books s) (he : ∀ t, s.mem.epoch t ≤ s'.mem.epoch t)
    (hm : ∀ x, s'.mem.Knows x → Known s x ∨ x.2 ≤ s'.mem.epoch x.1)
    (hw : ∀ a k x, s'.waker a = some k → k.Knows x → Known s x) (hc : ∀ t, (s'.mem.context t).Saved)
    (hs : ∀ w t next, s'.worker w = .exec t (.swap next) → next.Saved) : Books s' where
  known x := by
    rintro (hx | ⟨a, k, hk, hx⟩)
    · rcases hm x hx with h1 | h1
      · exact (h.known x h1).trans (he x.1)
      · exact h1
    · exact (h.known x (hw a k x hk hx)).trans (he x.1)
  context := hc
  swap := hs

/-- **A task switches away** in a wait, behind an access of its own code, or at its end. -/
theorem taskStep_swap {m m' : Mem W T B C} {w : W} {t : T} {c next : TaskPc T B C}
    (h : m.taskStep w t c = some (m', .swap next)) :
    (∃ b call, next = .wait b call .resumed) ∨ next = .user ∨ c = .exit ∧ next = .exit := by
  cases c with
  | wait b call pc =>
    cases pc with
    | load | setWaiting | recheck | recheckQueued | suspend | resample | takeBack =>
      simp only [Mem.taskStep, Mem.waitStep, Option.some.injEq] at h
      split_ifs at h <;> cases h
      all_goals exact Or.inl ⟨_, _, rfl⟩
    | _ => cases h
  | wake k =>
    simp only [Mem.taskStep, Option.some.injEq, Prod.mk.injEq] at h
    cases hr : (m.wakerStep (.localQueue w) k).2 <;> rw [hr] at h <;> cases h.2
  | loadFlag d autoReset =>
    simp only [Mem.taskStep, Option.some.injEq] at h
    split_ifs at h <;> cases h
  | yield =>
    simp only [Mem.taskStep, Option.some.injEq] at h
    split_ifs at h <;> cases h
  | exit =>
    cases h
    exact Or.inr (Or.inr ⟨rfl, rfl⟩)
  | publish | yieldFlush =>
    cases h
    exact Or.inr (Or.inl rfl)
  | _ => cases h

theorem taskStep_saved {m m' : Mem W T B C} {w : W} {t : T} {c next : TaskPc T B C}
    (h : m.taskStep w t c = some (m', .swap next)) : next.Saved := by
  obtain ⟨b, call, rfl⟩ | rfl | ⟨-, rfl⟩ := taskStep_swap h <;> trivial

omit [DecidableEq T] [DecidableEq B] [DecidableEq C] in
/-- A worker goes on, and what it knows of waits stays the same. -/
theorem Books.goto (h : Books s) {m : Mem W T B C} {w : W} {pc : WorkerPc T B C}
    (he : ∀ t, s.mem.epoch t ≤ m.epoch t) (hm : ∀ x, m.Knows x → s.mem.Knows x ∨ x.2 ≤ m.epoch x.1)
    (hpc : pc.waker = (s.worker w).waker) (hc : ∀ t, (m.context t).Saved)
    (hs : ∀ t next, pc = .exec t (.swap next) → next.Saved) : Books (s.goto m w pc) := by
  refine h.of he (fun x hx => (hm x hx).imp_left Or.inl) ?_ hc ?_
  · intro a k x hk hx
    rw [goto_waker_eq hpc] at hk
    exact Or.inr ⟨a, k, hk, hx⟩
  · intro v t next hv
    rw [goto_worker] at hv
    split_ifs at hv
    · exact hs t next hv
    · exact h.swap v t next hv

omit [DecidableEq T] [DecidableEq B] [DecidableEq C] in
/-- A waker goes on, and learns only of waits that somebody knows. -/
theorem Books.agent (h : Books s) {a : W ⊕ E} {m : Mem W T B C} {r : Option (WakerPc T B C)} (ha : Agent s s' a m r)
    (he : m.epoch = s.mem.epoch) (hc : m.context = s.mem.context) (hm : ∀ x, m.Knows x → s.mem.Knows x)
    (hr : ∀ k x, r = some k → k.Knows x → Known s x) : Books s' := by
  refine h.of ?_ ?_ ?_ ?_ ?_
  · intro t
    rw [ha.mem, he]
  · intro x hx
    rw [ha.mem] at hx
    exact Or.inl (Or.inl (hm x hx))
  · intro b k x hk hx
    rw [ha.waker] at hk
    by_cases hb : b = a
    · subst hb
      rw [Function.update_self] at hk
      exact hr k x hk hx
    · rw [Function.update_of_ne hb] at hk
      exact Or.inr ⟨b, k, hk, hx⟩
  · intro t
    rw [ha.mem, hc]
    exact h.context t
  · intro v t next hv
    obtain ⟨c, hc, rfl | ⟨_, _, _, hnot⟩⟩ := ha.code v t _ hv
    · exact h.swap v t next hc
    · exact absurd trivial hnot

omit [DecidableEq W] [DecidableEq B] [DecidableEq C] in
theorem startWaking_same {m m' : Mem W T B C} {k : Waking T B C} (h : m.startWaking k = some m') :
    m'.epoch = m.epoch ∧ m'.context = m.context ∧ ∀ x, m'.Knows x → m.Knows x := by
  cases k with
  | create t =>
    simp only [Mem.startWaking] at h
    split_ifs at h
    cases h
    exact ⟨rfl, rfl, fun x hx => hx⟩
  | _ => cases h; exact ⟨rfl, rfl, fun x hx => hx⟩

/-- A task's code does not become a waker by itself. -/
theorem taskStep_code {m m' : Mem W T B C} {w : W} {t : T} {c c' : TaskPc T B C}
    (h : m.taskStep w t c = some (m', c')) (hc : ∀ k, c ≠ .wake k) : ∀ k, c' ≠ .wake k := by
  rintro k rfl
  cases c with
  | wake k' => exact hc k' rfl
  | wait b call pc =>
    cases pc <;> simp only [Mem.taskStep, Mem.waitStep, Option.some.injEq] at h <;>
      first | cases h | (split_ifs at h <;> cases h)
  | loadFlag d autoReset =>
    simp only [Mem.taskStep, Option.some.injEq] at h
    split_ifs at h <;> cases h
  | yield =>
    simp only [Mem.taskStep, Option.some.injEq] at h
    split_ifs at h <;> cases h
  | _ => cases h

omit [DecidableEq T] [DecidableEq B] [DecidableEq C] in
theorem exec_waker {t : T} {c : TaskPc T B C} (hc : ∀ k, c ≠ .wake k) : (WorkerPc.exec t c).waker = none := by
  cases c with
  | wake k => exact absurd rfl (hc k)
  | _ => rfl

omit [DecidableEq W] [DecidableEq B] [DecidableEq C] in
/-- A call begins a wait, or is `YieldCurrent` or the end of the task. -/
theorem startWaiting_cases (m : Mem W T B C) (t : T) (k : Waiting B C) :
    ((m.startWaiting t k).1 = m ∧ (m.startWaiting t k).2.stage = 3 ∨
      (m.startWaiting t k).1 = { m with epoch := Function.update m.epoch t (m.epoch t + 1) } ∧
        (m.startWaiting t k).2.stage = 0) ∧
      ¬(m.startWaiting t k).2.Asleep ∧ ∀ k', (m.startWaiting t k).2 ≠ .wake k' := by
  cases k with
  | yield | exit => exact ⟨Or.inl ⟨rfl, rfl⟩, id, fun k' h => by cases h⟩
  | _ => exact ⟨Or.inr ⟨rfl, rfl⟩, id, fun k' h => by cases h⟩

omit [DecidableEq W] [DecidableEq B] [DecidableEq C] in
theorem setTimer_known {m : Mem W T B C} {t : T} {n : ℕ} {pc : TimerPc} {x : T × ℕ} (hn : m.timer t n ≠ none)
    (hx : (m.setTimer t n pc).timer x.1 x.2 ≠ none) : m.timer x.1 x.2 ≠ none := by
  obtain ⟨u, k⟩ := x
  by_cases hu : u = t
  · subst hu
    by_cases hk : k = n
    · subst hk; exact hn
    · simpa [Mem.setTimer, hk] using hx
  · simpa [Mem.setTimer, hu] using hx

theorem books_step {l : Label W E T B C} (hl : Moved s l s') (h : Books s) : Books s' := by
  cases hl with
  | pick _ w t m hw picks =>
    obtain ⟨ready, rfl, _⟩ := picks
    exact h.goto (fun t => le_rfl) (fun x hx => Or.inl hx) (by rw [hw]; rfl) h.context fun t next he => by cases he
  | setCurrent w t hw =>
    exact h.goto (fun t => le_rfl) (fun x hx => Or.inl hx) (by rw [hw]; rfl) h.context fun t next he => by cases he
  | setRunning w t hw =>
    exact h.goto (fun t => le_rfl) (fun x hx => Or.inl hx) (by rw [hw]; rfl) h.context fun t next he => by cases he
  | swapIn w t hw =>
    have hsaved := h.context t
    refine h.goto (fun t => le_rfl) (fun x hx => Or.inl hx) ?_ h.context ?_
    · rw [hw]
      cases hc : s.mem.context t <;> first | rfl | (rw [hc] at hsaved; cases hsaved)
    · intro u next he
      cases hc : s.mem.context t with
      | swap next' => rw [hc] at hsaved; cases hsaved
      | _ => rw [hc] at he; cases he
  | swap w t next hw =>
    refine h.goto (fun t => le_rfl) (fun x hx => Or.inl hx) (by rw [hw]; rfl) ?_ fun t next he => by cases he
    intro u
    show (Function.update s.mem.context t next u).Saved
    by_cases hu : u = t
    · subst hu
      rw [Function.update_self]
      exact h.swap w u next hw
    · rw [Function.update_of_ne hu]
      exact h.context u
  | swapped w t hw | handle w t hw =>
    exact h.goto (fun t => le_rfl) (fun x hx => Or.inl hx) (by rw [hw]; rfl) h.context fun t next he => by cases he
  | task w t c c' m hw hcode hacc =>
    have hsame := taskStep_same hacc
    refine h.goto (fun u => ?_) (fun x hx => ?_) ?_ (fun u => ?_) fun u next he => ?_
    · rw [hsame.epoch]
    · rcases coded_knows (coded hacc hcode) hx with h1 | rfl
      · exact Or.inl h1
      · right
        rw [hsame.epoch]
    · rw [hw, exec_waker (taskStep_code hacc hcode), exec_waker hcode]
    · rw [hsame.context]
      exact h.context u
    · cases he
      exact taskStep_saved hacc
  | call w t k hw =>
    obtain ⟨hm, hasleep, hcode⟩ := startWaiting_cases s.mem t k
    refine h.goto (fun u => ?_) (fun x hx => Or.inl ?_) ?_ (fun u => ?_) fun u next he => ?_
    · rcases hm with ⟨hm, _⟩ | ⟨hm, _⟩
      · rw [hm]
      · rw [hm]
        by_cases hu : u = t <;> simp [hu]
    · rcases hm with ⟨hm, _⟩ | ⟨hm, _⟩ <;> rwa [hm] at hx
    · rw [hw, exec_waker hcode]
      rfl
    · rcases hm with ⟨hm, _⟩ | ⟨hm, _⟩ <;> rw [hm] <;> exact h.context u
    · injection he with _ he
      rw [he] at hasleep
      exact absurd trivial hasleep
  | start _ a k m _ hw hstart agent =>
    obtain ⟨h1, h2, h3⟩ := startWaking_same hstart
    refine h.agent agent h1 h2 h3 fun k' x hk hx => ?_
    cases hk
    cases k <;> rcases hx with hx | hx <;> cases hx
  | waker _ a p pc _ hw agent =>
    have hsame := wakerStep_same (m := s.mem) (p := p) pc
    exact h.agent agent hsame.epoch hsame.context (fun x => (waker_knows s.mem p pc x).1) fun k x hk hx =>
      ((waker_knows s.mem p pc x).2 k hk hx).elim Or.inl fun h1 => Or.inr ⟨a, pc, hw, h1⟩
  | fire t n harm =>
    refine h.of (fun t => le_rfl) (fun x hx => Or.inl (Or.inl ?_)) (fun a k x hk hx => Or.inr ⟨a, k, hk, hx⟩)
      h.context h.swap
    exact hx.imp_right fun hx => hx.imp_right fun hx => setTimer_known (by rw [harm]; simp) hx
  | timer t n pc m hpc hacc =>
    have hsame := timerStep_same hacc
    refine h.of (fun t => hsame.epoch ▸ le_rfl) (fun x hx => Or.inl (Or.inl ?_))
      (fun a k x hk hx => Or.inr ⟨a, k, hk, hx⟩) (fun t => hsame.context ▸ h.context t) h.swap
    have hm : ∀ pc', m.timer = (s.mem.setTimer t n pc').timer → m.waiters = s.mem.waiters → m.queue = s.mem.queue →
        s.mem.Knows x := by
      intro pc' ht hwt hq
      rcases hx with ⟨b, hb⟩ | ⟨d, hd⟩ | htm
      · exact Or.inl ⟨b, hq ▸ hb⟩
      · exact Or.inr (Or.inl ⟨d, hwt ▸ hd⟩)
      · exact Or.inr (Or.inr (setTimer_known (by rw [hpc]; simp) (ht ▸ htm)))
    cases ticked hacc with
    | idle pc' ht _ hwt hq => exact hm pc' ht hwt hq
    | find ht _ hwt hq | push ht _ hwt hq => exact hm _ ht hwt hq

/-- In every run, nobody knows a wait that has not begun. -/
theorem reachable_books {ok : State W E T B C → Label W E T B C → Prop} (hs : Reach (system W E T B C) ok s) :
    Books s := by
  refine hs.invariant (I := Books) ?_ fun s t l h _ hst => books_step (step_cases hst) h
  rintro s ⟨value, flag, rfl⟩
  refine ⟨?_, fun t => trivial, fun w t next h => by cases h⟩
  rintro x ((⟨b, hb⟩ | ⟨d, hd⟩ | htm) | ⟨a, k, hk, _⟩)
  · cases hb
  · cases hd
  · exact absurd rfl htm
  · cases a <;> cases hk

end Books

end Cothread.Worker
