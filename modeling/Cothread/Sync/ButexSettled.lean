import Cothread.Sync.ButexAnswer

/-!
# `Butex`: a wait that suspends is answered

A `Wait` that has suspended is resumed only if somebody enqueues its task. Whoever takes the task out of the queue looks
at its state, and enqueues it when it finds `SUSPENDED`; a `Wait` that sets its state after the last such look is not
answered (`answered_wrongly`, as in `lost_wakeup`). While no `Wait` does so, and no step goes `Astray`, a suspended task
is in the queue, or with a waker, or with its timer, or it has been enqueued (`Attended`); so every `Wait` is answered
as often as it suspends (`answered_once`).
-/

namespace Cothread.Butex

open Run Places

variable {T W : Type*}

/-- The timer of the task is going to look at its state, or has done so and is answering its wait. -/
def Ticking (s : State T W) (x : T) : Prop :=
  match s.timer x with
  | some .armed | some .claim => s.wakeup x = false
  | some .over | none => False
  | _ => True

/-- A `Wait` is about to suspend the task, with `wake_count` as sampled, and nobody is going to look at its state: it
has been dequeued by a waker that is done with it, and its timer is not going to fire. -/
def Unanswered (s : State T W) : Label T W → Prop
  | .waiter t => ∃ saved, s.wait t = some (.suspend saved) ∧ s.taskState t = .running ∧ s.wakeCount t = saved ∧
      ¬Seen s t ∧ ¬Ticking s t
  | _ => False

/-- The task is in the queue, or a waker or the callback of its timer is not done with it. -/
def Held (s : State T W) (x : T) : Prop :=
  s.queued x ∨ (∃ w, x ∈ s.pending w ∨ x ∈ s.answering w) ∨ ∃ k, s.timer x = some k ∧ k ≠ .over

/-- **A wait is answered as often as it suspends**: its task is enqueued at most once; when it has returned, as often as
it has suspended; and when it is suspended and all that could answer it are done with it, it has been enqueued. -/
structure Answered (s : State T W) (r : Record T) (t : T) : Prop where
  suspends : r.suspends t ≤ 1
  enqueues : r.enqueues t ≤ 1
  returned : ∀ b, s.wait t = some (.returned b) → r.enqueues t = r.suspends t
  settled : s.wait t = some .suspended → ¬Held s t → r.enqueues t = r.suspends t

/-! ## The invariant of one task -/

section Task

variable [DecidableEq T] {s t : State T W} {r r' : Record T} {x y : T} {l : Label T W}

/-- Somebody has found the task `SUSPENDED`, and answers its wait or has done so. -/
def InHand (s : State T W) (r : Record T) (x : T) : Prop := ∃ a, 0 < s.finding x a + s.storing r x a

/-- The wait is answered, or somebody is going to look at the task, which is `SUSPENDED`. -/
def Attended (s : State T W) (r : Record T) (x : T) : Prop :=
  InHand s r x ∨ s.taskState x = .suspended ∧ (Coming s x ∨ Ticking s x)

theorem InHand.of_enqueues (h : 0 < r.enqueues x) : InHand s r x := ⟨.done, by simpa [State.finding, State.storing]⟩

/-- What holds of a task that is about to suspend, or has suspended. -/
def Kept (s : State T W) (r : Record T) (x : T) : WaitPc → Prop
  | .resample saved => (InHand s r x ∨ s.taskState x = .suspended) ∧ (s.wakeCount x = saved → Attended s r x)
  | .swap | .suspended => Attended s r x
  | _ => True

/-- A step that neither answers the wait nor keeps anybody from doing so. -/
structure Steady (s t : State T W) (r r' : Record T) (x : T) : Prop where
  finding : ∀ a, t.finding x a = s.finding x a
  storing : ∀ a, t.storing r' x a = s.storing r x a
  taskState : t.taskState x = s.taskState x
  wakeCount : t.wakeCount x = s.wakeCount x
  coming : Coming s x → Coming t x
  ticking : s.taskState x = .suspended → Ticking s x → Ticking t x

theorem InHand.keep (h : InHand s r x) (hs : Steady s t r r' x) : InHand t r' x := by
  obtain ⟨a, ha⟩ := h
  exact ⟨a, by rw [hs.finding, hs.storing]; exact ha⟩

theorem Attended.keep (h : Attended s r x) (hs : Steady s t r r' x) : Attended t r' x := by
  obtain hin | ⟨hx, hlook⟩ := h
  · exact .inl (hin.keep hs)
  · exact .inr ⟨hs.taskState.trans hx, hlook.imp hs.coming (hs.ticking hx)⟩

theorem Kept.keep {k : WaitPc} (h : Kept s r x k) (hs : Steady s t r r' x) : Kept t r' x k := by
  cases k with
  | resample saved =>
    exact ⟨h.1.imp (fun hin => hin.keep hs) hs.taskState.trans, fun hc => (h.2 (hs.wakeCount.symm.trans hc)).keep hs⟩
  | swap | suspended => exact Attended.keep h hs
  | _ => trivial

theorem InHand.kept (h : InHand s r x) (k : WaitPc) : Kept s r x k := by
  cases k with
  | resample saved => exact ⟨.inl h, fun _ => .inl h⟩
  | swap | suspended => exact .inl h
  | _ => trivial

/-! ## The task itself -/

/-- **An access of the task itself**: `Unanswered` is the one case in which it suspends with nobody to look at it. -/
theorem waitStep_kept {c : Call} {pc pc' : WaitPc} (hpc : s.wait x = some pc) (h : Kept s r x pc)
    (hok : ¬Astray s (.waiter x)) (hun : ¬Unanswered s (.waiter x)) (hst : s.waitStep c x pc = some t)
    (hpc' : t.wait x = some pc') : Kept t (s.note (.waiter x) r) x pc' := by
  have hgoto : ∀ (u : State T W) (k : WaitPc), t = u.goto x k → pc' = k := by
    rintro u k rfl
    simpa [State.goto] using hpc'.symm
  cases pc with
  | suspended | returned b => cases hst
  | suspend saved =>
    cases hst
    split at hpc'
    · next hr =>
      obtain rfl := hgoto _ _ (if_pos hr)
      rw [if_pos hr]
      have hstate : ((s.setState x .suspended).goto x (.resample saved)).taskState x = .suspended := by
        simp [State.goto, State.setState]
      refine ⟨.inr hstate, fun hcount => .inr ⟨hstate, ?_⟩⟩
      by_contra hno
      rw [not_or] at hno
      exact hun ⟨saved, hpc, hr, hcount, fun hseen => hno.1 (.inl hseen), hno.2⟩
    · next hr =>
      obtain rfl := hgoto _ _ (if_neg hr)
      trivial
  | resample saved =>
    cases hst
    have hcount : s.wakeCount x = saved := by_contra fun hne => hok ⟨saved, hpc, hne⟩
    obtain rfl := hgoto _ _ (by rw [if_pos hcount])
    rw [note_waiter hpc (by simp) (by simp)]
    exact (h.2 hcount).keep ⟨fun _ => rfl, fun _ => rfl, rfl, rfl, id, fun _ => id⟩
  | swap =>
    cases hst
    obtain rfl := hgoto _ _ rfl
    refine Attended.keep h ⟨fun _ => rfl, fun a => ?_, rfl, rfl, id, fun _ => id⟩
    cases a with
    | done => simp [State.storing, State.note, State.enqueues, hpc, bump]
    | _ => rfl
  | load | recheck | recheckQueued =>
    cases hst
    obtain rfl := hgoto _ _ rfl
    (repeat' split) <;> trivial
  | setWaiting | takeBack =>
    cases hst
    split at hpc' <;> simp [State.goto] at hpc' <;> subst hpc' <;> trivial
  | _ =>
    cases hst
    obtain rfl := hgoto _ _ rfl
    trivial

/-! ## The callback of the task's timer -/

variable [DecidableEq W]

omit [DecidableEq W] in
/-- The callback has found the task `SUSPENDED`. -/
theorem InHand.setTimer {k : TimerPc} (hk : 0 < k.finding + k.storing) : InHand (s.setTimer x k) r x :=
  ⟨.timer, by simpa [State.finding, State.storing, State.setTimer] using hk⟩

/-- The callback goes on, and has not found the task `SUSPENDED`. -/
theorem steady_setTimer {k k' : TimerPc} (hk : s.timer x = some k) {u : State T W}
    (hu : ∀ a, u.finding x a = s.finding x a ∧ u.storing r x a = s.storing r x a) (hf : k'.finding = k.finding)
    (hs : k'.storing = k.storing) (hstate : u.taskState x = s.taskState x) (hcount : u.wakeCount x = s.wakeCount x)
    (hcoming : Coming s x → Coming u x)
    (hticking : s.taskState x = .suspended → Ticking s x → Ticking (u.setTimer x k') x) :
    Steady s (u.setTimer x k') r r x where
  finding a := (places_setTimer hk hu hf hs a).1
  storing a := (places_setTimer hk hu hf hs a).2
  taskState := hstate
  wakeCount := hcount
  coming := hcoming
  ticking := hticking

/-- **An access of the callback**, which looks at a task that is still `SUSPENDED`. -/
theorem timerStep_steady {k : TimerPc} (hk : s.timer x = some k) (hst : s.timerStep x k = some t) :
    InHand t (s.note (.timer x) r) x ∨ Steady s t r (s.note (.timer x) r) x := by
  have hnote := note_timer (r := r) hk
  have hsame : ∀ a, s.finding x a = s.finding x a ∧ s.storing r x a = s.storing r x a := fun _ => ⟨rfl, rfl⟩
  cases k with
  | claim =>
    cases hst
    rw [hnote (by simp)]
    refine .inr ?_
    split_ifs with hup
    · refine steady_setTimer hk hsame rfl rfl rfl rfl id fun _ htick => ?_
      have hup' : s.wakeup x = false := by simpa [Ticking, hk] using htick
      rw [hup] at hup'
      cases hup'
    · exact steady_setTimer hk (u := { s with wakeup := Function.update s.wakeup x true }) hsame rfl rfl rfl rfl id
        fun _ _ => by simp [Ticking, State.setTimer]
  | mark =>
    cases hst
    rw [hnote (by simp)]
    exact .inr (steady_setTimer hk (u := { s with timedOut := Function.update s.timedOut x true }) hsame rfl rfl rfl rfl
      id fun _ _ => by simp [Ticking, State.setTimer])
  | loadState =>
    cases hst
    rw [hnote (by simp)]
    split_ifs with hx
    · exact .inl (.setTimer (by decide))
    · exact .inr (steady_setTimer hk hsame rfl rfl rfl rfl id fun hx' => absurd hx' hx)
  | remove =>
    cases hst
    rw [hnote (by simp)]
    split_ifs <;> exact .inl (.setTimer (by decide))
  | setClaimed | storeReady | submit =>
    cases hst
    rw [hnote (by simp)]
    exact .inl (.setTimer (by decide))
  | push =>
    cases hst
    exact .inl (.of_enqueues (by simp [State.note, State.enqueues, hk, bump]))
  | _ => cases hst

omit [DecidableEq W] in
theorem timerStep_wait {k : TimerPc} (hst : s.timerStep x k = some t) : t.wait = s.wait := by
  cases k with
  | claim | remove =>
    cases hst
    split_ifs <;> rfl
  | mark | loadState | setClaimed | storeReady | submit | push =>
    cases hst
    rfl
  | _ => cases hst

/-- The timer fires. -/
theorem fire_steady (hk : s.timer x = some .armed) : Steady s (s.setTimer x .claim) r r x :=
  steady_setTimer hk (fun _ => ⟨rfl, rfl⟩) rfl rfl rfl rfl id fun _ htick => by
    simpa [Ticking, hk, State.setTimer] using htick

/-! ## Wakers -/

omit [DecidableEq W] in
theorem le_bump (n : T → ℕ) (o : Option T) (x : T) : n x ≤ bump n o x := by
  cases o with
  | none => exact Nat.le_refl _
  | some y =>
    by_cases hxy : x = y
    · subst hxy
      simp [bump]
    · simp [bump, hxy]

variable {w v : W} {call : T → Call} {pc : WakePc T}

theorem wakeStep_waker (hv : v ≠ w) : (s.wakeStep call w pc).waker v = s.waker v := by
  cases pc with
  | pop l batch =>
    simp only [State.wakeStep]
    split <;> exact Function.update_of_ne hv _ _
  | cancel l y rest =>
    simp only [State.wakeStep]
    split_ifs <;> exact Function.update_of_ne hv _ _
  | _ => exact Function.update_of_ne hv _ _

/-- Only a waker that is still going to load the task's state cancels its timer, which is armed. -/
theorem wakeStep_timer (call : T → Call) (x : T) (hw : s.waker w = some pc) :
    (s.wakeStep call w pc).timer x = s.timer x ∨
      s.timer x = some .armed ∧ (s.wakeStep call w pc).timer x = some .over ∧ Seen s x := by
  cases pc with
  | pop l batch =>
    simp only [State.wakeStep]
    split <;> exact .inl rfl
  | cancel l y rest =>
    simp only [State.wakeStep]
    split_ifs with hc
    · by_cases hxy : x = y
      · subst hxy
        refine .inr ⟨hc.2, by simp [State.setTimer, State.setWaker], .inr ⟨w, ?_⟩⟩
        simp [State.pending, hw, WakePc.pending]
      · exact .inl (Function.update_of_ne hxy _ _)
    · exact .inl rfl
  | _ => exact .inl rfl

theorem wakeStep_wakeup : (s.wakeStep call w pc).wakeup = s.wakeup := by
  cases pc with
  | pop l batch =>
    simp only [State.wakeStep]
    split <;> rfl
  | cancel l y rest =>
    simp only [State.wakeStep]
    split_ifs <;> rfl
  | _ => rfl

/-- A waker sets to `READY` only a task that it has found `SUSPENDED`. -/
theorem wakeStep_suspended (call : T → Call) (r : Record T) (hx : s.taskState x = .suspended)
    (hw : s.waker w = some pc) : (s.wakeStep call w pc).taskState x = .suspended ∨ InHand s r x := by
  cases pc with
  | pop l batch =>
    simp only [State.wakeStep]
    split <;> exact .inl hx
  | cancel l y rest =>
    simp only [State.wakeStep]
    split_ifs <;> exact .inl hx
  | storeReady l y rest | submit l y rest =>
    by_cases hxy : x = y
    · subst hxy
      exact .inr ⟨.waker w, by simp [State.finding, State.storing, hw, WakePc.finding, WakePc.storing]⟩
    · exact .inl ((Function.update_of_ne hxy _ _).trans hx)
  | _ => exact .inl hx

/-- A waker that has found the task `SUSPENDED` goes on to enqueue it, and leaves the others to do so. -/
theorem InHand.waker (h : InHand s r x) (hw : s.waker w = some pc) :
    InHand (s.wakeStep call w pc) (s.note (.waker w) r) x := by
  obtain ⟨a, ha⟩ := h
  cases a with
  | done =>
    have henq : 0 < r.enqueues x := by simpa [State.finding, State.storing] using ha
    exact .of_enqueues (henq.trans_le (le_bump _ _ x))
  | timer =>
    obtain hsame | ⟨harmed, -⟩ := wakeStep_timer call x hw
    · exact ⟨.timer, by simpa only [State.finding, State.storing, hsame] using ha⟩
    · simp [State.finding, State.storing, harmed, TimerPc.finding, TimerPc.storing] at ha
  | waker v =>
    by_cases hv : v = w
    · subst hv
      simp only [State.finding, State.storing, hw, Option.elim_some] at ha
      cases pc with
      | storeReady l y rest | submit l y rest =>
        exact ⟨.waker v, by simpa [State.finding, State.storing, State.wakeStep, State.setWaker, State.setState,
          WakePc.finding, WakePc.storing] using ha⟩
      | push l y rest =>
        obtain rfl : y = x := by
          by_contra hyx
          simp [WakePc.finding, WakePc.storing, hyx] at ha
        exact .of_enqueues (by simp [State.note, State.enqueues, hw, bump])
      | _ => simp [WakePc.finding, WakePc.storing] at ha
    · exact ⟨.waker v, by simpa only [State.finding, State.storing, wakeStep_waker hv] using ha⟩

/-- **An access of a waker**: it looks at the task, or leaves it to others. -/
theorem Attended.waker (h : Attended s r x) (hw : s.waker w = some pc) :
    Attended (s.wakeStep call w pc) (s.note (.waker w) r) x := by
  obtain hin | ⟨hx, hlook⟩ := h
  · exact .inl (hin.waker hw)
  obtain hx' | hin := wakeStep_suspended call r hx hw
  · refine .inr ⟨hx', ?_⟩
    obtain hc | ht := hlook
    · exact .inl (hc.wakeStep hw hx')
    obtain hsame | ⟨-, -, hseen⟩ := wakeStep_timer call x hw
    · exact .inr (by simpa only [Ticking, hsame, wakeStep_wakeup] using ht)
    · exact .inl (Coming.wakeStep (.inl hseen) hw hx')
  · exact .inl (hin.waker hw)

theorem Kept.waker {k : WaitPc} (h : Kept s r x k) (hw : s.waker w = some pc) :
    Kept (s.wakeStep call w pc) (s.note (.waker w) r) x k := by
  cases k with
  | resample saved =>
    refine ⟨?_, fun hc => ?_⟩
    · obtain hin | hx := h.1
      · exact .inl (hin.waker hw)
      · exact (wakeStep_suspended call r hx hw).symm.imp_left fun hin => hin.waker hw
    · obtain hsame | hseen : (s.wakeStep call w pc).wakeCount x = s.wakeCount x ∨ Seen s x := wakeStep_wakeCount hw
      · exact (h.2 (hsame.symm.trans hc)).waker hw
      · exact Attended.waker (h.1.imp_right fun hx => ⟨hx, .inl (.inl hseen)⟩) hw
  | swap | suspended => exact Attended.waker h hw
  | _ => trivial

/-! ## Every step -/

omit [DecidableEq W] in
/-- A step of another task. -/
theorem apart_steady {y : T} (hl : l.task = some y) (hxy : x ≠ y) (ha : Apart s t y) :
    Steady s t r (s.note l r) x where
  finding a := (places_apart (r := r) hl hxy ha a).1
  storing a := (places_apart hl hxy ha a).2
  taskState := ha.taskState x hxy
  wakeCount := ha.wakeCount x
  coming hc := hc.frame ha.queue (ha.claimed x hxy) ha.waker (ha.ready x hxy)
  ticking _ htick := by simpa only [Ticking, ha.timer x hxy, ha.wakeup x hxy] using htick

/-- A new call of `Wake`. -/
theorem wake_steady {v count : Int} (hw : s.waker w = none) :
    Steady s (s.setWaker w (some (.setValue v count))) r r x where
  finding a := by
    rw [finding_setWaker]
    split_ifs with ha
    · subst ha
      simp [State.finding, hw, WakePc.finding]
    · rfl
  storing a := by
    rw [storing_setWaker]
    split_ifs with ha
    · subst ha
      simp [State.storing, hw, WakePc.storing]
    · rfl
  taskState := rfl
  wakeCount := rfl
  coming hc := hc.wake hw
  ticking _ := id

/-- **What one step preserves.** -/
theorem kept_step (ha : Answering s r x) (h : ∀ k, s.wait x = some k → Kept s r x k) (hok : ¬Astray s l)
    (hun : ¬Unanswered s l) (hst : step call s l = some t) {k : WaitPc} (hk : t.wait x = some k) :
    Kept t (s.note l r) x k := by
  by_cases hl : ∃ y, l.task = some y ∧ x ≠ y
  · obtain ⟨y, hy, hxy⟩ := hl
    have hap := step_apart hst hy
    exact (h k ((hap.wait x hxy).symm.trans hk)).keep (apart_steady hy hxy hap)
  have hown : ∀ y, l.task = some y → x = y := fun y hy => by_contra fun hxy => hl ⟨y, hy, hxy⟩
  cases l with
  | wait y =>
    obtain rfl := hown y rfl
    obtain ⟨-, hst⟩ := Option.ite_none_right_eq_some.mp hst
    cases hst
    obtain rfl : k = .load := by simpa [State.goto] using hk.symm
    trivial
  | waiter y =>
    obtain rfl := hown y rfl
    obtain ⟨pc, hpc, hst⟩ := Option.bind_eq_some_iff.mp hst
    exact waitStep_kept hpc (h pc hpc) hok hun hst hk
  | wake w v count =>
    obtain ⟨hnone, hst⟩ := Option.ite_none_right_eq_some.mp hst
    cases hst
    exact (h k hk).keep (wake_steady (Option.isNone_iff_eq_none.mp hnone))
  | waker w =>
    obtain ⟨pc, hw, rfl⟩ := Option.map_eq_some_iff.mp hst
    rw [wakeStep_wait.1] at hk
    exact (h k hk).waker hw
  | fire y =>
    obtain rfl := hown y rfl
    obtain ⟨harmed, hst⟩ := Option.ite_none_right_eq_some.mp hst
    cases hst
    exact (h k hk).keep (fire_steady harmed)
  | timer y =>
    obtain rfl := hown y rfl
    obtain ⟨pc, hpc, hst⟩ := Option.bind_eq_some_iff.mp hst
    obtain hin | hs := timerStep_steady (r := r) hpc hst
    · exact hin.kept k
    · exact (h k ((congrFun (timerStep_wait hst) x).symm.trans hk)).keep hs
  | run y =>
    obtain rfl := hown y rfl
    obtain ⟨hpos, hst⟩ := Option.ite_none_right_eq_some.mp hst
    cases hst
    exact InHand.kept (.of_enqueues (hpos.trans_le ha.ready)) k

omit [DecidableEq W] in
/-- A suspended task that nobody holds any more has been enqueued. -/
theorem Attended.settled (h : Attended s r x) (ha : Answering s r x) (hheld : ¬Held s x) : 0 < r.enqueues x := by
  have hpending : ∀ w, x ∉ s.pending w := fun w hm => hheld (.inr (.inl ⟨w, .inl hm⟩))
  have hanswering : ∀ w, x ∉ s.answering w := fun w hm => hheld (.inr (.inl ⟨w, .inr hm⟩))
  have htimer : ∀ k, s.timer x = some k → k = .over := fun k hk =>
    by_contra fun hne => hheld (.inr (.inr ⟨k, hk, hne⟩))
  obtain ⟨a, hpos⟩ | ⟨-, ((hqueued | ⟨w, hm⟩) | ⟨w, hm⟩ | hready) | htick⟩ := h
  · cases a with
    | done => simpa [State.finding, State.storing] using hpos
    | timer =>
      cases hk : s.timer x with
      | none => simp [State.finding, State.storing, hk] at hpos
      | some k =>
        obtain rfl := htimer k hk
        simp [State.finding, State.storing, hk, TimerPc.finding, TimerPc.storing] at hpos
    | waker w =>
      refine absurd ?_ (hanswering w)
      cases hw : s.waker w with
      | none => simp [State.finding, State.storing, hw] at hpos
      | some pc =>
        simp only [State.finding, State.storing, hw, Option.elim_some] at hpos
        simp only [State.answering, hw, Option.elim_some]
        cases pc with
        | storeReady l y rest | submit l y rest | push l y rest =>
          by_contra hne
          have hyx : y ≠ x := fun he => hne (by simp [WakePc.answering, he])
          simp [WakePc.finding, WakePc.storing, hyx] at hpos
        | _ => simp [WakePc.finding, WakePc.storing] at hpos
  · exact absurd (.inl hqueued) hheld
  · exact absurd hm (hpending w)
  · exact absurd hm (hanswering w)
  · exact hready.trans_le ha.ready
  · cases hk : s.timer x with
    | none => simp [Ticking, hk] at htick
    | some k =>
      obtain rfl := htimer k hk
      simp [Ticking, hk] at htick

/-- **A wait is answered as often as it suspends**, in any run in which no step goes astray and no `Wait` suspends
unanswered. -/
theorem answered_once {call : T → Call} {p : State T W × Record T}
    (hp : Reach (recorded call) (fun p l => ¬Astray p.1 l ∧ ¬Unanswered p.1 l) p) (x : T) : Answered p.1 p.2 x := by
  have ha : ∀ p : State T W × Record T,
      Reach (recorded call) (fun p l => ¬Astray p.1 l ∧ ¬Unanswered p.1 l) p → Answering p.1 p.2 x := by
    intro p hp
    refine hp.invariant (I := fun p => Answering p.1 p.2 x) ?_ fun p q l h hok hst => ?_
    · rintro ⟨s, r⟩ ⟨⟨value, wakeCount, rfl⟩, rfl⟩
      refine Silent.answering (fun a => by cases a <;> exact ⟨rfl, rfl⟩) (Nat.le_refl _) ⟨rfl, fun a => ?_, rfl⟩
      cases a <;> exact ⟨rfl, rfl⟩
    · obtain ⟨t, ht, rfl⟩ := Option.map_eq_some_iff.mp hst
      exact answering_step h hok.1 ht
  have hk : ∀ k, p.1.wait x = some k → Kept p.1 p.2 x k := by
    refine hp.invariant_of (I := fun p => ∀ k, p.1.wait x = some k → Kept p.1 p.2 x k) ha ?_
      fun p q l ha h hok hst => ?_
    · rintro ⟨s, r⟩ ⟨⟨value, wakeCount, rfl⟩, rfl⟩ k hk
      cases hk
    · obtain ⟨t, ht, rfl⟩ := Option.map_eq_some_iff.mp hst
      exact fun k hk => kept_step ha h hok.1 hok.2 ht hk
  refine ⟨(ha p hp).suspends_le, (ha p hp).enqueues_le, fun b => (ha p hp).returned, fun hsusp hheld => ?_⟩
  have henq : 0 < p.2.enqueues x := Attended.settled (hk _ hsusp) (ha p hp) hheld
  have hpc := (ha p hp).pc
  rw [hsusp] at hpc
  exact (Nat.le_antisymm (ha p hp).enqueues_le henq).trans hpc.symm

end Task

/-- The waiter finds the `wake_count` it has read and suspends while it is queued, and no timer looks for it. -/
def onCourse (p : State Unit Unit × Record Unit) : Label Unit Unit → Bool
  | .waiter _ => match p.1.wait () with
    | some (.resample saved) => p.1.wakeCount () == saved
    | some (.suspend _) => decide (() ∈ p.1.queue) && !p.1.claimed ()
    | _ => true
  | .waker _ => (p.1.timer ()).elim 0 TimerPc.finding == 0
  | .timer _ => false
  | _ => true

/-- The waiter suspends, its timer is cancelled, and it is resumed. -/
theorem answered_once_resumed : ∃ p : State Unit Unit × Record Unit, p.1.wait () = some (.returned false) ∧
    p.2.suspends () = 1 ∧ Answered p.1 p.2 () := by
  have himp : ∀ (p : State Unit Unit × Record Unit) l, onCourse p l = true → ¬Astray p.1 l ∧ ¬Unanswered p.1 l := by
    intro p l h
    cases l with
    | waiter t =>
      constructor
      · rintro ⟨saved, hw, hne⟩
        simp only [onCourse, hw, beq_iff_eq] at h
        exact hne h
      · rintro ⟨saved, hw, -, -, hseen, -⟩
        simp only [onCourse, hw, Bool.and_eq_true, decide_eq_true_eq, Bool.not_eq_true'] at h
        exact hseen (.inl h)
    | waker w =>
      refine ⟨?_, not_false⟩
      rintro ⟨l, t, rest, hw, -, a, hpos⟩
      cases a with
      | done => cases hpos
      | waker v => simp [State.finding, hw, WakePc.finding] at hpos
      | timer =>
        simp only [onCourse, beq_iff_eq] at h
        rw [State.finding, h] at hpos
        cases hpos
    | timer t => cases h
    | _ => exact ⟨not_false, not_false⟩
  exact ⟨_, rfl, rfl, answered_once (reach_exec himp (.init ⟨⟨0, fun _ => 0, rfl⟩, rfl⟩)
    (show exec (recorded fun _ => ⟨0, some 1, false⟩) (.start 0 fun _ => 0, .empty)
    (.wait () :: List.replicate 11 (.waiter ()) ++
      .wake () 1 1 :: List.replicate 10 (.waker ()) ++ [.run (), .waiter ()]) = some _ from rfl) (by decide)) ()⟩

/-- **Waits answered wrongly**: a task whose `Wait` has returned without suspending is in a ready queue, because it has
found `wake_count` changed; a task that suspended is enqueued by the callback and by a waker; and a task that suspends
after the waker is done with it is not enqueued. -/
theorem answered_wrongly :
    (∃ p : State Unit Unit × Record Unit, Reachable (recorded fun _ => ⟨0, none, false⟩) p ∧
      p.1.wait () = some (.returned false) ∧ p.2.suspends () = 0 ∧ p.2.enqueues () = 1) ∧
    (∃ p : State Unit Unit × Record Unit, Reachable (recorded fun _ => ⟨0, some 1, false⟩) p ∧
      p.1.wait () = some .suspended ∧ p.2.suspends () = 1 ∧ p.2.enqueues () = 2) ∧
    ∃ p : State Unit Unit × Record Unit, Reachable (recorded fun _ => ⟨0, none, false⟩) p ∧
      p.1.wait () = some .suspended ∧ ¬Held p.1 () ∧ p.2.suspends () = 1 ∧ p.2.enqueues () = 0 := by
  refine ⟨?_, ?_, ?_⟩
  · exact ⟨_, reachable_exec (.init ⟨⟨0, fun _ => 0, rfl⟩, rfl⟩) (show exec _ (.start 0 fun _ => 0, .empty) (.wait () ::
      List.replicate 7 (.waiter ()) ++ .wake () 1 1 :: List.replicate 5 (.waker ()) ++
      List.replicate 6 (.waiter ())) = some _ from rfl), rfl, rfl, rfl⟩
  · exact ⟨_, reachable_exec (.init ⟨⟨0, fun _ => 0, rfl⟩, rfl⟩) (show exec _ (.start 0 fun _ => 0, .empty) (.wait () ::
      List.replicate 11 (.waiter ()) ++ .fire () :: List.replicate 3 (.timer ()) ++
      .wake () 1 1 :: List.replicate 10 (.waker ()) ++ List.replicate 4 (.timer ())) = some _ from rfl), rfl, rfl, rfl⟩
  · refine ⟨_, reachable_exec (.init ⟨⟨0, fun _ => 0, rfl⟩, rfl⟩) (show exec _ (.start 0 fun _ => 0, .empty) lostRun =
      some _ from rfl), rfl, ?_, rfl, rfl⟩
    rintro (⟨hm, -⟩ | ⟨w, hm | hm⟩ | ⟨k, hk, -⟩)
    · cases hm
    · cases hm
    · cases hm
    · cases hk

end Cothread.Butex
