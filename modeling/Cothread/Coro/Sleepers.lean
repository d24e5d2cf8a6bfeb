import Cothread.Coro.SleepThread

/-!
# Sleepers: runs

- **every sleeper is submitted once**, and does not sleep too short, unless its wake time overflows (`sleepers_once`);
- **in turn** (`sleepers_in_turn`): nobody is overtaken by a sleeper that came later and wakes no earlier;
- **no sleeper is overslept** (`sleepers_attended`): a pass of the sleep thread leaves no sleeper that was due, and the
  sleep thread waits for the first one at most, but for the notifications that are under way;
- **after `Shutdown`** (`sleepers_abandoned`), once it has joined the sleep thread, nobody is woken any more.
-/

namespace Cothread.SleepThread

open Run Multimap
open scoped List

section Facts

variable {A M : Type*} {s t : State A M} {a : A} {l : Label A M} {pc : ThreadPc M}

/-- The items that have not been submitted. -/
def State.asleep (s : State A M) : List (Entry M) :=
  match s.thread with
  | .erase _ => s.queue.tail
  | _ => s.queue

/-- All items: those that have been submitted, and those that will be, as it stands. -/
def State.line (s : State A M) : List (Entry M) := s.submitted.map Prod.fst ++ s.asleep

/-- The time at which a sleeper has slept for its whole duration. -/
def Entry.due (e : Entry M) : ℤ := e.read + milliseconds e.sleep.duration

/-- A later item in line has not come before an earlier one, unless it wakes later. -/
def InTurn (x y : Entry M) : Prop := y.seq < x.seq → x.wake < y.wake

/-- A notification of a new item is under way. -/
def State.Notifies (s : State A M) : Prop := ∃ a, s.actor a = .unlock ∨ s.actor a = .notify

/-- What a thread in `await_suspend` has from the clock. -/
def Pc.Timely (clock : ℤ) : Pc M → Prop
  | .storeSuspended c | .readClock c => c.since ≤ clock
  | .lock c read wake | .emplace c read wake => c.since ≤ read ∧ wake = wakeTime read c.duration
  | _ => True

/-- What the sleep thread has from the clock and the queue. -/
def State.Knows (s : State A M) : ThreadPc M → Prop
  | .scan now | .erase now => 0 ≤ now ∧ now ≤ s.clock
  | .storeReady now e | .submit now e => (0 ≤ now ∧ now ≤ s.clock) ∧ e.wake ≤ now ∧ s.queue.head? = some e
  | .rest now => 0 ≤ now ∧ ∀ e ∈ s.queue, now < e.wake
  | .wait read duration => 0 < duration ∧ ∀ e ∈ s.queue, read + duration ≤ e.wake
  | .blocked read since wake => ¬s.Notifies → ∀ e ∈ s.queue, wake - (since - read) ≤ e.wake
  | _ => True

/-- The items in the queue and those that have been submitted. -/
structure Inv (s : State A M) : Prop where
  perm : s.line.Perm s.entries
  turn : s.line.Pairwise InTurn
  seqs : s.entries.map Entry.seq = List.range s.entries.length
  sorted : Ordered Entry.wake Entry.seq s.queue
  clock : 0 ≤ s.clock ∧ s.clock < 2 ^ 63
  due : ∀ x ∈ s.submitted, x.1.wake ≤ x.2 ∧ 0 ≤ x.2 ∧ x.2 < 2 ^ 63
  late : ∀ e ∈ s.entries, e.sleep.since ≤ e.read ∧ e.wake = wakeTime e.read e.sleep.duration
  timely : ∀ a, (s.actor a).Timely s.clock
  knows : s.Knows s.thread

/-! ## What the sleep thread knows -/

theorem State.Knows.mono (h : s.Knows pc) (hclock : s.clock ≤ t.clock) (hqueue : t.queue = s.queue)
    (hnotifies : s.Notifies → t.Notifies) : t.Knows pc := by
  cases pc with
  | scan now | erase now => exact ⟨h.1, le_trans h.2 hclock⟩
  | storeReady now e | submit now e =>
    obtain ⟨⟨hpos, hnow⟩, hwake, hhead⟩ := h
    exact ⟨⟨hpos, le_trans hnow hclock⟩, hwake, hqueue ▸ hhead⟩
  | rest now | wait read duration => exact ⟨h.1, fun e he => h.2 e (hqueue ▸ he)⟩
  | blocked read since wake => exact fun hnot e he => h (fun hs => hnot (hnotifies hs)) e (hqueue ▸ he)
  | _ => trivial

/-- The sleep thread has been notified. -/
theorem State.Knows.notified (h : s.Knows pc) (hclock : s.clock ≤ t.clock) (hqueue : t.queue = s.queue) :
    t.Knows pc.notified := by
  cases pc with
  | scan now | erase now => exact ⟨h.1, le_trans h.2 hclock⟩
  | storeReady now e | submit now e =>
    obtain ⟨⟨hpos, hnow⟩, hwake, hhead⟩ := h
    exact ⟨⟨hpos, le_trans hnow hclock⟩, hwake, hqueue ▸ hhead⟩
  | rest now | wait read duration => exact ⟨h.1, fun e he => h.2 e (hqueue ▸ he)⟩
  | _ => trivial

/-- Without the mutex it knows nothing, while a notification is under way. -/
theorem knows_of_notifies (h : pc.holds = false) (hnotifies : s.Notifies) : s.Knows pc := by
  cases pc with
  | blocked read since wake => exact fun hnot => absurd hnotifies hnot
  | none | test | lock | relock | exited => trivial
  | _ => cases h

theorem asleep_of_holds (h : s.thread.holds = false) : s.asleep = s.queue := by
  unfold State.asleep
  split
  · next hpc =>
    rw [hpc] at h
    cases h
  · rfl

theorem line_of_holds (h : s.thread.holds = false) : s.line = s.submitted.map Prod.fst ++ s.queue := by
  rw [State.line, asleep_of_holds h]

theorem asleep_notified (hthread : t.thread = s.thread.notified) (hqueue : t.queue = s.queue) :
    t.asleep = s.asleep := by
  unfold State.asleep
  rw [hthread, hqueue]
  cases s.thread <;> rfl

theorem line_congr (hsubmitted : t.submitted = s.submitted) (hasleep : t.asleep = s.asleep) : t.line = s.line := by
  rw [State.line, State.line, hsubmitted, hasleep]

/-- A thread goes on: a notification that was under way is. -/
theorem Notifies.goto [DecidableEq A] {pc : Pc M}
    (hpc : s.actor a = .unlock ∨ s.actor a = .notify → pc = .unlock ∨ pc = .notify)
    (hactor : t.actor = Function.update s.actor a pc) (h : s.Notifies) : t.Notifies := by
  obtain ⟨b, hb⟩ := h
  by_cases hba : b = a
  · subst hba
    refine ⟨b, ?_⟩
    rw [hactor, Function.update_self]
    exact hpc hb
  · refine ⟨b, ?_⟩
    rw [hactor, Function.update_of_ne hba]
    exact hb

theorem timely_goto [DecidableEq A] (h : ∀ b, (s.actor b).Timely s.clock) {pc : Pc M} (hpc : pc.Timely s.clock)
    (b : A) : (Function.update s.actor a pc b).Timely s.clock := by
  by_cases hb : b = a
  · rw [hb, Function.update_self]
    exact hpc
  · rw [Function.update_of_ne hb]
    exact h b

/-! ## The steps -/

/-- The line is the same. -/
theorem Inv.keep (h : Inv s) (hline : t.line = s.line) (hentries : t.entries = s.entries)
    (hsorted : Ordered Entry.wake Entry.seq t.queue) (hclock : 0 ≤ t.clock ∧ t.clock < 2 ^ 63)
    (hdue : ∀ x ∈ t.submitted, x.1.wake ≤ x.2 ∧ 0 ≤ x.2 ∧ x.2 < 2 ^ 63)
    (htimely : ∀ a, (t.actor a).Timely t.clock) (hknows : t.Knows t.thread) : Inv t where
  perm := by rw [hline, hentries]; exact h.perm
  turn := by rw [hline]; exact h.turn
  seqs := by rw [hentries]; exact h.seqs
  sorted := hsorted
  clock := hclock
  due := hdue
  late := by rw [hentries]; exact h.late
  timely := htimely
  knows := hknows

theorem Inv.seq_lt (h : Inv s) {e : Entry M} (he : e ∈ s.entries) : e.seq < s.entries.length := by
  have hmem : e.seq ∈ s.entries.map Entry.seq := List.mem_map_of_mem he
  rw [h.seqs] at hmem
  exact List.mem_range.mp hmem

theorem State.asleep_subset (s : State A M) {e : Entry M} (he : e ∈ s.asleep) : e ∈ s.queue := by
  unfold State.asleep at he
  split at he
  · exact List.mem_of_mem_tail he
  · exact he

theorem Inv.mem_asleep (h : Inv s) {e : Entry M} (he : e ∈ s.entries) :
    e ∈ s.submitted.map Prod.fst ∨ e ∈ s.asleep :=
  List.mem_append.mp (h.perm.mem_iff.mpr he)

end Facts

section Steps

variable {A M : Type*} [DecidableEq A] [DecidableEq M] {s t : State A M} {a : A} {l : Label A M}

omit [DecidableEq M] in
/-- A thread goes on in a call, and leaves the queue and the sleep thread alone. -/
theorem Inv.goto (h : Inv s) {pc : Pc M} (hactor : t.actor = Function.update s.actor a pc) (hpc : pc.Timely s.clock)
    (hnotifies : s.actor a = .unlock ∨ s.actor a = .notify → pc = .unlock ∨ pc = .notify)
    (hclock : t.clock = s.clock) (hqueue : t.queue = s.queue) (hentries : t.entries = s.entries)
    (hsubmitted : t.submitted = s.submitted) (hthread : t.thread = s.thread) : Inv t := by
  have hasleep : t.asleep = s.asleep := by
    unfold State.asleep
    rw [hthread, hqueue]
  refine h.keep (line_congr hsubmitted hasleep) hentries (hqueue ▸ h.sorted) (hclock ▸ h.clock) (hsubmitted ▸ h.due) ?_
    ?_
  · rw [hactor, hclock]
    exact timely_goto h.timely hpc
  · rw [hthread]
    exact h.knows.mono hclock.ge hqueue (Notifies.goto hnotifies hactor)

/-- **A new item.** -/
theorem Inv.emplace (h : Inv s) (hlocked : Locked s) {c : Sleep M} {read wake : ℤ}
    (hpc : s.actor a = .emplace c read wake) (hst : s.actorStep a (.emplace c read wake) = some t) : Inv t := by
  let e : Entry M := ⟨wake, c, read, s.entries.length⟩
  have hmine : s.mutex = some (some a) := (hlocked.actor a).mpr (by rw [hpc]; rfl)
  have hfree : s.thread.holds = false := by
    rw [← Bool.not_eq_true, ← hlocked.thread, hmine]
    simp
  have hasleep : s.asleep = s.queue := asleep_of_holds hfree
  have hqueue {x : Entry M} (hx : x ∈ s.queue) : x ∈ s.entries := by
    refine h.perm.mem_iff.mp (List.mem_append_right _ ?_)
    rwa [hasleep]
  have hsorted : Ordered Entry.wake Entry.seq (Multimap.emplace Entry.wake e s.queue) :=
    h.sorted.emplace fun x hx => h.seq_lt (hqueue hx)
  have hperm := h.perm
  have hturn := h.turn
  rw [State.line, hasleep] at hperm hturn
  obtain ⟨hbefore, -, hcross⟩ := List.pairwise_append.mp hturn
  have hline : t.line = s.submitted.map Prod.fst ++ Multimap.emplace Entry.wake e s.queue := by
    cases hst
    exact line_of_holds hfree
  cases hst
  constructor
  case perm =>
    rw [hline]
    calc s.submitted.map Prod.fst ++ Multimap.emplace Entry.wake e s.queue
      _ ~ s.submitted.map Prod.fst ++ e :: s.queue := perm_emplace.append_left _
      _ ~ e :: (s.submitted.map Prod.fst ++ s.queue) := List.perm_middle
      _ ~ e :: s.entries := hperm.cons e
      _ ~ s.entries ++ [e] := (List.perm_append_singleton e s.entries).symm
  case turn =>
    rw [hline]
    refine List.pairwise_append.mpr ⟨hbefore, hsorted.imp fun hxy hseq => hxy.key_lt hseq, fun x hx y hy hseq => ?_⟩
    obtain rfl | hy := mem_emplace.mp hy
    · have hlt := h.seq_lt (hperm.mem_iff.mp (List.mem_append_left _ hx))
      exact absurd hseq hlt.not_gt
    · exact hcross x hx y hy hseq
  case seqs =>
    simp [State.goto, h.seqs, List.range_succ]
  case sorted => exact hsorted
  case clock => exact h.clock
  case due => exact h.due
  case late =>
    intro x hx
    obtain hx | hx := List.mem_append.mp hx
    · exact h.late x hx
    · obtain rfl := List.mem_singleton.mp hx
      have htimely := h.timely a
      rw [hpc] at htimely
      exact htimely
  case timely => exact timely_goto h.timely trivial
  case knows => exact knows_of_notifies hfree ⟨a, .inl (Function.update_self ..)⟩

theorem Inv.actorStep (h : Inv s) (hlocked : Locked s) (hbegun : Begun s)
    (hst : s.actorStep a (s.actor a) = some t) : Inv t := by
  cases hpc : s.actor a with
  | idle =>
    rw [hpc] at hst
    cases hst
  | emplace c read wake =>
    rw [hpc] at hst
    exact h.emplace hlocked hpc hst
  | sleepFor wake | join =>
    rw [hpc] at hst
    obtain ⟨-, hst⟩ := Option.ite_none_right_eq_some.mp hst
    cases hst
    exact h.goto rfl trivial (by simp [hpc]) rfl rfl rfl rfl rfl
  | lock c read wake =>
    have htimely := h.timely a
    rw [hpc] at hst htimely
    obtain ⟨-, hst⟩ := Option.ite_none_right_eq_some.mp hst
    cases hst
    exact h.goto rfl htimely (by simp [hpc]) rfl rfl rfl rfl rfl
  | storeSuspended c =>
    have htimely := h.timely a
    rw [hpc] at hst htimely
    cases hst
    exact h.goto rfl htimely (by simp [hpc]) rfl rfl rfl rfl rfl
  | readClock c =>
    have htimely := h.timely a
    rw [hpc] at hst htimely
    cases hst
    exact h.goto rfl ⟨htimely, rfl⟩ (by simp [hpc]) rfl rfl rfl rfl rfl
  | unlock =>
    rw [hpc] at hst
    cases hst
    exact h.goto rfl trivial (fun _ => .inr rfl) rfl rfl rfl rfl rfl
  | callOnce =>
    rw [hpc] at hst
    simp only [State.actorStep] at hst
    split at hst
    · cases hst
      exact h.goto rfl trivial (by simp [hpc]) rfl rfl rfl rfl rfl
    · cases hst
    · cases hst
      exact h.goto rfl trivial (by simp [hpc]) rfl rfl rfl rfl rfl
  | exchange | load | joinable =>
    rw [hpc] at hst
    cases hst
    refine h.goto rfl ?_ (by simp [hpc]) rfl rfl rfl rfl rfl
    split_ifs <;> trivial
  | assign | endOnce | store =>
    rw [hpc] at hst
    cases hst
    exact h.goto rfl trivial (by simp [hpc]) rfl rfl rfl rfl rfl
  | create =>
    rw [hpc] at hst
    cases hst
    have hnone : s.thread = .none := by
      by_contra hne
      exact (hbegun.thread hne).2 a (by rw [hpc]; rfl)
    have hasleep : s.asleep = s.queue := asleep_of_holds (by rw [hnone]; rfl)
    exact h.keep (line_congr rfl hasleep.symm) rfl h.sorted h.clock h.due (timely_goto h.timely trivial) trivial
  | notify | notifyAll =>
    rw [hpc] at hst
    cases hst
    refine h.keep (line_congr rfl (asleep_notified rfl rfl)) rfl h.sorted h.clock h.due ?_ ?_
    · exact timely_goto h.timely trivial
    · exact h.knows.notified le_rfl rfl

omit [DecidableEq A] [DecidableEq M] in
/-- The sleep thread goes on, and leaves the queue alone. -/
theorem Inv.goThread (h : Inv s) (hs : s.asleep = s.queue) (ht : t.asleep = t.queue) (hqueue : t.queue = s.queue)
    (hclock : t.clock = s.clock) (hactor : t.actor = s.actor) (hentries : t.entries = s.entries)
    (hsubmitted : t.submitted = s.submitted) (hknows : t.Knows t.thread) : Inv t := by
  refine h.keep (line_congr hsubmitted ?_) hentries (hqueue ▸ h.sorted) (hclock ▸ h.clock) (hsubmitted ▸ h.due) ?_
    hknows
  · rw [ht, hs, hqueue]
  · rw [hactor, hclock]
    exact h.timely

omit [DecidableEq A] [DecidableEq M] in
theorem asleep_eq (h : ∀ now, s.thread ≠ .erase now) : s.asleep = s.queue := by
  unfold State.asleep
  split
  · next now hpc => exact absurd hpc (h now)
  · rfl

omit [DecidableEq A] in
/-- The sleep thread looks at the first item. -/
theorem Inv.scan (h : Inv s) {now : ℤ} (hpc : s.thread = .scan now) (hst : s.threadStep (.scan now) = some t) :
    Inv t := by
  have hasleep : s.asleep = s.queue := asleep_eq (by simp [hpc])
  have hknows := h.knows
  rw [hpc] at hknows
  simp only [State.threadStep] at hst
  split at hst
  · next hqueue =>
    cases hst
    refine h.goThread hasleep rfl rfl rfl rfl rfl rfl ⟨hknows.1, fun e he => ?_⟩
    simp [hqueue] at he
  · next e q hqueue =>
    cases hst
    by_cases hwake : e.wake ≤ now
    · rw [if_pos hwake]
      exact h.goThread hasleep rfl rfl rfl rfl rfl rfl ⟨hknows, hwake, by simp [hqueue]⟩
    · rw [if_neg hwake]
      refine h.goThread hasleep rfl rfl rfl rfl rfl rfl ⟨hknows.1, fun x hx => ?_⟩
      have hsorted := h.sorted
      rw [hqueue] at hsorted
      exact lt_of_lt_of_le (not_le.mp hwake) (hsorted.key_le (hqueue ▸ hx))

omit [DecidableEq A] in
/-- **A sleeper is submitted.** -/
theorem Inv.submit (h : Inv s) {now : ℤ} {e : Entry M} (hpc : s.thread = .submit now e)
    (hst : s.threadStep (.submit now e) = some t) : Inv t := by
  have hasleep : s.asleep = s.queue := asleep_eq (by simp [hpc])
  have hknows := h.knows
  rw [hpc] at hknows
  cases hst
  obtain ⟨hnow, hwake, hhead⟩ := hknows
  obtain ⟨q, hqueue⟩ := List.head?_eq_some_iff.mp hhead
  refine h.keep ?_ rfl h.sorted h.clock (fun x hx => ?_) h.timely hnow
  · -- the first item of the queue has gone to the end of those that have been submitted
    rw [State.line, State.line, hasleep, hqueue]
    simp [State.asleep, State.setState, hqueue]
  · obtain hx | hx := List.mem_append.mp hx
    · exact h.due x hx
    · obtain rfl := List.mem_singleton.mp hx
      exact ⟨le_trans hwake hnow.2, h.clock⟩

omit [DecidableEq A] in
/-- The sleep thread computes how long it waits. -/
theorem Inv.rest (h : Inv s) {now : ℤ} (hpc : s.thread = .rest now) (hst : s.threadStep (.rest now) = some t) :
    Inv t := by
  have hasleep : s.asleep = s.queue := asleep_eq (by simp [hpc])
  have hknows := h.knows
  rw [hpc] at hknows
  simp only [State.threadStep] at hst
  split at hst
  · cases hst
    exact h.goThread hasleep rfl rfl rfl rfl rfl rfl trivial
  · next e q hqueue =>
    cases hst
    -- the first item wakes after now, and the clock is no less than 0: the difference does not underflow
    have hduration : wrap64 (e.wake - s.clock) ≤ e.wake - s.clock := by
      have hpos := hknows.1
      have hwake := hknows.2 e (by simp [hqueue])
      have hclock := h.clock
      exact wrap64_le (by omega)
    split_ifs with hlt
    · refine h.goThread hasleep rfl rfl rfl rfl rfl rfl ⟨hlt, fun x hx => ?_⟩
      have hsorted := h.sorted
      rw [hqueue] at hsorted
      have hle := hsorted.key_le (hqueue ▸ hx)
      omega
    · exact h.goThread hasleep rfl rfl rfl rfl rfl rfl trivial

omit [DecidableEq A] in
theorem Inv.threadStep (h : Inv s) (hst : s.threadStep s.thread = some t) : Inv t := by
  have hknows := h.knows
  have hasleep : s.asleep = match s.thread with | .erase _ => s.queue.tail | _ => s.queue := rfl
  cases hpc : s.thread with
  | none | exited =>
    rw [hpc] at hst
    cases hst
  | lock | relock | blocked read since wake =>
    rw [hpc] at hst hasleep
    obtain ⟨-, hst⟩ := Option.ite_none_right_eq_some.mp hst
    cases hst
    exact h.goThread hasleep rfl rfl rfl rfl rfl rfl trivial
  | unlock =>
    rw [hpc] at hst hasleep
    cases hst
    exact h.goThread hasleep rfl rfl rfl rfl rfl rfl trivial
  | readClock =>
    rw [hpc] at hst hasleep
    cases hst
    exact h.goThread hasleep rfl rfl rfl rfl rfl rfl ⟨h.clock.1, le_refl s.clock⟩
  | test =>
    rw [hpc] at hst hasleep
    cases hst
    cases s.running with
    | true | false => exact h.goThread hasleep rfl rfl rfl rfl rfl rfl trivial
  | look =>
    rw [hpc] at hst hasleep
    cases hst
    by_cases hempty : s.queue = []
    · rw [if_pos hempty]
      refine h.goThread hasleep rfl rfl rfl rfl rfl rfl ⟨by decide, fun e he => ?_⟩
      simp [hempty] at he
    · rw [if_neg hempty]
      exact h.goThread hasleep rfl rfl rfl rfl rfl rfl trivial
  | scan now => exact h.scan hpc (hpc ▸ hst)
  | storeReady now e =>
    rw [hpc] at hst hasleep hknows
    cases hst
    exact h.goThread hasleep rfl rfl rfl rfl rfl rfl hknows
  | submit now e => exact h.submit hpc (hpc ▸ hst)
  | erase now =>
    rw [hpc] at hst hasleep hknows
    cases hst
    exact h.keep (line_congr rfl hasleep.symm) rfl (List.Pairwise.tail h.sorted) h.clock h.due h.timely hknows
  | rest now => exact h.rest hpc (hpc ▸ hst)
  | wait read duration =>
    rw [hpc] at hst hasleep hknows
    cases hst
    refine h.goThread hasleep rfl rfl rfl rfl rfl rfl fun _ e he => ?_
    have hclock := h.clock.1
    have hpos := hknows.1
    have hle := hknows.2 e he
    have hwake : wrap64 (s.clock + duration) ≤ s.clock + duration := wrap64_le (by omega)
    omega

theorem Inv.step (h : Inv s) (hlocked : Locked s) (hbegun : Begun s) (hst : step s l = some t) : Inv t := by
  cases l with
  | tick n =>
    obtain ⟨hlt, hst⟩ := Option.ite_none_right_eq_some.mp hst
    cases hst
    have hclock : s.clock ≤ s.clock + n := by omega
    refine h.keep rfl rfl h.sorted ⟨le_trans h.clock.1 hclock, hlt⟩ h.due (fun b => ?_) (h.knows.mono hclock rfl id)
    have htimely := h.timely b
    cases hpc : s.actor b with
    | storeSuspended c | readClock c =>
      rw [hpc] at htimely
      exact le_trans htimely hclock
    | lock c read wake | emplace c read wake =>
      rw [hpc] at htimely
      exact htimely
    | _ => trivial
  | sleep a co duration =>
    obtain ⟨hidle, hst⟩ := Option.ite_none_right_eq_some.mp hst
    cases hst
    refine h.goto rfl ?_ (by simp [hidle]) rfl rfl rfl rfl rfl
    cases co with
    | none => trivial
    | some m => exact le_refl s.clock
  | shutdown a =>
    obtain ⟨hidle, hst⟩ := Option.ite_none_right_eq_some.mp hst
    cases hst
    exact h.goto rfl trivial (by simp [hidle]) rfl rfl rfl rfl rfl
  | actor a => exact h.actorStep hlocked hbegun hst
  | thread => exact h.threadStep hst
  | spurious =>
    simp only [SleepThread.step] at hst
    split at hst
    · next read since wake hpc =>
      cases hst
      have hasleep : s.asleep = s.queue := asleep_of_holds (by rw [hpc]; rfl)
      exact h.goThread hasleep rfl rfl rfl rfl rfl rfl trivial
    · cases hst

theorem reachable_inv (hs : Reachable (system A M) s) : Inv s := by
  refine hs.invariant_of (fun s hs => And.intro (reachable_locked hs) (reachable_begun hs)) (fun s h => ?_)
    fun s t l hJ h _ hst => h.step hJ.1 hJ.2 hst
  cases h
  constructor <;> simp [State.start, State.line, State.asleep, State.Knows, Pc.Timely, Ordered]

/-- A sleep thread that has exited does nothing any more, and is not started again. -/
theorem exited_step (hbegun : Begun s) (hexited : s.thread = .exited) (hst : step s l = some t) :
    t.thread = .exited ∧ t.submitted = s.submitted := by
  cases l with
  | tick n | sleep a co duration | shutdown a =>
    obtain ⟨-, hst⟩ := Option.ite_none_right_eq_some.mp hst
    cases hst
    exact ⟨hexited, rfl⟩
  | thread =>
    simp only [SleepThread.step, hexited, State.threadStep] at hst
    cases hst
  | spurious =>
    simp only [SleepThread.step, hexited] at hst
    cases hst
  | actor a =>
    simp only [SleepThread.step] at hst
    cases hpc : s.actor a with
    | create => exact absurd (congrArg Pc.stage hpc) ((hbegun.thread (by simp [hexited])).2 a)
    | idle =>
      rw [hpc] at hst
      cases hst
    | sleepFor wake | lock c read wake | join =>
      rw [hpc] at hst
      obtain ⟨-, hst⟩ := Option.ite_none_right_eq_some.mp hst
      cases hst
      exact ⟨hexited, rfl⟩
    | callOnce =>
      rw [hpc] at hst
      simp only [State.actorStep] at hst
      split at hst
      · cases hst
        exact ⟨hexited, rfl⟩
      · cases hst
      · cases hst
        exact ⟨hexited, rfl⟩
    | notify | notifyAll =>
      rw [hpc] at hst
      cases hst
      exact ⟨congrArg ThreadPc.notified hexited, rfl⟩
    | _ =>
      rw [hpc] at hst
      cases hst
      exact ⟨hexited, rfl⟩

/-- **The run lemma.** -/
theorem exited_exec {ls : List (Label A M)} (hs : Reachable (system A M) s) (hexited : s.thread = .exited)
    (hrun : exec (system A M) s ls = some t) : t.submitted = s.submitted := by
  refine (exec_invariant (I := fun u => u.thread = .exited ∧ u.submitted = s.submitted) (fun u v l hu h hst => ?_) hs
    ⟨hexited, rfl⟩ hrun).2
  obtain ⟨hv, hsubmitted⟩ := exited_step (reachable_begun hu) h.1 hst
  exact ⟨hv, hsubmitted.trans h.2⟩

/-- A coroutine sleeps for 5 ms, and the sleep thread waits for it. -/
def fallAsleep : List (Label Bool Unit) :=
  [.sleep true (some ()) 5] ++ List.replicate 11 (.actor true) ++ List.replicate 7 .thread

/-- It is woken. -/
def wakeUp : List (Label Bool Unit) := [.tick 5000000] ++ List.replicate 11 .thread

/-- The other thread shuts the sleep thread down. -/
def shutDown : List (Label Bool Unit) :=
  [.shutdown false] ++ List.replicate 4 (.actor false) ++ List.replicate 3 .thread

/-- Where a run ends. -/
theorem exists_run {p : State Bool Unit → Prop} [DecidablePred p] {ls : List (Label Bool Unit)}
    (h : (exec (system Bool Unit) (.start Bool Unit) ls).any (fun s => decide (p s)) = true) :
    ∃ s, Reachable (system Bool Unit) s ∧ p s := by
  obtain ⟨s, hrun, hp⟩ := of_exec_any h
  exact ⟨s, reachable_exec (.init rfl) hrun, hp⟩

/-! ## The results -/

-- who sleeps for too long is submitted at once
example : (exec (system Bool Unit) (.start Bool Unit) ([.sleep true (some ()) 9223372036855] ++
    List.replicate 11 (.actor true) ++ List.replicate 7 .thread)).any
      (fun s => decide (s.clock = 0 ∧ s.submitted.length = 1)) = true := by decide +kernel

/-- **In turn**: when an item has been submitted before another that was put in the queue earlier, or while that one is
still there, the other one wakes later. -/
theorem sleepers_in_turn (hs : Reachable (system A M) s) :
    (s.submitted.map Prod.fst).Pairwise InTurn ∧
      ∀ x ∈ s.submitted, ∀ e ∈ s.entries, e ∉ s.submitted.map Prod.fst → InTurn x.1 e := by
  have h := reachable_inv hs
  obtain ⟨hsubmitted, -, hcross⟩ := List.pairwise_append.mp h.turn
  refine ⟨hsubmitted, fun x hx e he hnot => ?_⟩
  exact hcross x.1 (List.mem_map_of_mem hx) e ((h.mem_asleep he).resolve_left hnot)

/-- Two coroutines sleep, the second one for a shorter time, and both are woken. -/
def overtake : List (Label Bool Unit) :=
  [.sleep true (some ()) 5] ++ List.replicate 11 (.actor true) ++ [.sleep true (some ()) 3] ++
    List.replicate 7 (.actor true) ++ [.tick 5000000] ++ List.replicate 12 .thread

theorem sleepers_in_turn_overtaken : ∃ s : State Bool Unit,
    s.submitted.map (fun x => (x.1.seq, x.1.wake)) = [(1, 3000000), (0, 5000000)] ∧
      (s.submitted.map Prod.fst).Pairwise InTurn := by
  have hrun : (exec (system Bool Unit) (.start Bool Unit) overtake).any
      (fun s => decide (s.submitted.map (fun x => (x.1.seq, x.1.wake)) = [(1, 3000000), (0, 5000000)])) = true := by
    decide +kernel
  obtain ⟨s, hs, hsubmitted⟩ := exists_run hrun
  exact ⟨s, hsubmitted, (sleepers_in_turn hs).1⟩

/-- **No sleeper is overslept**: when the sleep thread ends a pass, no sleeper that was due when it began is left; and
when it waits, and no notification is under way, it wakes by itself no later than the first sleeper is due, but for the
time that passed between its look at the clock and its wait. -/
theorem sleepers_attended (hs : Reachable (system A M) s) :
    (∀ now, s.thread = .rest now → ∀ e ∈ s.queue, now < e.wake) ∧
      ∀ read since wake, s.thread = .blocked read since wake → ¬s.Notifies →
        ∀ e ∈ s.queue, wake - (since - read) ≤ e.wake := by
  have hknows := (reachable_inv hs).knows
  refine ⟨fun now hpc => ?_, fun read since wake hpc => ?_⟩
  · rw [hpc] at hknows
    exact hknows.2
  · rw [hpc] at hknows
    exact hknows

theorem sleepers_attended_blocked : ∃ s : State Bool Unit, s.thread = .blocked 0 0 5000000 ∧ s.queue.length = 1 ∧
    ∀ e ∈ s.queue, 5000000 ≤ e.wake := by
  have hrun : (exec (system Bool Unit) (.start Bool Unit) fallAsleep).any
      (fun s => decide (s.thread = .blocked 0 0 5000000 ∧ s.queue.length = 1 ∧
        ∀ a, s.actor a ≠ .unlock ∧ s.actor a ≠ .notify)) = true := by decide +kernel
  obtain ⟨s, hs, hthread, hlength, hactor⟩ := exists_run hrun
  refine ⟨s, hthread, hlength, (sleepers_attended hs).2 0 0 5000000 hthread ?_⟩
  rintro ⟨a, ha | ha⟩
  · exact (hactor a).1 ha
  · exact (hactor a).2 ha

/-- **After `Shutdown`** has joined the sleep thread, no sleeper is submitted any more: who sleeps then, or goes to
sleep later, is in the queue for ever. -/
theorem sleepers_abandoned {u : State A M} {ls : List (Label A M)} (hs : Reachable (system A M) s)
    (hjoin : s.actor a = .join) (hst : (system A M).step s (.actor a) = some t)
    (hrun : exec (system A M) t ls = some u) :
    u.submitted = t.submitted ∧ ∀ e ∈ u.entries, e ∈ t.submitted.map Prod.fst ∨ e ∈ u.queue := by
  have ht : Reachable (system A M) t := .step hs trivial hst
  have hexited : t.thread = .exited := by
    simp only [system, SleepThread.step, hjoin] at hst
    obtain ⟨hexited, hst⟩ := Option.ite_none_right_eq_some.mp hst
    cases hst
    exact hexited
  have hsubmitted := exited_exec ht hexited hrun
  refine ⟨hsubmitted, fun e he => ?_⟩
  have hline := (reachable_inv (reachable_exec ht hrun)).mem_asleep he
  rw [hsubmitted] at hline
  exact hline.imp_right u.asleep_subset

theorem sleepers_abandoned_sleeper : ∃ u : State Bool Unit, u.clock = 5000000 ∧ u.submitted = [] ∧
    ∀ e ∈ u.entries, e ∈ u.queue := by
  have hrun : (exec (system Bool Unit) (.start Bool Unit) (fallAsleep ++ shutDown)).any
      (fun s => decide (s.actor false = .join ∧ s.thread = .exited ∧ s.clock = 0 ∧ s.submitted = [])) = true := by
    decide +kernel
  obtain ⟨s, hs, hjoin, hexited, hclock, hnone⟩ := exists_run hrun
  let t : State Bool Unit := { s with joinable := false }.goto false .idle
  have hst : (system Bool Unit).step s (.actor false) = some t := by
    simp only [system, SleepThread.step, hjoin, State.actorStep]
    exact if_pos hexited
  have htick : exec (system Bool Unit) t [.tick 5000000] = some { t with clock := t.clock + 5000000 } := by
    simp [exec, system, SleepThread.step, t, State.goto, hclock]
  obtain ⟨hsubmitted, hentries⟩ := sleepers_abandoned hs hjoin hst htick
  refine ⟨{ t with clock := t.clock + 5000000 }, ?_, hnone, fun e he => (hentries e he).resolve_left ?_⟩
  · simp [t, State.goto, hclock]
  · simp [t, State.goto, hnone]

end Steps

end Cothread.SleepThread
