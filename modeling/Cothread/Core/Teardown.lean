import Cothread.Core.IdleRegistry

/-!
# `Scheduler::Shutdown` and the pointers to its workers

`workers_atomic_` and the idle registry lead to workers, and `Shutdown` deletes the workers one after the other without
touching either: `WakeIdleWorkers` at the end of a `Submit` takes a worker from the registry, loads its pointer and
calls `WakeUp`; the steal loop of `PickTask` loads the pointers of all workers. `worker_count_` is stored only after the
last worker is deleted, and the timer thread is stopped only then. A deleted worker is used when its id is still in the
registry, or when another worker still looks for tasks (`deleted_used`). While `Shutdown` deletes a worker only when all
workers are past their last `PickTask` and the worker is neither in the registry nor in the hands of a call, no deleted
worker is used (`uses_no_deleted`); a deleted worker that is in the registry, or beside a worker that still looks for
tasks, can be used (`reached_used`, `stolen_used`).
-/

namespace Cothread.Teardown

open Run Chain
open Idle (Registry)

def MAX_WORKERS : ℕ := 256

/-- A thread: that of a worker, or another one (the timer thread with its callbacks, the threads of the program). -/
inductive Thread (E : Type*)
  | worker (i : ℕ)
  | other (e : E)
  deriving DecidableEq

/-- The next access of a thread. -/
inductive Pc
  | out  -- a worker is in its loop or runs a task, another thread is in no call
  -- `WakeIdleWorkers(1)`
  | loadHead  -- `PopIdleWorker`: `idle_head_.load()`
  | loadNext (w : ℕ)  -- `idle_next_[worker_id].load()`
  | casHead (w : ℕ) (next : Option ℕ)  -- the exchange of `idle_head_`
  | loadWorker (w : ℕ)  -- `workers_atomic_[idle_id].load()`
  | wakeUp (w : ℕ)  -- in `w->WakeUp()`
  -- the steal loop of `PickTask`
  | loadCount  -- `worker_count()`
  | getWorker (wc i : ℕ)  -- `GetWorker(victim)`
  | steal (w wc i : ℕ)  -- in `other->local_queue_.Steal()`
  -- `RegisterIdleWorker`
  | loadTop  -- `idle_head_.load()`
  | link (top : Option ℕ)  -- `idle_next_[worker_id].store(old_head)`
  | push (top : Option ℕ)  -- the exchange of `idle_head_`
  | ended  -- `Run` has returned, or is past its last `PickTask`
  deriving DecidableEq

/-- The next step of `Shutdown`. -/
inductive ShutPc
  | running  -- not called yet: `running_.store(false)`
  | stop (attempt : ℕ) (rest : List ℕ)  -- `w->Stop()`
  | join (rest : List ℕ)  -- `JoinThread(w->thread())`
  | delete (w : ℕ) (rest : List ℕ)  -- `delete w`
  | clear  -- `workers_.clear()`
  | storeCount  -- `worker_count_.store(0)`
  | stopTimer  -- `timer_thread_->Stop()`
  | done
  deriving DecidableEq

/-- A worker's id is its pointer too. -/
structure State (E : Type*) where
  registry : Registry ℕ
  atomic : ℕ → Option ℕ  -- `workers_atomic_`
  workers : List ℕ  -- `workers_`
  count : ℕ  -- `worker_count_`
  stopped : ℕ → Bool  -- `stop_flag_`
  deleted : ℕ → Bool
  shutdown : ShutPc
  pc : Thread E → Pc

inductive Label (E : Type*)
  | submit (t : Thread E)  -- `Submit` has pushed its task, and calls `WakeIdleWorkers(1)`; so does `EnqueueTask`
  | pick (i : ℕ)  -- `PickTask` has found nothing in its own queues and the global queue
  | register (i : ℕ)
  | exit (i : ℕ)  -- the last `PickTask`, after the loop, has returned
  | thread (t : Thread E)
  | finish (t : Thread E) (found : Bool)  -- the last access to the worker's fields: `Steal` has found a task, or not
  | shutdown
  deriving DecidableEq

variable {E : Type*}

/-- `n` workers run, none is idle. -/
def State.start (n : ℕ) : State E where
  registry := ⟨none, fun _ => none⟩
  atomic i := if i < n then some i else none
  workers := List.range n
  count := n
  stopped _ := false
  deleted _ := false
  shutdown := .running
  pc
    | .worker i => if i < n then .out else .ended
    | .other _ => .out

section Accesses

variable [DecidableEq E]

def State.goto (s : State E) (t : Thread E) (pc : Pc) : State E := { s with pc := Function.update s.pc t pc }

def State.setHead (s : State E) (head : Option ℕ) : State E := { s with registry := { s.registry with head := head } }

/-- `idle_next_[w] = p`. -/
def State.setNext (s : State E) (w : ℕ) (p : Option ℕ) : State E :=
  { s with registry := { s.registry with next := Function.update s.registry.next w p } }

/-- `PopIdleWorker` with the head that it has loaded. -/
def State.popFrom (s : State E) (t : Thread E) : Option ℕ → State E
  | none => s.goto t .out
  | some w => s.goto t (.loadNext w)

/-- `GetWorker`. -/
def State.worker (s : State E) (i : ℕ) : Option ℕ := if i < MAX_WORKERS then s.atomic i else none

/-- Turn `i` of the steal loop, which starts from the worker after `id`. -/
def State.steal (s : State E) (t : Thread E) (id wc i : ℕ) : State E :=
  if 2 * wc ≤ i then s.goto t .out
  else if ((id + 1) % wc + i) % wc = id then s.goto t (.getWorker wc (i + 1))
  else match s.worker (((id + 1) % wc + i) % wc) with
    | none => s.goto t (.getWorker wc (i + 1))
    | some w => s.goto t (.steal w wc i)

/-- One access of a thread of number `id`; `none` when the thread is in no call. -/
def State.access (s : State E) (t : Thread E) (id : ℕ) : Pc → Option (State E)
  | .out | .ended => none
  | .loadHead => some (s.popFrom t s.registry.head)
  | .loadNext w => some (s.goto t (.casHead w (s.registry.next w)))
  | .casHead w next => some
      (if s.registry.head = some w then (s.setHead next).goto t (.loadWorker w) else s.popFrom t s.registry.head)
  | .loadWorker w => some (match s.atomic w with
      | none => s.goto t .out
      | some w => s.goto t (.wakeUp w))
  | .wakeUp _ | .steal _ _ _ => some s  -- an access to the worker's fields
  | .loadCount => some (s.goto t (if s.count ≤ 1 then .out else .getWorker s.count 0))
  | .getWorker wc i => some (s.steal t id wc i)
  | .loadTop => some (s.goto t (.link s.registry.head))
  | .link top => some ((s.setNext id top).goto t (.push top))
  | .push top => some
      (if s.registry.head = top then (s.setHead (some id)).goto t .out else s.goto t (.link s.registry.head))

/-- One step of `Shutdown`; `none` when it has returned, or waits for a thread to end. -/
def State.shut (s : State E) : ShutPc → Option (State E)
  | .running => some { s with shutdown := .stop 0 s.workers }
  | .stop attempt (w :: rest) =>
    some { s with stopped := Function.update s.stopped w true, shutdown := .stop attempt rest }
  | .stop attempt [] =>
    some { s with shutdown := if attempt + 1 < 10 then .stop (attempt + 1) s.workers else .join s.workers }
  | .join (w :: rest) => if s.pc (.worker w) = .ended then some { s with shutdown := .delete w rest } else none
  | .delete w rest => some { s with deleted := Function.update s.deleted w true, shutdown := .join rest }
  | .join [] => some { s with shutdown := .clear }
  | .clear => some { s with workers := [], shutdown := .storeCount }
  | .storeCount => some { s with count := 0, shutdown := .stopTimer }
  | .stopTimer => some { s with shutdown := .done }
  | .done => none

/-- The number of a worker's thread. -/
def Thread.number : Thread E → ℕ
  | .worker i => i
  | .other _ => 0

/-- One step: nobody calls `Submit` after the timer thread has stopped. -/
def step (s : State E) : Label E → Option (State E)
  | .submit t => if s.pc t = .out ∧ s.shutdown ≠ .done then some (s.goto t .loadHead) else none
  | .pick i => if s.pc (.worker i) = .out then some (s.goto (.worker i) .loadCount) else none
  | .register i => if s.pc (.worker i) = .out then some (s.goto (.worker i) .loadTop) else none
  | .exit i => if s.pc (.worker i) = .out ∧ s.stopped i then some (s.goto (.worker i) .ended) else none
  | .thread t => s.access t t.number (s.pc t)
  | .finish t found => match s.pc t with
    | .wakeUp _ => some (s.goto t .out)
    | .steal _ wc i => some (s.goto t (if found then .out else .getWorker wc (i + 1)))
    | _ => none
  | .shutdown => s.shut s.shutdown

end Accesses

/-- A scheduler of `n` workers, and any other threads. -/
def system (E : Type*) [DecidableEq E] (n : ℕ) : System (State E) (Label E) where
  init s := s = .start n
  step := step

/-! ## What is in the hands of threads -/

/-- The worker whose pointer was loaded from `workers_atomic_`, and whose fields are accessed next. -/
def Pc.uses : Pc → Option ℕ
  | .wakeUp w | .steal w _ _ => some w
  | _ => none

/-- **No deleted worker is used.** -/
def Safe (s : State E) : Prop := ∀ t w, (s.pc t).uses = some w → s.deleted w = false

/-- A call of `WakeIdleWorkers` in progress has taken the worker, or leads to it. -/
def Pc.holds (next : ℕ → Option ℕ) (w : ℕ) : Pc → Prop
  | .loadNext v => Reaches next (some v) w
  | .casHead v p => v = w ∨ Reaches next p w
  | .loadWorker v | .wakeUp v => v = w
  | _ => False

/-- The worker is in the registry, or in the hands of a call. -/
def State.Held (s : State E) (w : ℕ) : Prop :=
  Reaches s.registry.next s.registry.head w ∨ ∃ t, (s.pc t).holds s.registry.next w

/-- `Shutdown` deletes a worker that can still be reached: the thread of some worker has not ended, or the worker is in
the registry or in the hands of a call. -/
def Early (s : State E) (l : Label E) : Prop :=
  l = .shutdown ∧ ∃ w rest, s.shutdown = .delete w rest ∧ ((∃ i, s.pc (.worker i) ≠ .ended) ∨ s.Held w)

/-! ## The invariant -/

/-- Where a thread that is no worker's can be. -/
def Pc.waking : Pc → Bool
  | .out | .loadHead | .loadNext _ | .casHead _ _ | .loadWorker _ | .wakeUp _ => true
  | _ => false

/-- Once a worker is deleted all workers' threads have ended, and no deleted worker can be reached. -/
structure Inv (s : State E) : Prop where
  atomic : ∀ i j, s.atomic i = some j → j = i
  waking : ∀ e, (s.pc (.other e)).waking
  ended : ∀ w, s.deleted w → ∀ i, s.pc (.worker i) = .ended
  free : ∀ w, s.deleted w → ¬s.Held w

section Steps

variable {s r t : State E} {u v : Thread E} {pc : Pc} {e : E} {i w : ℕ}

theorem inv_start (n : ℕ) : Inv (State.start n : State E) where
  atomic i j h := by
    simp only [State.start, Option.ite_none_right_eq_some, Option.some.injEq] at h
    exact h.2.symm
  waking _ := rfl
  ended _ h := nomatch h
  free _ h := nomatch h

/-- A deleted worker is reached neither from `idle_head_` nor by a call. -/
theorem Inv.not_reaches (h : Inv s) (hw : s.deleted w) : ¬Reaches s.registry.next s.registry.head w := by
  intro hr
  exact h.free w hw (.inl hr)

theorem Inv.not_holds (h : Inv s) (hw : s.deleted w) : ¬(s.pc u).holds s.registry.next w := by
  intro hu
  exact h.free w hw (.inr ⟨u, hu⟩)

/-- A step of a worker's thread: nothing is deleted yet. -/
theorem Inv.worker (h : Inv s) (hpc : s.pc (.worker i) ≠ .ended) (hat : t.atomic = s.atomic)
    (hdel : t.deleted = s.deleted) (hother : ∀ e, t.pc (.other e) = s.pc (.other e)) : Inv t where
  atomic := hat ▸ h.atomic
  waking e := hother e ▸ h.waking e
  ended w hw := absurd (h.ended w (hdel ▸ hw) i) hpc
  free w hw := absurd (h.ended w (hdel ▸ hw) i) hpc

/-- What is known of a deleted worker. -/
theorem Inv.clean (h : Inv s) (hw : s.deleted w) : (∀ i, s.pc (.worker i) = .ended) ∧ ¬s.Held w :=
  ⟨h.ended w hw, h.free w hw⟩

/-- A step of `Shutdown`: what is known of deleted workers is all that is at stake. -/
theorem Inv.shut (h : Inv s) (hreg : t.registry = s.registry) (hat : t.atomic = s.atomic) (hpcs : t.pc = s.pc)
    (hclean : ∀ w, t.deleted w → (∀ i, s.pc (.worker i) = .ended) ∧ ¬s.Held w) : Inv t where
  atomic := hat ▸ h.atomic
  waking := hpcs ▸ h.waking
  ended w hw := hpcs ▸ (hclean w hw).1
  free w hw := by
    unfold State.Held
    rw [hreg, hpcs]
    exact (hclean w hw).2

theorem Inv.safe (h : Inv s) : Safe s := by
  intro u w hu
  apply Bool.eq_false_iff.mpr
  intro hw
  cases u with
  | worker i =>
    rw [h.ended w hw i] at hu
    cases hu
  | other e =>
    have hno : ¬(s.pc (.other e)).holds s.registry.next w := h.not_holds hw
    have hwaking := h.waking e
    cases hpc : s.pc (.other e) with
    | wakeUp v =>
      rw [hpc] at hu hno
      cases hu
      exact hno rfl
    | steal v wc k =>
      rw [hpc] at hwaking
      cases hwaking
    | _ =>
      rw [hpc] at hu
      cases hu

/-- `Shutdown` leaves the registry, the pointers to the workers and the threads alone. -/
theorem shut_frame {p : ShutPc} (hst : s.shut p = some t) : t.registry = s.registry ∧ t.atomic = s.atomic ∧
    t.pc = s.pc ∧ (t.deleted = s.deleted ∨ ∃ w rest, p = .delete w rest ∧
      t.deleted = Function.update s.deleted w true) := by
  cases p with
  | running | clear | storeCount | stopTimer =>
    cases hst
    exact ⟨rfl, rfl, rfl, .inl rfl⟩
  | stop attempt rest =>
    cases rest <;> cases hst <;> exact ⟨rfl, rfl, rfl, .inl rfl⟩
  | join rest =>
    cases rest with
    | nil =>
      cases hst
      exact ⟨rfl, rfl, rfl, .inl rfl⟩
    | cons w rest =>
      obtain ⟨-, hst⟩ := Option.ite_none_right_eq_some.mp hst
      cases hst
      exact ⟨rfl, rfl, rfl, .inl rfl⟩
  | delete w rest =>
    cases hst
    exact ⟨rfl, rfl, rfl, .inr ⟨w, rest, rfl, rfl⟩⟩
  | done => cases hst

variable [DecidableEq E]

@[simp] theorem goto_self : (s.goto u pc).pc u = pc := Function.update_self ..

theorem goto_of_ne (h : v ≠ u) : (s.goto u pc).pc v = s.pc v := Function.update_of_ne h ..

theorem worker_goto : (s.goto (.other e) pc).pc (.worker i) = s.pc (.worker i) := by
  apply goto_of_ne
  intro h
  cases h

theorem other_goto : (s.goto (.worker i) pc).pc (.other e) = s.pc (.other e) := by
  apply goto_of_ne
  intro h
  cases h

/-- A step of another thread: a deleted worker is not reached from what it stores and holds. -/
theorem Inv.other (h : Inv s) (hat : r.atomic = s.atomic) (hdel : r.deleted = s.deleted) (hpcs : r.pc = s.pc)
    (hnext : r.registry.next = s.registry.next) (hw : pc.waking)
    (hhead : ∀ w, s.deleted w → ¬Reaches s.registry.next r.registry.head w)
    (hpc : ∀ w, s.deleted w → ¬pc.holds s.registry.next w) : Inv (r.goto (.other e) pc) where
  atomic := hat ▸ h.atomic
  waking x := by
    by_cases hx : x = e
    · rw [hx, goto_self]
      exact hw
    · rw [goto_of_ne fun hxe => hx (Thread.other.inj hxe), hpcs]
      exact h.waking x
  ended w hw i := by
    rw [worker_goto, hpcs]
    exact h.ended w (hdel ▸ hw) i
  free w hw := by
    have hw : s.deleted w = true := hdel ▸ hw
    rintro (hr | ⟨x, hx⟩)
    · apply hhead w hw
      rw [← hnext]
      exact hr
    · change ((r.goto (.other e) pc).pc x).holds r.registry.next w at hx
      rw [hnext] at hx
      by_cases hxe : x = .other e
      · rw [hxe, goto_self] at hx
        exact hpc w hw hx
      · rw [goto_of_ne hxe, hpcs] at hx
        exact h.not_holds hw hx

/-- `PopIdleWorker` goes on with the head that it has loaded. -/
theorem Inv.popFrom (h : Inv s) : Inv (s.popFrom (.other e) s.registry.head) := by
  unfold State.popFrom
  split
  case h_1 => exact h.other rfl rfl rfl rfl rfl (fun w hw => h.not_reaches hw) fun _ _ hx => hx
  case h_2 v hv =>
    refine h.other rfl rfl rfl rfl rfl (fun w hw => h.not_reaches hw) fun w hw hx => ?_
    apply h.not_reaches hw
    rw [hv]
    exact hx

/-- An access of a thread that is no worker's. -/
theorem inv_other (h : Inv s) (hst : s.access (.other e) i (s.pc (.other e)) = some t) : Inv t := by
  have hw := h.waking e
  have hno : ∀ w, s.deleted w = true → ¬(s.pc (.other e)).holds s.registry.next w := fun w hw => h.not_holds hw
  have hhead : ∀ w, s.deleted w = true → ¬Reaches s.registry.next s.registry.head w := fun w hw => h.not_reaches hw
  cases hpc : s.pc (.other e) with
  | out => rw [hpc] at hst; cases hst
  | loadHead =>
    rw [hpc] at hst
    cases hst
    exact h.popFrom
  | loadNext v =>
    rw [hpc] at hst hno
    cases hst
    refine h.other rfl rfl rfl rfl rfl hhead fun w hw hx => hno w hw ?_
    obtain rfl | hx := hx
    · exact .here v
    · exact .there hx
  | casHead v p =>
    rw [hpc] at hst hno
    cases hst
    split
    · refine h.other (r := s.setHead p) rfl rfl rfl rfl rfl (fun w hw hr => hno w hw (.inr hr)) fun w hw hx => ?_
      exact hno w hw (.inl hx)
    · exact h.popFrom
  | loadWorker v =>
    rw [hpc] at hst hno
    cases hst
    split
    · exact h.other rfl rfl rfl rfl rfl hhead fun _ _ hx => hx
    case h_2 x hx =>
      obtain rfl := h.atomic v x hx
      exact h.other rfl rfl rfl rfl rfl hhead hno
  | wakeUp v =>
    rw [hpc] at hst
    cases hst
    exact h
  | _ => rw [hpc] at hw; cases hw

/-- An access leaves the pointers to the workers, the deleted workers and other threads alone. -/
theorem access_frame (hst : s.access u i pc = some t) :
    t.atomic = s.atomic ∧ t.deleted = s.deleted ∧ t.count = s.count ∧ ∀ v, v ≠ u → t.pc v = s.pc v := by
  have hpop : ∀ p, (s.popFrom u p).atomic = s.atomic ∧ (s.popFrom u p).deleted = s.deleted ∧
      (s.popFrom u p).count = s.count ∧ ∀ v, v ≠ u → (s.popFrom u p).pc v = s.pc v := by
    intro p
    cases p <;> exact ⟨rfl, rfl, rfl, fun _ hv => goto_of_ne hv⟩
  cases pc with
  | out | ended => cases hst
  | loadHead =>
    cases hst
    exact hpop _
  | wakeUp w | steal w wc i =>
    cases hst
    exact ⟨rfl, rfl, rfl, fun _ _ => rfl⟩
  | loadNext w | loadCount | loadTop | link top =>
    cases hst
    exact ⟨rfl, rfl, rfl, fun _ hv => goto_of_ne hv⟩
  | casHead w p =>
    cases hst
    split
    · exact ⟨rfl, rfl, rfl, fun _ hv => goto_of_ne hv⟩
    · exact hpop _
  | loadWorker w | push top =>
    cases hst
    split <;> exact ⟨rfl, rfl, rfl, fun _ hv => goto_of_ne hv⟩
  | getWorker wc k =>
    cases hst
    unfold State.steal
    repeat' split
    all_goals exact ⟨rfl, rfl, rfl, fun _ hv => goto_of_ne hv⟩

/-- The thread of worker `i` has ended for good. -/
theorem ended_step {l : Label E} (h : s.pc (.worker i) = .ended)
    (hst : step s l = some t) : t.pc (.worker i) = .ended := by
  have hgoto : ∀ u pc, s.pc u ≠ .ended → (s.goto u pc).pc (.worker i) = .ended := by
    intro u pc hu
    rw [goto_of_ne]
    · exact h
    · rintro rfl
      exact hu h
  cases l with
  | submit u | exit u =>
    obtain ⟨⟨hpc, -⟩, hst⟩ := Option.ite_none_right_eq_some.mp hst
    cases hst
    exact hgoto _ _ (by rw [hpc]; nofun)
  | pick j | register j =>
    obtain ⟨hpc, hst⟩ := Option.ite_none_right_eq_some.mp hst
    cases hst
    exact hgoto _ _ (by rw [hpc]; nofun)
  | thread u =>
    obtain ⟨-, -, -, hframe⟩ := access_frame hst
    rw [hframe (.worker i)]
    · exact h
    · rintro rfl
      simp only [step, h] at hst
      cases hst
  | finish u found =>
    simp only [step] at hst
    split at hst
    case h_1 v hpc | h_2 v wc k hpc =>
      cases hst
      exact hgoto _ _ (by rw [hpc]; nofun)
    case h_3 => cases hst
  | shutdown =>
    obtain ⟨-, -, hpcs, -⟩ := shut_frame hst
    rw [hpcs]
    exact h

/-- **What every step preserves** that deletes no worker too early. -/
theorem inv_step {l : Label E} (h : Inv s) (hok : ¬Early s l) (hst : step s l = some t) : Inv t := by
  cases l with
  | submit u =>
    obtain ⟨⟨hpc, -⟩, hst⟩ := Option.ite_none_right_eq_some.mp hst
    cases hst
    cases u with
    | worker i => exact h.worker (i := i) (by rw [hpc]; nofun) rfl rfl fun e => other_goto
    | other e => exact h.other rfl rfl rfl rfl rfl (fun w hw => h.not_reaches hw) fun _ _ hx => hx
  | pick i | register i =>
    obtain ⟨hpc, hst⟩ := Option.ite_none_right_eq_some.mp hst
    cases hst
    exact h.worker (i := i) (by rw [hpc]; nofun) rfl rfl fun e => other_goto
  | exit i =>
    obtain ⟨⟨hpc, -⟩, hst⟩ := Option.ite_none_right_eq_some.mp hst
    cases hst
    exact h.worker (i := i) (by rw [hpc]; nofun) rfl rfl fun e => other_goto
  | thread u =>
    cases u with
    | worker i =>
      obtain ⟨hat, hdel, -, hother⟩ := access_frame hst
      refine h.worker (i := i) ?_ hat hdel fun e => hother _ nofun
      intro hpc
      simp only [step, hpc] at hst
      cases hst
    | other e => exact inv_other h hst
  | finish u found =>
    simp only [step] at hst
    split at hst
    case h_1 v hpc =>
      cases hst
      cases u with
      | worker i => exact h.worker (i := i) (by rw [hpc]; nofun) rfl rfl fun e => other_goto
      | other e => exact h.other rfl rfl rfl rfl rfl (fun w hw => h.not_reaches hw) fun _ _ hx => hx
    case h_2 v wc k hpc =>
      cases hst
      cases u with
      | worker i => exact h.worker (i := i) (by rw [hpc]; nofun) rfl rfl fun e => other_goto
      | other e =>
        have hw := h.waking e
        rw [hpc] at hw
        cases hw
    case h_3 => cases hst
  | shutdown =>
    obtain ⟨hreg, hat, hpcs, hdel | ⟨w, rest, hpc, hdel⟩⟩ := shut_frame hst
    · exact h.shut hreg hat hpcs fun v hv => h.clean (hdel ▸ hv)
    · have hclean : ¬((∃ i, s.pc (.worker i) ≠ .ended) ∨ s.Held w) := fun hc => hok ⟨rfl, w, rest, hpc, hc⟩
      obtain ⟨hended, hheld⟩ := not_or.mp hclean
      apply h.shut hreg hat hpcs
      intro v hv
      by_cases hvw : v = w
      · subst hvw
        exact ⟨fun i => not_not.mp fun hi => hended ⟨i, hi⟩, hheld⟩
      · rw [hdel, Function.update_of_ne hvw] at hv
        exact h.clean hv

/-! ## Deleted workers that can be reached -/

theorem goto_goto {pc' : Pc} : (s.goto u pc).goto u pc' = s.goto u pc' := by
  unfold State.goto
  rw [Function.update_idem]

theorem exec_of_step {l : Label E} (n : ℕ) (hst : step s l = some t) : exec (system E n) s [l] = some t := by
  show (step s l).bind _ = _
  rw [hst]
  rfl

/-- The next access of a thread at `pc`, as an execution. -/
theorem exec_goto (n : ℕ) (hst : (s.goto u pc).access u u.number pc = some t) :
    exec (system E n) (s.goto u pc) [.thread u] = some t := by
  apply exec_of_step
  show (s.goto u pc).access u u.number ((s.goto u pc).pc u) = some t
  rw [goto_self]
  exact hst

/-- A thread that is in no call pops the first worker of the registry, and loads its pointer. -/
theorem exec_pop (n : ℕ) (hpc : s.pc u = .out) (hsh : s.shutdown ≠ .done) (hhead : s.registry.head = some w) :
    ∃ ls, exec (system E n) s ls =
      some ((s.setHead (s.registry.next w)).goto u ((s.atomic w).elim .out .wakeUp)) := by
  have hsubmit : exec (system E n) s [.submit u] = some (s.goto u .loadHead) := exec_of_step n (if_pos ⟨hpc, hsh⟩)
  have hhead' : exec (system E n) (s.goto u .loadHead) [.thread u] = some (s.goto u (.loadNext w)) := by
    apply exec_goto
    show some ((s.goto u .loadHead).popFrom u s.registry.head) = _
    rw [hhead]
    exact congrArg some goto_goto
  have hnext : exec (system E n) (s.goto u (.loadNext w)) [.thread u] =
      some (s.goto u (.casHead w (s.registry.next w))) := exec_goto n (congrArg some goto_goto)
  have hcas : exec (system E n) (s.goto u (.casHead w (s.registry.next w))) [.thread u] =
      some ((s.setHead (s.registry.next w)).goto u (.loadWorker w)) := by
    apply exec_goto
    refine congrArg some ((if_pos hhead).trans ?_)
    exact goto_goto (s := s.setHead (s.registry.next w))
  have hload : exec (system E n) ((s.setHead (s.registry.next w)).goto u (.loadWorker w)) [.thread u] =
      some ((s.setHead (s.registry.next w)).goto u ((s.atomic w).elim .out .wakeUp)) := by
    apply exec_goto
    show some (match s.atomic w with | none => _ | some v => _) = _
    cases s.atomic w <;> exact congrArg some goto_goto
  exact ⟨_, exec_trans (exec_trans (exec_trans (exec_trans hsubmit hhead') hnext) hcas) hload⟩

/-- **A deleted worker that is in the registry is used** by the calls of `Submit` that come to it. -/
theorem reached_used (n : ℕ) (hr : Reaches s.registry.next s.registry.head w) (hat : s.atomic w = some w)
    (hdel : s.deleted w) (hpc : s.pc u = .out) (hsh : s.shutdown ≠ .done) :
    ∃ ls t, exec (system E n) s ls = some t ∧ ¬Safe t := by
  generalize hnext : s.registry.next = next at hr
  generalize hhead : s.registry.head = p at hr
  induction hr generalizing s with
  | here w =>
    obtain ⟨ls, hls⟩ := exec_pop n hpc hsh hhead
    rw [hat] at hls
    refine ⟨ls, _, hls, fun hsafe => ?_⟩
    have hw := hsafe u w (by rw [goto_self]; rfl)
    exact absurd hdel (Bool.eq_false_iff.mp hw)
  | there hr ih =>
    rename_i x y
    obtain ⟨ls, hls⟩ := exec_pop n hpc hsh hhead
    have hback : ∃ ls, exec (system E n) s ls = some ((s.setHead (s.registry.next y)).goto u .out) := by
      cases hy : s.atomic y with
      | none =>
        rw [hy] at hls
        exact ⟨ls, hls⟩
      | some v =>
        rw [hy] at hls
        refine ⟨ls ++ [.finish u true], exec_trans hls (exec_of_step n ?_)⟩
        simp only [step, goto_self, goto_goto, Option.elim_some]
    obtain ⟨ls, hls⟩ := hback
    obtain ⟨ls', t, hls', ht⟩ := ih (s := (s.setHead (s.registry.next y)).goto u .out) hat hdel goto_self hsh hnext
      (congrFun hnext y)
    exact ⟨ls ++ ls', t, exec_trans hls hls', ht⟩

/-- The steal loop comes to its turn for a deleted worker. -/
theorem turns_used (n d : ℕ) {k wc : ℕ} (hat : s.worker w = some w) (hdel : s.deleted w) (hne : w ≠ i)
    (hwc : k + d < 2 * wc) (hturn : ((i + 1) % wc + (k + d)) % wc = w) :
    ∃ ls t, exec (system E n) (s.goto (.worker i) (.getWorker wc k)) ls = some t ∧ ¬Safe t := by
  induction d generalizing k with
  | zero =>
    simp only [Nat.add_zero] at hwc hturn
    have hsteal : exec (system E n) (s.goto (.worker i) (.getWorker wc k)) [.thread (.worker i)] =
        some (s.goto (.worker i) (.steal w wc k)) := by
      apply exec_goto
      show some (State.steal _ _ i wc k) = _
      unfold State.steal
      rw [if_neg (by omega), hturn, if_neg hne, show (State.goto s _ _).worker w = some w from hat]
      exact congrArg some goto_goto
    refine ⟨_, _, hsteal, fun hsafe => ?_⟩
    have hw := hsafe (.worker i) w (by rw [goto_self]; rfl)
    exact absurd hdel (Bool.eq_false_iff.mp hw)
  | succ d ih =>
    have hnext : ∃ ls, exec (system E n) (s.goto (.worker i) (.getWorker wc k)) ls =
        some (s.goto (.worker i) (.getWorker wc (k + 1))) := by
      have hturn : (s.goto (.worker i) (.getWorker wc k)).access (.worker i) i (.getWorker wc k) =
          some ((s.goto (.worker i) (.getWorker wc k)).steal (.worker i) i wc k) := rfl
      unfold State.steal at hturn
      rw [if_neg (by omega)] at hturn
      split at hturn
      · rw [goto_goto] at hturn
        exact ⟨_, exec_goto n hturn⟩
      · split at hturn
        · rw [goto_goto] at hturn
          exact ⟨_, exec_goto n hturn⟩
        · rw [goto_goto] at hturn
          refine ⟨_, exec_trans (exec_goto n hturn) (exec_of_step (l := .finish (.worker i) false) n ?_)⟩
          simp only [step, goto_self, goto_goto, Bool.false_eq_true, if_false]
    obtain ⟨ls, hls⟩ := hnext
    obtain ⟨ls', t, hls', ht⟩ := ih (k := k + 1) (by omega) (by rw [← hturn]; congr 2; omega)
    exact ⟨ls ++ ls', t, exec_trans hls hls', ht⟩

/-- **A deleted worker is used by a worker that still looks for tasks**. -/
theorem stolen_used (n : ℕ) (hat : s.atomic w = some w) (hdel : s.deleted w) (hpc : s.pc (.worker i) = .out)
    (hne : w ≠ i) (hw : w < s.count) (hi : i < s.count) (hmax : s.count ≤ MAX_WORKERS) :
    ∃ ls t, exec (system E n) s ls = some t ∧ ¬Safe t := by
  have hpick : exec (system E n) s [.pick i] = some (s.goto (.worker i) .loadCount) := exec_of_step n (if_pos hpc)
  have hcount : exec (system E n) (s.goto (.worker i) .loadCount) [.thread (.worker i)] =
      some (s.goto (.worker i) (.getWorker s.count 0)) := by
    apply exec_goto
    show some ((s.goto (.worker i) .loadCount).goto _ (if s.count ≤ 1 then .out else .getWorker s.count 0)) = _
    rw [if_neg (by omega), goto_goto]
  have hworker : s.worker w = some w := (if_pos (by omega)).trans hat
  -- the number of turns that come before the turn of `w`
  obtain ⟨d, hd, hturn⟩ : ∃ d, 0 + d < 2 * s.count ∧ ((i + 1) % s.count + (0 + d)) % s.count = w := by
    have hstart : (i + 1) % s.count < s.count := Nat.mod_lt _ (by omega)
    generalize (i + 1) % s.count = start at hstart
    by_cases h : start ≤ w
    · exact ⟨w - start, by omega, by rw [Nat.mod_eq_of_lt] <;> omega⟩
    · refine ⟨w + s.count - start, by omega, ?_⟩
      rw [show start + (0 + (w + s.count - start)) = w + s.count by omega, Nat.add_mod_right, Nat.mod_eq_of_lt hw]
  obtain ⟨ls, t, hls, ht⟩ := turns_used n d hworker hdel hne hd hturn
  exact ⟨_, t, exec_trans (exec_trans hpick hcount) hls, ht⟩

end Steps

/-! ## Runs -/

/-- **No deleted worker is used** in the runs in which `Shutdown` deletes no worker too early. -/
theorem uses_no_deleted [DecidableEq E] (n : ℕ) (s : State E)
    (hs : Reach (system E n) (fun s l => ¬Early s l) s) : Safe s := by
  have hi : Inv s := by
    apply hs.invariant
    · rintro _ rfl
      exact inv_start n
    · intro s t l h hok hst
      exact inv_step h hok hst
  exact hi.safe

/-- All steps of `Shutdown` up to the loop that joins and deletes two workers. -/
def stopRun : List (Label Unit) := List.replicate 31 .shutdown

/-- `WakeIdleWorkers(1)`, up to `WakeUp`. -/
def wakeRun : List (Label Unit) := .submit (.other ()) :: List.replicate 4 (.thread (.other ()))

/-- Worker 0 is idle once, and is popped and woken. `Shutdown` deletes both workers after their threads have ended;
then a timer callback calls `Submit`. -/
def cleanRun : List (Label Unit) :=
  List.flatten [[.register 0], List.replicate 3 (.thread (.worker 0)), wakeRun, [.finish (.other ()) true], stopRun,
    [.exit 0, .exit 1], List.replicate 7 .shutdown, [.submit (.other ()), .thread (.other ())]]

/-- Worker 0 is idle once, and its thread ends; `Shutdown` deletes it. -/
def deletedRun : List (Label Unit) :=
  .register 0 :: List.replicate 3 (.thread (.worker 0)) ++ stopRun ++ [.exit 0, .shutdown, .shutdown]

/-- `Shutdown` deletes nothing before the other threads are done. -/
def deletesLate (s : State Unit) (l : Label Unit) : Bool :=
  match l, s.shutdown with
  | .shutdown, .delete _ _ => s.registry.head.isNone && s.pc (.worker 0) = .ended && s.pc (.worker 1) = .ended &&
    s.pc (.other ()) = .out
  | _, _ => true

/-- A run of two workers that end before `Shutdown` deletes them. -/
theorem uses_no_deleted_late : ∃ s : State Unit, s.deleted 0 = true ∧ s.deleted 1 = true ∧
    s.pc (.other ()) = .out ∧ s.shutdown = .stopTimer ∧ Safe s := by
  have hrun : (exec (system Unit 2) (State.start 2) cleanRun).any fun s => s.deleted 0 && s.deleted 1 &&
      s.pc (.other ()) = .out && s.shutdown = .stopTimer := by
    decide +kernel
  obtain ⟨s, hs, hprop⟩ := (Option.any_eq_true _ _).mp hrun
  simp only [Bool.and_eq_true, decide_eq_true_eq] at hprop
  obtain ⟨⟨⟨h0, h1⟩, hout⟩, hsh⟩ := hprop
  have hok : execOk (system Unit 2) (fun s l => deletesLate s l = true) (State.start 2) cleanRun = true := by
    decide +kernel
  have hclean : Reach (system Unit 2) (fun s l => deletesLate s l = true) s :=
    reach_exec (fun _ _ h => h) (.init rfl) hs hok
  -- the threads of workers 2, 3, ... have never started
  have hlate : ∀ s, Reach (system Unit 2) (fun s l => deletesLate s l = true) s →
      Reach (system Unit 2) (fun s l => ¬Early s l) s ∧ ∀ i, 2 ≤ i → s.pc (.worker i) = .ended := by
    intro s hs
    induction hs with
    | init h0 =>
      refine ⟨.init h0, fun i hi => ?_⟩
      rw [show _ = State.start 2 from h0]
      exact if_neg (by omega)
    | @step s t l hs hok hst ih =>
      refine ⟨.step ih.1 ?_ hst, fun i hi => ended_step (ih.2 i hi) hst⟩
      rintro ⟨rfl, w, rest, hpc, hearly⟩
      simp only [deletesLate, hpc, Bool.and_eq_true, decide_eq_true_eq, Option.isNone_iff_eq_none] at hok
      obtain ⟨⟨⟨hhead, hw0⟩, hw1⟩, hother⟩ := hok
      have hended : ∀ i, s.pc (.worker i) = .ended
        | 0 => hw0
        | 1 => hw1
        | i + 2 => ih.2 (i + 2) (by omega)
      obtain ⟨i, hi⟩ | hr | ⟨u, hu⟩ := hearly
      · exact hi (hended i)
      · rw [hhead] at hr
        cases hr
      · cases u with
        | worker i =>
          rw [hended i] at hu
          exact hu
        | other e =>
          rw [hother] at hu
          exact hu
  exact ⟨s, h0, h1, hout, hsh, uses_no_deleted 2 s (hlate s hclean).1⟩

/-- **A deleted worker is used**: `Submit` wakes it, or another worker steals from it. -/
theorem deleted_used : (¬∀ s, Reachable (system Unit 2) s → Safe s) ∧
    (∃ s, Reachable (system Unit 2) s ∧ s.pc (.other ()) = .wakeUp 0 ∧ s.deleted 0 = true) ∧
    ∃ s, Reachable (system Unit 2) s ∧ s.pc (.worker 1) = .steal 0 2 0 ∧ s.deleted 0 = true := by
  have hwake : (exec (system Unit 2) (State.start 2) (deletedRun ++ wakeRun)).any fun s =>
      s.pc (.other ()) = .wakeUp 0 ∧ s.deleted 0 := by
    decide +kernel
  have hsteal : (exec (system Unit 2) (State.start 2)
      (deletedRun ++ [.pick 1, .thread (.worker 1), .thread (.worker 1)])).any fun s =>
      s.pc (.worker 1) = .steal 0 2 0 ∧ s.deleted 0 := by
    decide +kernel
  obtain ⟨s, hs, hpc, hdel⟩ := of_exec_any hwake
  obtain ⟨t, ht, htprop⟩ := (Option.any_eq_true _ _).mp hsteal
  have hreach : Reachable (system Unit 2) s := reachable_exec (.init rfl) hs
  refine ⟨fun hsafe => ?_, ⟨s, hreach, hpc, hdel⟩, t, reachable_exec (.init rfl) ht, of_decide_eq_true htprop⟩
  have hno := hsafe s hreach (.other ()) 0 (by rw [hpc]; rfl)
  rw [hno] at hdel
  cases hdel

end Cothread.Teardown
