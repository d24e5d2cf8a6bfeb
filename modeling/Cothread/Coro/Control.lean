import Cothread.Coro.Await
import Cothread.Lib.Once

/-!
# Coroutines: who is going to execute a coroutine

The invariant of every run, also of one in which a resumption is lost. A coroutine that is not done is in one place at
most: its meta is in one queue, or one worker has picked it or executes it, or it awaits (`control`). What the accesses
of `co_await` and `FinalAwaiter` rely on is `Relies`. A worker executes a coroutine under the coroutine's own meta, or
under that of one that is done, since `FinalAwaiter` keeps `current_coro_meta_` when it finds `awaiter_meta_` null.
-/

namespace Cothread.Coro

open Run Places

variable {C W : Type*}

/-- The coroutine that the worker is going to execute or executes. -/
def WorkerPc.drives : WorkerPc C → Option C
  | .storeRunning m | .enter m | .resume m => some m
  | .exec _ x | .storeState _ x _ | .publish _ x _ | .awaitReady _ x _ => some x
  | _ => none

/-- The coroutine whose final suspension the worker is in. -/
def WorkerPc.finishes : WorkerPc C → Option C
  | .readAwaiter _ x | .readMeta _ x _ | .transfer _ x _ => some x
  | _ => none

/-- The coroutine whose awaiter the worker is about to store. -/
def WorkerPc.registers : WorkerPc C → Option C
  | .storeAwaiter _ _ c => some c
  | _ => none

/-- The coroutines whose frames the worker's next access relies on. -/
def WorkerPc.needs : WorkerPc C → List C
  | .exec _ x | .storeState _ x _ | .publish _ x _ | .awaitReady _ x _ | .storeAwaiter _ x _ => [x]
  | .readMeta _ _ p | .transfer _ _ p => [p]
  | _ => []

def Frame.isAwaiting : Frame C → Bool
  | .awaiting _ => true
  | _ => false

/-- Where the next resumption of a coroutine comes from. -/
inductive Place (W : Type*)
  | queue
  | held
  | await
  | worker (w : W)

section Invariant

variable [DecidableEq C]

def State.control (s : State C W) (x : C) : Place W → ℕ
  | .queue => s.queued x
  | .held => s.held x
  | .await => if (s.frame x).isAwaiting then 1 else 0
  | .worker w => if (s.worker w).drives = some x then 1 else 0

omit [DecidableEq C] in
/-- `current_coro_meta_` is that of the coroutine, or of one that is done. -/
def State.Own (s : State C W) (w : W) (x : C) : Prop :=
  ∃ y, s.current w = some y ∧ (y = x ∨ s.frame y = .final)

omit [DecidableEq C] in
/-- What the worker's next access relies on. -/
def Relies (parent : C → Option C) (s : State C W) (w : W) : WorkerPc C → Prop
  | .resume m => s.Own w m
  | .exec _ x | .storeState _ x _ | .publish _ x _ => s.frame x = .running ∧ s.Own w x
  | .awaitReady _ x c => s.frame x = .running ∧ s.Own w x ∧ parent c = some x
  | .storeAwaiter _ x c => s.frame x = .awaiting c ∧ s.awaiter c = none ∧ s.Own w x ∧ parent c = some x
  | .storeMeta _ x c => s.Own w x ∧ parent c = some x
  | .readAwaiter _ x => s.frame x = .final ∧ s.Own w x
  | .readMeta _ x p => s.frame x = .final ∧ s.awaiter x = some p ∧ s.frame p = .awaiting x ∧ s.Own w x
  | .transfer _ x p => s.frame x = .final ∧ s.awaiter x = some p ∧ s.frame p = .awaiting x ∧ s.Own w p
  | _ => True

structure Inv (parent : C → Option C) (s : State C W) : Prop where
  once : ∀ x, s.frame x ≠ .final → Once (s.control x)
  unborn : ∀ x, s.frame x = .unborn → ∀ a, s.control x a = 0
  relies : ∀ w, Relies parent s w (s.worker w)
  finishing : ∀ w v x, (s.worker w).finishes = some x → (s.worker v).finishes = some x → w = v
  registering : ∀ w v c, (s.worker w).registers = some c → (s.worker v).registers = some c → w = v
  awaiter : ∀ c p, s.awaiter c = some p → parent c = some p ∧
    (s.frame p = .awaiting c ∨ s.frame c = .final ∧ ∀ w m, s.worker w ≠ .readAwaiter m c)
  awaiterMeta : ∀ c y, s.awaiterMeta c = some y → ∃ p, parent c = some p ∧ (y = p ∨ s.frame y = .final)
  counts : ∀ p c, s.resumes p c + (if s.frame p = .awaiting c then 1 else 0) = s.suspends p c
  resumed : ∀ p c, 0 < s.resumes p c → s.frame c = .final

end Invariant

section Frames

variable [DecidableEq C] {parent : C → Option C} {s t : State C W} {w v : W} {pc : WorkerPc C} {x y z c p : C}

omit [DecidableEq C] in
theorem State.Own.keep (h : s.Own w x) (hcur : t.current w = s.current w)
    (hfinal : ∀ y, s.frame y = .final → t.frame y = .final) : t.Own w x := by
  obtain ⟨y, hy, hyx⟩ := h
  exact ⟨y, hcur.trans hy, hyx.imp_right (hfinal y)⟩

/-- A frame that is not the one that was written was there before. -/
theorem frame_of_update {f g : Frame C} (hframe : t.frame = Function.update s.frame x f) (hne : f ≠ g)
    (h : t.frame y = g) : s.frame y = g := by
  rw [hframe] at h
  by_cases hy : y = x
  · subst hy
    rw [Function.update_self] at h
    exact absurd h hne
  · rwa [Function.update_of_ne hy] at h

omit [DecidableEq C] in
/-- What a worker relies on is kept by a step of another one. -/
theorem Relies.keep (h : Relies parent s w pc) (hcur : t.current w = s.current w)
    (hfinal : ∀ y, s.frame y = .final → t.frame y = .final) (hframe : ∀ y ∈ pc.needs, t.frame y = s.frame y)
    (hstored : ∀ c p, s.awaiter c = some p → t.awaiter c = some p)
    (hnull : ∀ c, pc.registers = some c → t.awaiter c = s.awaiter c) : Relies parent t w pc := by
  have hown : ∀ y, s.Own w y → t.Own w y := fun y hy => hy.keep hcur hfinal
  cases pc with
  | resume m => exact hown m h
  | exec m x | storeState m x k | publish m x k => exact ⟨(hframe x (by simp [WorkerPc.needs])).trans h.1, hown x h.2⟩
  | awaitReady m x c => exact ⟨(hframe x (by simp [WorkerPc.needs])).trans h.1, hown x h.2.1, h.2.2⟩
  | storeAwaiter m x c =>
    exact ⟨(hframe x (by simp [WorkerPc.needs])).trans h.1, (hnull c rfl).trans h.2.1, hown x h.2.2.1, h.2.2.2⟩
  | storeMeta m x c => exact ⟨hown x h.1, h.2⟩
  | readAwaiter m x => exact ⟨hfinal x h.1, hown x h.2⟩
  | readMeta m x p =>
    exact ⟨hfinal x h.1, hstored x p h.2.1, (hframe p (by simp [WorkerPc.needs])).trans h.2.2.1,
      hown x h.2.2.2⟩
  | transfer m x p =>
    exact ⟨hfinal x h.1, hstored x p h.2.1, (hframe p (by simp [WorkerPc.needs])).trans h.2.2.1,
      hown p h.2.2.2⟩
  | _ => trivial

omit [DecidableEq C] in
/-- A coroutine that finishes is done. -/
theorem Relies.final (h : Relies parent s w pc) (hx : pc.finishes = some x) : s.frame x = .final := by
  cases pc <;> cases hx <;> exact h.1

omit [DecidableEq C] in
/-- The awaiter that is about to be stored has suspended. -/
theorem Relies.registering (h : Relies parent s w pc) (hc : pc.registers = some c) :
    ∃ p, parent c = some p ∧ s.frame p = .awaiting c ∧ s.awaiter c = none := by
  cases pc <;> cases hc
  exact ⟨_, h.2.2.2, h.1, h.2.1⟩

/-- A worker that relies on a frame executes the coroutine, or the coroutine awaits. -/
theorem Relies.control_pos (h : Relies parent s w (s.worker w)) (hz : z ∈ (s.worker w).needs) :
    s.control z (.worker w) = 1 ∨ s.control z (.await : Place W) = 1 := by
  cases hpc : s.worker w with
  | exec m x | storeState m x k | publish m x k | awaitReady m x c =>
    rw [hpc] at hz
    left
    simp only [WorkerPc.needs, List.mem_singleton] at hz
    simp [State.control, hpc, WorkerPc.drives, hz]
  | storeAwaiter m x c =>
    rw [hpc] at hz h
    right
    simp only [WorkerPc.needs, List.mem_singleton] at hz
    simp [State.control, hz, h.1, Frame.isAwaiting]
  | readMeta m x p | transfer m x p =>
    rw [hpc] at hz h
    right
    simp only [WorkerPc.needs, List.mem_singleton] at hz
    simp [State.control, hz, h.2.2.1, Frame.isAwaiting]
  | _ => rw [hpc] at hz; cases hz

/-- While a worker is going to execute a coroutine or executes it, no other worker relies on its frame. -/
theorem Inv.alone (h : Inv parent s) (hz : s.frame z ≠ .final) (hw : (s.worker w).drives = some z) (hv : v ≠ w) :
    z ∉ (s.worker v).needs := by
  intro hm
  have hone : 0 < s.control z (.worker w) := by simp [State.control, hw]
  obtain hp | hp := (h.relies v).control_pos hm
  · have := (h.once z hz).unique hone (b := .worker v) (by omega)
    exact hv (Place.worker.inj this).symm
  · have := (h.once z hz).unique hone (b := .await) (by omega)
    cases this

variable [DecidableEq W]

theorem control_goto_le (hd : ∀ x, pc.drives = some x → (s.worker w).drives = some x) (x : C) (a : Place W) :
    (s.goto w pc).control x a ≤ s.control x a := by
  cases a with
  | worker v =>
    by_cases hv : v = w
    · subst hv
      simp only [State.control, State.goto, Function.update_self]
      split_ifs with h₁ h₂ <;> first | omega | exact absurd (hd x h₁) h₂
    · simp [State.control, State.goto, hv]
  | _ => exact le_rfl

/-- **An access that changes no frame**, and neither `awaiter_` nor `awaiter_meta_`. -/
theorem Inv.quiet (h : Inv parent s) (hworker : t.worker = Function.update s.worker w pc)
    (hframe : t.frame = s.frame) (hcur : ∀ v, v ≠ w → t.current v = s.current v) (haw : t.awaiter = s.awaiter)
    (hmeta : t.awaiterMeta = s.awaiterMeta) (hsus : t.suspends = s.suspends) (hres : t.resumes = s.resumes)
    (honce : ∀ x, s.frame x ≠ .final → Once (t.control x))
    (hunborn : ∀ x, s.frame x = .unborn → ∀ a, t.control x a = 0) (hmine : Relies parent t w pc)
    (hfin : ∀ x, pc.finishes = some x → (s.worker w).finishes = some x)
    (hreg : pc.registers = none) (hread : ∀ m x, pc ≠ .readAwaiter m x) : Inv parent t := by
  have hat : ∀ v, v ≠ w → t.worker v = s.worker v := fun v hv => by rw [hworker, Function.update_of_ne hv]
  have hself : t.worker w = pc := by rw [hworker, Function.update_self]
  have hfin' : ∀ v x, (t.worker v).finishes = some x → (s.worker v).finishes = some x := by
    intro v x hx
    by_cases hv : v = w
    · subst hv; exact hfin x (hself ▸ hx)
    · rwa [hat v hv] at hx
  have hreg' : ∀ v c, (t.worker v).registers = some c → (s.worker v).registers = some c := by
    intro v c hc
    by_cases hv : v = w
    · subst hv; rw [hself, hreg] at hc; cases hc
    · rwa [hat v hv] at hc
  refine ⟨fun x hx => honce x (hframe ▸ hx), fun x hx => hunborn x (hframe ▸ hx), fun v => ?_,
    fun v u x hv hu => h.finishing v u x (hfin' v x hv) (hfin' u x hu),
    fun v u c hv hu => h.registering v u c (hreg' v c hv) (hreg' u c hu), fun c p hc => ?_, ?_, ?_, ?_⟩
  · by_cases hv : v = w
    · subst hv; rw [hself]; exact hmine
    · rw [hat v hv]
      exact (h.relies v).keep (hcur v hv) (fun y hy => by rwa [hframe]) (fun y _ => by rw [hframe])
        (fun c p hc => by rwa [haw]) fun c _ => by rw [haw]
  · rw [haw] at hc
    obtain ⟨hp, hf⟩ := h.awaiter c p hc
    rw [hframe]
    refine ⟨hp, hf.imp_right fun ⟨hfc, hno⟩ => ⟨hfc, fun v m => ?_⟩⟩
    by_cases hv : v = w
    · subst hv; rw [hself]; exact hread m c
    · rw [hat v hv]; exact hno v m
  · rw [hmeta, hframe]; exact h.awaiterMeta
  · rw [hsus, hres, hframe]; exact h.counts
  · rw [hres, hframe]; exact h.resumed

/-- **An access that changes the frame of one coroutine**, on which no other worker relies. -/
theorem Inv.reframe (h : Inv parent s) (hworker : t.worker = Function.update s.worker w pc)
    (hframe : ∀ y, y ≠ z → t.frame y = s.frame y) (hz : s.frame z ≠ .final) (hcur : t.current = s.current)
    (haw : t.awaiter = s.awaiter) (hmeta : t.awaiterMeta = s.awaiterMeta)
    (halone : ∀ v, v ≠ w → z ∉ (s.worker v).needs) (honce : ∀ x, t.frame x ≠ .final → Once (t.control x))
    (hunborn : ∀ x, t.frame x = .unborn → ∀ a, t.control x a = 0) (hmine : Relies parent t w pc)
    (hfin : ∀ x, pc.finishes = some x → x = z)
    (hreg : ∀ c, pc.registers = some c → ∀ v, v ≠ w → (s.worker v).registers ≠ some c)
    (hawait : ∀ c, s.awaiter c = some z → s.frame z = .awaiting c →
      s.frame c = .final ∧ ∀ v, v ≠ w → ∀ m, s.worker v ≠ .readAwaiter m c)
    (hcounts : ∀ p c, t.resumes p c + (if t.frame p = .awaiting c then 1 else 0) = t.suspends p c)
    (hresumed : ∀ p c, 0 < t.resumes p c → s.frame c = .final) : Inv parent t := by
  have hat : ∀ v, v ≠ w → t.worker v = s.worker v := fun v hv => by rw [hworker, Function.update_of_ne hv]
  have hself : t.worker w = pc := by rw [hworker, Function.update_self]
  have hne : ∀ y, s.frame y = .final → y ≠ z := by
    rintro y hy rfl
    exact hz hy
  have hfinal : ∀ y, s.frame y = .final → t.frame y = .final := fun y hy => (hframe y (hne y hy)).trans hy
  have hbusy : ∀ v x, (s.worker v).finishes = some x → x ≠ z := fun v x hx => hne x ((h.relies v).final hx)
  have hread : ∀ m c, pc = .readAwaiter m c → c = z := fun m c hc => hfin c (hc ▸ rfl)
  refine ⟨honce, hunborn, fun v => ?_, fun v u x hv hu => ?_, fun v u c hv hu => ?_, fun c p hc => ?_, fun c y hc => ?_,
    hcounts, fun p c hp => hfinal c (hresumed p c hp)⟩
  · by_cases hv : v = w
    · subst hv; rw [hself]; exact hmine
    · rw [hat v hv]
      refine (h.relies v).keep (congrFun hcur v) hfinal (fun y hy => hframe y ?_) (fun c p hc => by rwa [haw])
        fun c _ => by rw [haw]
      rintro rfl
      exact halone v hv hy
  · by_cases hvw : v = w <;> by_cases huw : u = w
    · exact hvw.trans huw.symm
    · subst hvw
      rw [hself] at hv
      rw [hat u huw] at hu
      exact absurd (hfin x hv) (hbusy u x hu)
    · subst huw
      rw [hself] at hu
      rw [hat v hvw] at hv
      exact absurd (hfin x hu) (hbusy v x hv)
    · rw [hat v hvw] at hv
      rw [hat u huw] at hu
      exact h.finishing v u x hv hu
  · by_cases hvw : v = w <;> by_cases huw : u = w
    · exact hvw.trans huw.symm
    · subst hvw
      rw [hself] at hv
      rw [hat u huw] at hu
      exact absurd hu (hreg c hv u huw)
    · subst huw
      rw [hself] at hu
      rw [hat v hvw] at hv
      exact absurd hv (hreg c hu v hvw)
    · rw [hat v hvw] at hv
      rw [hat u huw] at hu
      exact h.registering v u c hv hu
  · rw [haw] at hc
    obtain ⟨hp, hf⟩ := h.awaiter c p hc
    have hlast : s.frame c = .final ∧ (∀ v, v ≠ w → ∀ m, s.worker v ≠ .readAwaiter m c) →
        t.frame c = .final ∧ ∀ v m, t.worker v ≠ .readAwaiter m c := by
      rintro ⟨hfc, hno⟩
      refine ⟨hfinal c hfc, fun v m hv => ?_⟩
      by_cases hvw : v = w
      · subst hvw
        exact hne c hfc (hread m c (hself ▸ hv))
      · exact hno v hvw m (hat v hvw ▸ hv)
    refine ⟨hp, ?_⟩
    obtain hpa | ⟨hfc, hno⟩ := hf
    · by_cases hpz : p = z
      · subst hpz
        exact Or.inr (hlast (hawait c hc hpa))
      · exact Or.inl ((hframe p hpz).trans hpa)
    · exact Or.inr (hlast ⟨hfc, fun v _ m => hno v m⟩)
  · rw [hmeta] at hc
    obtain ⟨p, hp, hy⟩ := h.awaiterMeta c y hc
    exact ⟨p, hp, hy.imp_right (hfinal y)⟩

omit [DecidableEq W] in
/-- `awaiter_` is stored. -/
theorem Inv.setAwaiter (h : Inv parent s) (hc : s.awaiter c = none) (hp : parent c = some p)
    (hframe : s.frame p = .awaiting c) (hreg : ∀ v, (s.worker v).registers ≠ some c) :
    Inv parent { s with awaiter := Function.update s.awaiter c (some p) } := by
  refine ⟨h.once, h.unborn, fun v => ?_, h.finishing, h.registering, fun c' p' hc' => ?_, h.awaiterMeta, h.counts,
    h.resumed⟩
  · refine (h.relies v).keep rfl (fun _ hy => hy) (fun _ _ => rfl) (fun c' p' hc' => ?_) fun c' hc' => ?_
    · refine (Function.update_of_ne ?_ _ _).trans hc'
      rintro rfl
      rw [hc] at hc'
      cases hc'
    · refine Function.update_of_ne ?_ _ _
      rintro rfl
      exact hreg v hc'
  · by_cases hcc : c' = c
    · subst hcc
      cases (by simpa using hc' : p = p')
      exact ⟨hp, Or.inl hframe⟩
    · exact h.awaiter c' p' (by simpa [hcc] using hc')

omit [DecidableEq W] in
/-- `awaiter_meta_` is stored. -/
theorem Inv.setAwaiterMeta (h : Inv parent s) {m : Option C}
    (hm : ∀ y, m = some y → ∃ p, parent c = some p ∧ (y = p ∨ s.frame y = .final)) :
    Inv parent { s with awaiterMeta := Function.update s.awaiterMeta c m } := by
  refine ⟨h.once, h.unborn, h.relies, h.finishing, h.registering, h.awaiter, fun c' y hc' => ?_, h.counts, h.resumed⟩
  by_cases hcc : c' = c
  · subst hcc
    exact hm y (by simpa using hc')
  · exact h.awaiterMeta c' y (by simpa [hcc] using hc')

/-- An access after which the worker still executes what it executed before, or nothing. -/
theorem Inv.goto (h : Inv parent s) (st : C → TaskState) (cur : W → Option C)
    (hcur : ∀ v, v ≠ w → cur v = s.current v) (hd : ∀ x, pc.drives = some x → (s.worker w).drives = some x)
    (hmine : Relies parent { s with current := cur } w pc)
    (hfin : ∀ x, pc.finishes = some x → (s.worker w).finishes = some x) (hreg : pc.registers = none)
    (hread : ∀ m x, pc ≠ .readAwaiter m x) : Inv parent ({ s with state := st, current := cur }.goto w pc) := by
  have hle := control_goto_le (s := s) hd
  refine h.quiet rfl rfl hcur rfl rfl rfl rfl (fun x hx => (h.once x hx).mono (hle x)) (fun x hx a => ?_) ?_ hfin hreg
    hread
  · exact Nat.le_zero.mp ((hle x a).trans (h.unborn x hx a).le)
  · exact hmine.keep rfl (fun _ hy => hy) (fun _ _ => rfl) (fun _ _ hc => hc) fun _ _ => rfl

omit [DecidableEq W] in
/-- The meta of a coroutine moves between the queues. -/
theorem Inv.requeue (h : Inv parent s) (st : C → TaskState) (queued held : C → ℕ)
    (hx : ∀ x, s.frame x ≠ .final → Once ({ s with queued := queued, held := held }.control x))
    (hu : ∀ x, s.frame x = .unborn → queued x = 0 ∧ held x = 0) :
    Inv parent { s with state := st, queued := queued, held := held } := by
  refine ⟨hx, fun x hx a => ?_, h.relies, h.finishing, h.registering, h.awaiter, h.awaiterMeta, h.counts, h.resumed⟩
  cases a with
  | queue => exact (hu x hx).1
  | held => exact (hu x hx).2
  | await => exact h.unborn x hx .await
  | worker w => exact h.unborn x hx (.worker w)

omit [DecidableEq W] in
/-- A waker or a timer submits a coroutine. -/
theorem Inv.wake (h : Inv parent s) {m : C} (hm : 0 < s.held m) :
    Inv parent ({ s with held := Function.update s.held m (s.held m - 1) }.give m .yield) := by
  have hborn : ∀ x, s.frame x = .unborn → x ≠ m := by
    rintro x hx rfl
    have := h.unborn x hx .held
    simp only [State.control] at this
    omega
  refine h.requeue (Function.update s.state m .ready) (Function.update s.queued m (s.queued m + 1))
    (Function.update s.held m (s.held m - 1)) (fun x hx => ?_) fun x hx => ?_
  · by_cases hxm : x = m
    · subst hxm
      refine (h.once x hx).move (a := .held) (b := .queue) nofun ?_ fun a ha hb => ?_
      · simp only [State.control, Function.update_self]
        omega
      · cases a <;> first | exact absurd rfl ha | exact absurd rfl hb | exact le_rfl
    · refine (h.once x hx).mono fun a => ?_
      cases a <;> simp [State.control, hxm]
  · simp only [Function.update_of_ne (hborn x hx)]
    exact ⟨h.unborn x hx .queue, h.unborn x hx .held⟩

omit [DecidableEq W] in
/-- A coroutine is spawned. -/
theorem Inv.spawn (h : Inv parent s) (hx : s.frame x = .unborn) :
    Inv parent ((s.setFrame x .suspended).give x .yield) := by
  have hzero := h.unborn x hx
  have hneed : ∀ v, x ∉ (s.worker v).needs := fun v hm => by
    obtain hp | hp := (h.relies v).control_pos hm <;> rw [hzero] at hp <;> cases hp
  have hframe : ∀ y, y ≠ x → Function.update s.frame x Frame.suspended y = s.frame y := fun y hy =>
    Function.update_of_ne hy _ _
  have hfinal : ∀ y, s.frame y = .final → Function.update s.frame x Frame.suspended y = .final := by
    intro y hy
    rw [hframe y ?_]
    · exact hy
    · rintro rfl
      rw [hx] at hy
      cases hy
  refine ⟨fun y hy => ?_, fun y hy a => ?_, fun v => ?_, h.finishing, h.registering, fun c p hc => ?_, fun c y hc => ?_,
    fun p c => ?_, fun p c hp => hfinal c (h.resumed p c hp)⟩
  · by_cases hyx : y = x
    · subst hyx
      refine Once.insert hzero (b := .queue) ?_ fun a ha => ?_
      · have := hzero .queue
        simp only [State.control] at this
        simp [State.control, State.give, State.setState, State.setFrame, this]
      · cases a with
        | queue => exact absurd rfl ha
        | await => simp [State.control, State.give, State.setState, State.setFrame, Frame.isAwaiting]
        | _ => exact le_rfl
    · refine (h.once y (hframe y hyx ▸ hy)).mono fun a => ?_
      cases a with
      | worker v => exact le_rfl
      | _ => simp [State.control, State.give, State.setState, State.setFrame, hyx]
  · have hyx : y ≠ x := by
      rintro rfl
      simp [State.give, State.setState, State.setFrame] at hy
    have := h.unborn y (hframe y hyx ▸ hy) a
    cases a with
    | worker v => exact this
    | _ => simpa [State.control, State.give, State.setState, State.setFrame, hyx] using this
  · refine (h.relies v).keep rfl hfinal (fun y hy => hframe y ?_) (fun _ _ hc => hc) fun _ _ => rfl
    rintro rfl
    exact hneed v hy
  · obtain ⟨hp, hf⟩ := h.awaiter c p hc
    refine ⟨hp, hf.imp (fun hf => ?_) fun hf => ⟨hfinal c hf.1, hf.2⟩⟩
    refine (hframe p ?_).trans hf
    rintro rfl
    rw [hx] at hf
    cases hf
  · obtain ⟨p, hp, hy⟩ := h.awaiterMeta c y hc
    exact ⟨p, hp, hy.imp_right (hfinal y)⟩
  · show s.resumes p c + (if Function.update s.frame x Frame.suspended p = .awaiting c then 1 else 0) = s.suspends p c
    rw [← h.counts p c]
    by_cases hpx : p = x
    · subst hpx
      simp [hx]
    · rw [hframe p hpx]

omit [DecidableEq C] [DecidableEq W] in
/-- A running coroutine awaits nobody. -/
theorem not_awaiting_of_running (hx : s.frame x = .running) (c : C) : s.frame x ≠ .awaiting c := by
  rw [hx]
  nofun

omit [DecidableEq W] in
/-- The books of suspensions and resumptions, when nobody begins or ends to await. -/
theorem Inv.counts_keep (h : Inv parent s) (hres : t.resumes = s.resumes) (hsus : t.suspends = s.suspends)
    (hframe : ∀ p c, t.frame p = .awaiting c ↔ s.frame p = .awaiting c) (p c : C) :
    t.resumes p c + (if t.frame p = .awaiting c then 1 else 0) = t.suspends p c := by
  rw [hres, hsus, ← h.counts p c]
  simp only [hframe]

/-- **A coroutine leaves the worker's hands for a place of its own**, or for none; every other coroutine stays where it
is. -/
theorem Inv.moved (h : Inv parent s) {f : Frame C} (hw : (s.worker w).drives = some x) (hx : s.frame x ≠ .final)
    (hworker : t.worker = Function.update s.worker w pc) (hframe : t.frame = Function.update s.frame x f)
    (hf : f ≠ .unborn) (hd : ∀ y, pc.drives = some y → y = x)
    (hrest : ∀ y, y ≠ x → s.frame y ≠ .final → t.queued y = s.queued y ∧ t.held y = s.held y)
    (hself : f ≠ .final → Once (t.control x)) :
    (∀ y, t.frame y ≠ .final → Once (t.control y)) ∧ ∀ y, t.frame y = .unborn → ∀ a, t.control y a = 0 := by
  have hat : ∀ y, y ≠ x → t.frame y = s.frame y := fun y hy => by rw [hframe, Function.update_of_ne hy]
  have hle : ∀ y, y ≠ x → s.frame y ≠ .final → ∀ a, t.control y a ≤ s.control y a := by
    intro y hy hfy a
    cases a with
    | queue => exact (hrest y hy hfy).1.le
    | held => exact (hrest y hy hfy).2.le
    | await => simp only [State.control, hat y hy, le_refl]
    | worker v =>
      by_cases hv : v = w
      · subst hv
        have hnd : pc.drives ≠ some y := fun hd' => hy (hd y hd')
        simp [State.control, hworker, hnd]
      · simp [State.control, hworker, hv]
  refine ⟨fun y hy => ?_, fun y hy a => ?_⟩
  · by_cases hyx : y = x
    · subst hyx
      refine hself fun hff => hy ?_
      rw [hframe, Function.update_self, hff]
    · have hfy : s.frame y ≠ .final := hat y hyx ▸ hy
      exact (h.once y hfy).mono (hle y hyx hfy)
  · have hyx : y ≠ x := by
      rintro rfl
      rw [hframe, Function.update_self] at hy
      exact hf hy
    have hfy : s.frame y = .unborn := hat y hyx ▸ hy
    exact Nat.le_zero.mp ((hle y hyx (by rw [hfy]; nofun) a).trans (h.unborn y hfy a).le)

end Frames

end Cothread.Coro
