import Cothread.Coro.ControlSteps

/-!
# Coroutines: an awaiter is resumed exactly once

Whoever awaits is resumed by the final suspension of the awaited coroutine, once, in every run in which no final
suspension overlooks it: `FinalAwaiter` finds `awaiter_` null while the awaiter has found the coroutine not done and has
not stored itself yet (`Overlooked`). Then it is never resumed (`never_resumed`).
-/

namespace Cothread.Coro

open Run

variable {C W : Type*}

/-- The coroutine's final suspension is over. -/
def State.Passed (s : State C W) (c : C) : Prop := s.frame c = .final ∧ ∀ w, (s.worker w).finishes ≠ some c

/-- **Resumed exactly once**: a coroutine suspends on another one at most once, it is suspended until the final
suspension of that one has resumed it, and no final suspension passes it by. -/
def ResumedOnce [DecidableEq C] (s : State C W) : Prop :=
  ∀ p c, s.suspends p c ≤ 1 ∧ s.resumes p c + (if s.frame p = .awaiting c then 1 else 0) = s.suspends p c ∧
    (s.frame p = .awaiting c → ¬s.Passed c)

/-- A final suspension finds no awaiter while one is about to be stored. -/
def Overlooked (s : State C W) : Label C W → Prop
  | .worker v => ∃ m c, s.worker v = .readAwaiter m c ∧ s.awaiter c = none ∧
      ∃ w m' p, s.worker w = .storeAwaiter m' p c
  | _ => False

/-- Whoever awaits has been stored, or is going to be stored before the final suspension looks. -/
def Watched (s : State C W) : Prop :=
  ∀ p c, s.frame p = .awaiting c →
    (s.awaiter c = some p ∧ (s.frame c = .final → ∃ v, (s.worker v).finishes = some c)) ∨
      ((∃ w m, s.worker w = .storeAwaiter m p c) ∧ (s.frame c = .final → ∃ v m, s.worker v = .readAwaiter m c))

variable {s t : State C W} {w : W} {pc : WorkerPc C}

/-- A step that neither suspends nor resumes nor finishes a coroutine, nor stores or reads an awaiter. -/
theorem Watched.keep (h : Watched s) (hframe : ∀ p c, t.frame p = .awaiting c → s.frame p = .awaiting c)
    (hfinal : ∀ c, t.frame c = .final → s.frame c = .final) (haw : t.awaiter = s.awaiter)
    (hfin : ∀ v c, (s.worker v).finishes = some c → (t.worker v).finishes = some c)
    (hreg : ∀ v m p c, s.worker v = .storeAwaiter m p c → t.worker v = s.worker v)
    (hread : ∀ v m c, s.worker v = .readAwaiter m c → t.worker v = s.worker v) : Watched t := by
  intro p c hp
  rw [haw]
  refine (h p c (hframe p c hp)).imp (fun ⟨ha, hf⟩ => ⟨ha, fun hc => ?_⟩)
    fun ⟨⟨v, m, hv⟩, hf⟩ => ⟨⟨v, m, ?_⟩, fun hc => ?_⟩
  · obtain ⟨v, hv⟩ := hf (hfinal c hc)
    exact ⟨v, hfin v c hv⟩
  · rw [hreg v m p c hv, hv]
  · obtain ⟨v, m, hv⟩ := hf (hfinal c hc)
    exact ⟨v, m, (hread v m c hv).trans hv⟩

variable [DecidableEq W]

/-- An access of a worker that is neither in a final suspension nor about to store an awaiter. -/
theorem Watched.goto (h : Watched s) (hworker : t.worker = Function.update s.worker w pc)
    (hframe : ∀ p c, t.frame p = .awaiting c → s.frame p = .awaiting c)
    (hfinal : ∀ c, t.frame c = .final → s.frame c = .final) (haw : t.awaiter = s.awaiter)
    (hold : (s.worker w).finishes = none ∧ (s.worker w).registers = none) : Watched t := by
  have hat : ∀ v, v ≠ w → t.worker v = s.worker v := fun v hv => by rw [hworker, Function.update_of_ne hv]
  refine h.keep hframe hfinal haw (fun v c hv => ?_) (fun v m p c hv => hat v ?_) fun v m c hv => hat v ?_
  · rwa [hat v]
    rintro rfl
    rw [hold.1] at hv
    cases hv
  · rintro rfl
    rw [hv] at hold
    cases hold.2
  · rintro rfl
    rw [hv] at hold
    cases hold.1

variable [DecidableEq C] {parent : C → Option C}

omit [DecidableEq W] in
/-- Only the stored awaiter awaits a coroutine whose final suspension has found one. -/
theorem Watched.stored (h : Watched s) (hi : Inv parent s) {c p q : C} (hp : s.frame p = .awaiting c)
    (hq : s.awaiter c = some q) : p = q := by
  obtain ⟨ha, -⟩ | ⟨⟨v, m, hv⟩, -⟩ := h p c hp
  · exact Option.some.inj (ha.symm.trans hq)
  · obtain ⟨-, -, -, hnull⟩ := (hi.relies v).registering (c := c) (by rw [hv]; rfl)
    cases hnull.symm.trans hq

omit [DecidableEq C] in
/-- The pairs of whom a step of the worker does not concern. -/
theorem Watched.other (h : Watched s) {p c : C} (hworker : t.worker = Function.update s.worker w pc)
    (hp : s.frame p = .awaiting c) (hfinal : t.frame c = .final → s.frame c = .final)
    (haw : s.awaiter c = some p → t.awaiter c = some p) (hfin : (s.worker w).finishes ≠ some c)
    (hreg : (s.worker w).registers ≠ some c) :
    (t.awaiter c = some p ∧ (t.frame c = .final → ∃ v, (t.worker v).finishes = some c)) ∨
      ((∃ w m, t.worker w = .storeAwaiter m p c) ∧ (t.frame c = .final → ∃ v m, t.worker v = .readAwaiter m c)) := by
  have hat : ∀ v, (s.worker v).finishes = some c ∨ (s.worker v).registers = some c → t.worker v = s.worker v := by
    intro v hv
    rw [hworker, Function.update_of_ne]
    rintro rfl
    exact hv.elim hfin hreg
  refine (h p c hp).imp (fun ⟨ha, hf⟩ => ⟨haw ha, fun hc => ?_⟩) fun ⟨⟨v, m, hv⟩, hf⟩ => ⟨⟨v, m, ?_⟩, fun hc => ?_⟩
  · obtain ⟨v, hv⟩ := hf (hfinal hc)
    exact ⟨v, by rw [hat v (Or.inl hv), hv]⟩
  · exact (hat v (Or.inr (by rw [hv]; rfl))).trans hv
  · obtain ⟨v, m, hv⟩ := hf (hfinal hc)
    exact ⟨v, m, (hat v (Or.inl (by rw [hv]; rfl))).trans hv⟩

/-- A coroutine finds the one that it awaits not done. -/
theorem Watched.awaits (h : Watched s) {m x c : C} (hw : s.worker w = .awaitReady m x c) (hc : s.frame c ≠ .final)
    (hworker : t.worker = Function.update s.worker w (.storeAwaiter m x c))
    (hframe : t.frame = Function.update s.frame x (.awaiting c)) (haw : t.awaiter = s.awaiter) : Watched t := by
  intro p c' hp
  by_cases hpx : p = x
  · subst hpx
    rw [hframe, Function.update_self] at hp
    cases hp
    refine Or.inr ⟨⟨w, m, by rw [hworker, Function.update_self]⟩, fun hcf => ?_⟩
    have hcf' : s.frame c = .final := frame_of_update hframe nofun hcf
    exact absurd hcf' hc
  · rw [hframe, Function.update_of_ne hpx] at hp
    exact h.other hworker hp (frame_of_update hframe nofun) (fun ha => haw ▸ ha) (by rw [hw]; nofun) (by rw [hw]; nofun)

/-- The awaiter is stored. -/
theorem Watched.store (h : Watched s) (hi : Inv parent s) {m x c : C} (hw : s.worker w = .storeAwaiter m x c)
    (hworker : t.worker = Function.update s.worker w (.storeMeta m x c)) (hframe : t.frame = s.frame)
    (haw : t.awaiter = Function.update s.awaiter c (some x)) : Watched t := by
  intro p c' hp
  rw [hframe] at hp
  by_cases hcc : c' = c
  · subst hcc
    obtain ⟨q, hq, -, hnull⟩ := (hi.relies w).registering (c := c') (by rw [hw]; rfl)
    obtain ⟨ha, -⟩ | ⟨⟨v, m', hv⟩, hf⟩ := h p c' hp
    · cases hnull.symm.trans ha
    · cases hi.registering v w c' (by rw [hv]; rfl) (by rw [hw]; rfl)
      cases hw.symm.trans hv
      refine Or.inl ⟨by rw [haw, Function.update_self], fun hcf => ?_⟩
      obtain ⟨u, m', hu⟩ := hf (hframe ▸ hcf)
      refine ⟨u, ?_⟩
      rw [hworker, Function.update_of_ne, hu]
      · rfl
      · rintro rfl
        cases hw.symm.trans hu
  · refine h.other hworker hp (fun hf => hframe ▸ hf) (fun ha => ?_) (by rw [hw]; nofun) fun hr => ?_
    · rwa [haw, Function.update_of_ne hcc]
    · rw [hw] at hr
      exact hcc (Option.some.inj hr).symm

/-- A coroutine comes to its final suspend point. -/
theorem Watched.finish (h : Watched s) {m x : C} (hw : s.worker w = .exec m x)
    (hworker : t.worker = Function.update s.worker w (.readAwaiter m x))
    (hframe : t.frame = Function.update s.frame x .final) (haw : t.awaiter = s.awaiter) : Watched t := by
  intro p c hp
  have hp' : s.frame p = .awaiting c := frame_of_update hframe nofun hp
  by_cases hcx : c = x
  · subst hcx
    have hself : t.worker w = .readAwaiter m c := by rw [hworker, Function.update_self]
    refine (h p c hp').imp (fun ⟨ha, _⟩ => ⟨haw ▸ ha, fun _ => ⟨w, by rw [hself]; rfl⟩⟩) fun ⟨⟨v, m', hv⟩, _⟩ =>
      ⟨⟨v, m', ?_⟩, fun _ => ⟨w, m, hself⟩⟩
    rw [hworker, Function.update_of_ne, hv]
    rintro rfl
    cases hw.symm.trans hv
  · refine h.other hworker hp' (fun hf => ?_) (fun ha => haw ▸ ha) (by rw [hw]; nofun) (by rw [hw]; nofun)
    rwa [hframe, Function.update_of_ne hcx] at hf

/-- `FinalAwaiter` looks for an awaiter. -/
theorem Watched.look (h : Watched s) (hi : Inv parent s) {m x : C} (hw : s.worker w = .readAwaiter m x)
    (hok : ¬Overlooked s (.worker w)) (hst : s.workerStep w (.readAwaiter m x) = some t) : Watched t := by
  cases hst
  intro p c hp
  by_cases hcx : c = x
  · subst hcx
    obtain ⟨ha, -⟩ | ⟨⟨v, m', hv⟩, -⟩ := h p c hp
    · refine Or.inl ⟨ha, fun _ => ⟨w, ?_⟩⟩
      simp [State.goto, ha, WorkerPc.finishes]
    · obtain ⟨-, -, -, hnull⟩ := (hi.relies v).registering (c := c) (by rw [hv]; rfl)
      exact absurd ⟨m, c, hw, hnull, v, m', p, hv⟩ hok
  · refine h.other rfl hp (fun hf => hf) (fun ha => ha) (fun hf => ?_) (by rw [hw]; rintro ⟨⟩)
    rw [hw] at hf
    exact hcx (Option.some.inj hf).symm

/-- `FinalAwaiter` transfers to the awaiter. -/
theorem Watched.transfer (h : Watched s) (hi : Inv parent s) {m x q : C} (hw : s.worker w = .transfer m x q)
    (hworker : t.worker = Function.update s.worker w (.exec m q))
    (hframe : t.frame = Function.update s.frame q .running) (haw : t.awaiter = s.awaiter) : Watched t := by
  obtain ⟨-, hstored, -, -⟩ : Relies parent s w (.transfer m x q) := hw ▸ hi.relies w
  intro p c hp
  have hpq : p ≠ q := by
    rintro rfl
    rw [hframe, Function.update_self] at hp
    cases hp
  have hp' : s.frame p = .awaiting c := frame_of_update hframe nofun hp
  have hcx : c ≠ x := by
    rintro rfl
    exact hpq (h.stored hi hp' hstored)
  refine h.other hworker hp' (frame_of_update hframe nofun) (fun ha => haw ▸ ha) (fun hf => ?_) (by rw [hw]; nofun)
  rw [hw] at hf
  exact hcx (Option.some.inj hf).symm

/-- **What a worker's access preserves.** -/
theorem Watched.workerStep (h : Watched s) (hi : Inv parent s) (hok : ¬Overlooked s (.worker w))
    (hst : s.workerStep w (s.worker w) = some t) : Watched t := by
  cases hw : s.worker w with
  | idle | exec m x => rw [hw] at hst; cases hst
  | storeRunning m | enter m | storeMeta m x c | leave m | test m | storeFinished m =>
    rw [hw] at hst
    cases hst
    exact h.goto rfl (fun _ _ hp => hp) (fun _ hc => hc) rfl (by rw [hw]; exact ⟨rfl, rfl⟩)
  | resume m =>
    rw [hw] at hst
    simp only [State.workerStep] at hst
    split_ifs at hst <;> cases hst
    · exact h.goto rfl (fun _ _ hp => hp) (fun _ hc => hc) rfl (by rw [hw]; exact ⟨rfl, rfl⟩)
    · exact h.goto rfl (fun _ _ => frame_of_update rfl (by simp)) (fun _ => frame_of_update rfl (by simp)) rfl
        (by rw [hw]; exact ⟨rfl, rfl⟩)
  | storeState m x k =>
    rw [hw] at hst
    simp only [State.workerStep] at hst
    split at hst <;> cases hst <;>
      exact h.goto rfl (fun _ _ hp => hp) (fun _ hc => hc) rfl (by rw [hw]; exact ⟨rfl, rfl⟩)
  | publish m x k =>
    rw [hw] at hst
    simp only [State.workerStep] at hst
    split at hst <;> cases hst
    · cases k <;> exact h.goto rfl (fun _ _ => frame_of_update rfl (by simp)) (fun _ => frame_of_update rfl (by simp))
        rfl (by rw [hw]; exact ⟨rfl, rfl⟩)
    · exact h.goto rfl (fun _ _ hp => hp) (fun _ hc => hc) rfl (by rw [hw]; exact ⟨rfl, rfl⟩)
  | awaitReady m x c =>
    rw [hw] at hst
    simp only [State.workerStep] at hst
    split_ifs at hst with hc <;> cases hst
    · exact h.goto rfl (fun _ _ hp => hp) (fun _ hc => hc) rfl (by rw [hw]; exact ⟨rfl, rfl⟩)
    · exact h.awaits hw hc rfl rfl rfl
  | storeAwaiter m x c =>
    rw [hw] at hst
    cases hst
    exact h.store hi hw rfl rfl rfl
  | readAwaiter m x =>
    rw [hw] at hst
    exact h.look hi hw hok hst
  | readMeta m x p =>
    rw [hw] at hst
    cases hst
    have hrest : (((s.awaiterMeta x).elim s fun y => s.setCurrent w (some y)).goto w (.transfer m x p)).frame =
        s.frame ∧ (((s.awaiterMeta x).elim s fun y => s.setCurrent w (some y)).goto w (.transfer m x p)).awaiter =
        s.awaiter ∧ (((s.awaiterMeta x).elim s fun y => s.setCurrent w (some y)).goto w (.transfer m x p)).worker =
        Function.update s.worker w (.transfer m x p) := by
      cases s.awaiterMeta x <;> exact ⟨rfl, rfl, rfl⟩
    obtain ⟨hframe, haw, hworker⟩ := hrest
    refine h.keep (fun _ _ hp => by rwa [hframe] at hp) (fun _ hc => by rwa [hframe] at hc) haw (fun v c hv => ?_)
      (fun v m' q c hv => ?_) fun v m' c hv => ?_
    · by_cases hvw : v = w
      · subst hvw
        rw [hw] at hv
        rwa [hworker, Function.update_self]
      · rwa [hworker, Function.update_of_ne hvw]
    · rw [hworker, Function.update_of_ne]
      rintro rfl
      cases hw.symm.trans hv
    · rw [hworker, Function.update_of_ne]
      rintro rfl
      cases hw.symm.trans hv
  | transfer m x p =>
    rw [hw] at hst
    cases hst
    exact h.transfer hi hw rfl rfl rfl

/-- **What one step preserves**, unless it overlooks the awaiter. -/
theorem watched_step {l : Label C W} (h : Watched s) (hi : Inv parent s) (hok : ¬Overlooked s l)
    (hst : step parent s l = some t) : Watched t := by
  cases l with
  | spawn x =>
    obtain ⟨-, hst⟩ := Option.ite_none_right_eq_some.mp hst
    cases hst
    exact h.keep (fun _ _ => frame_of_update rfl nofun) (fun _ => frame_of_update rfl nofun) rfl
      (fun _ _ hv => hv) (fun _ _ _ _ _ => rfl) fun _ _ _ _ => rfl
  | pick w m =>
    obtain ⟨⟨hw, -⟩, hst⟩ := Option.ite_none_right_eq_some.mp hst
    cases hst
    exact h.goto rfl (fun _ _ hp => hp) (fun _ hc => hc) rfl (by rw [hw]; exact ⟨rfl, rfl⟩)
  | suspend w k =>
    simp only [step] at hst
    split at hst
    · next m x hw =>
      cases hst
      exact h.goto rfl (fun _ _ hp => hp) (fun _ hc => hc) rfl (by rw [hw]; exact ⟨rfl, rfl⟩)
    · cases hst
  | await w c =>
    simp only [step] at hst
    split at hst
    · next m x hw =>
      obtain ⟨-, hst⟩ := Option.ite_none_right_eq_some.mp hst
      cases hst
      exact h.goto rfl (fun _ _ hp => hp) (fun _ hc => hc) rfl (by rw [hw]; exact ⟨rfl, rfl⟩)
    · cases hst
  | finish w =>
    simp only [step] at hst
    split at hst
    · next m x hw =>
      cases hst
      exact h.finish hw rfl rfl rfl
    · cases hst
  | worker w => exact h.workerStep hi hok hst
  | wake m =>
    obtain ⟨-, hst⟩ := Option.ite_none_right_eq_some.mp hst
    cases hst
    exact h.keep (fun _ _ hp => hp) (fun _ hc => hc) rfl (fun _ _ hv => hv) (fun _ _ _ _ _ => rfl) fun _ _ _ _ => rfl

/-- Only an awaiter that finds the coroutine not done suspends on it. -/
theorem suspends_cases {l : Label C W} (hst : step parent s l = some t) :
    t.suspends = s.suspends ∨ ∃ w m x c, s.worker w = .awaitReady m x c ∧ s.frame c ≠ .final ∧
      t.suspends = Function.update s.suspends x (Function.update (s.suspends x) c (s.suspends x c + 1)) := by
  cases l with
  | spawn x | pick w m | wake m =>
    obtain ⟨-, hst⟩ := Option.ite_none_right_eq_some.mp hst
    cases hst
    exact Or.inl rfl
  | suspend w k | finish w =>
    simp only [step] at hst
    split at hst <;> cases hst
    exact Or.inl rfl
  | await w c =>
    simp only [step] at hst
    split at hst
    · obtain ⟨-, hst⟩ := Option.ite_none_right_eq_some.mp hst
      cases hst
      exact Or.inl rfl
    · cases hst
  | worker w =>
    simp only [step] at hst
    cases hw : s.worker w with
    | idle | exec m x => rw [hw] at hst; cases hst
    | awaitReady m x c =>
      rw [hw] at hst
      simp only [State.workerStep] at hst
      split_ifs at hst with hc <;> cases hst
      · exact Or.inl rfl
      · exact Or.inr ⟨w, m, x, c, hw, hc, rfl⟩
    | publish m x k =>
      rw [hw] at hst
      simp only [State.workerStep] at hst
      split at hst <;> cases hst
      · cases k <;> exact Or.inl rfl
      · exact Or.inl rfl
    | readMeta m x p =>
      rw [hw] at hst
      cases hst
      cases s.awaiterMeta x <;> exact Or.inl rfl
    | _ =>
      rw [hw] at hst
      simp only [State.workerStep] at hst
      try split at hst
      all_goals cases hst; exact Or.inl rfl

/-- A coroutine suspends on another one at most once: after that it goes on only when the other one is done. -/
theorem suspends_le_step {l : Label C W} (h : ∀ p c, s.suspends p c ≤ 1) (hi : Inv parent s)
    (hst : step parent s l = some t) (p c : C) : t.suspends p c ≤ 1 := by
  obtain hsus | ⟨w, m, x, d, hw, hd, hsus⟩ := suspends_cases hst
  · exact hsus ▸ h p c
  obtain ⟨hx, -, -⟩ : Relies parent s w (.awaitReady m x d) := hw ▸ hi.relies w
  have hcount := hi.counts x d
  rw [if_neg (by rw [hx]; nofun)] at hcount
  have hres : s.resumes x d = 0 := Nat.eq_zero_of_not_pos fun hpos => hd (hi.resumed x d hpos)
  rw [hsus]
  by_cases hp : p = x
  · subst hp
    by_cases hc : c = d
    · subst hc
      simp only [Function.update_self]
      omega
    · simpa [hc] using h p c
  · simpa [hp] using h p c

/-- **Resumed exactly once**, in every run in which no final suspension overlooks an awaiter. -/
theorem resumed_once (hs : Reach (system W parent) (fun s l => ¬Overlooked s l) s) : ResumedOnce s := by
  have hi : Inv parent s := reachable_inv hs.reachable
  have hw : Watched s := by
    refine hs.invariant_of (J := Inv parent) (fun _ hs => reachable_inv hs.reachable) ?_
      fun s t l hi h hok hst => watched_step h hi hok hst
    rintro _ rfl p c hp
    cases hp
  have hone : ∀ p c, s.suspends p c ≤ 1 := by
    refine hs.invariant_of (I := fun s => ∀ p c, s.suspends p c ≤ 1) (J := Inv parent)
      (fun _ hs => reachable_inv hs.reachable) ?_ fun s t l hi h _ hst => suspends_le_step h hi hst
    rintro _ rfl p c
    exact Nat.zero_le 1
  refine fun p c => ⟨hone p c, hi.counts p c, fun hp ⟨hc, hno⟩ => ?_⟩
  obtain ⟨-, hf⟩ | ⟨-, hf⟩ := hw p c hp
  · obtain ⟨v, hv⟩ := hf hc
    exact hno v hv
  · obtain ⟨v, m, hv⟩ := hf hc
    exact hno v (by rw [hv]; rfl)

/-- `FinalAwaiter` finds the awaiter. -/
def awaiterStored (s : State Bool Bool) : Label Bool Bool → Bool
  | .worker w => match s.worker w with
    | .readAwaiter _ c => (s.awaiter c).isSome
    | _ => true
  | _ => true

/-- The awaiter is stored before the second comes to its final suspend point, and is resumed. -/
theorem resumed_once_pair : ∃ s : State Bool Bool, s.frame true = .final ∧ s.frame false = .running ∧
    s.resumes false true = 1 ∧ ResumedOnce s := by
  have himp : ∀ s l, awaiterStored s l = true → ¬Overlooked s l := by
    intro s l h hov
    cases l with
    | worker w =>
      obtain ⟨m, c, hw, hnull, -⟩ := hov
      simp [awaiterStored, hw, hnull] at h
    | _ => exact hov
  exact ⟨_, rfl, rfl, rfl, resumed_once (reach_exec (M := system Bool pair) himp (.init rfl) (show
    exec (system Bool pair) .start (meet ++ [.worker false, .worker false, .finish true, .worker true, .worker true,
      .worker true]) = some _ from rfl) (by decide))⟩

/-- **Never resumed**: the second comes to its final suspend point and finds `awaiter_` null after the first has found
it not done and before the first stores itself. No worker has anything left to do, and the first awaits for ever. -/
theorem never_resumed : ∃ s : State Bool Bool, Reachable (system Bool pair) s ∧ s.frame false = .awaiting true ∧
    s.Passed true ∧ (∀ w, s.worker w = .idle) ∧ (∀ x, s.queued x = 0 ∧ s.held x = 0) ∧ ¬ResumedOnce s := by
  refine ⟨_, reachable_exec (.init rfl) (show exec (system Bool pair) .start (meet ++ [.finish true, .worker true,
    .worker false, .worker false, .worker false, .worker false, .worker true, .worker true, .worker true]) = some _
    from rfl), rfl, ⟨rfl, by decide⟩, by decide, by decide, fun h => (h false true).2.2 rfl ⟨rfl, by decide⟩⟩

end Cothread.Coro
