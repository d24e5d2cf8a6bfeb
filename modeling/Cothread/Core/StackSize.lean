import Cothread.Core.TaskSteps
import Cothread.Core.TaskTaken

/-!
# Stacks: what a task asks for and what it gets

A recycled `TaskMeta` keeps its stack and its `stack_size`, and `bthread_create` and `spawn` allocate a stack only when
there is none; `spawn` goes on without one when `AllocateStack` fails. The pools of the workers are always empty, so
`stack_size` is always the size with which the stack was allocated, also when it is freed. A task starts on a stack of
at least the requested size just when its `TaskMeta` has no smaller one (`stacks_iff`).
-/

namespace Cothread.TaskLife

open Run

variable {W : Type*}

/-- The task started on a stack of at least the requested size, and `stack_size` is the size of the stack. -/
def Begun.Served (b : Begun) : Prop :=
  ∃ st, b.stack = some st ∧ b.requested ≤ st.requestedSize ∧ b.stackSize = st.requestedSize

/-- **Stacks are large enough**: every task has started on a stack of at least the requested size, and stacks are freed
with the size that they were allocated with. -/
structure Adequate (s : State W) : Prop where
  begun : ∀ b ∈ s.begun, b.Served
  freed : ∀ p ∈ s.freed ++ s.destroy, p.2 = p.1.requestedSize

/-- The `TaskMeta` that `bthread_create` or `spawn` takes has no stack that is smaller than the requested one, and
`spawn` gets one when there is none. -/
def Suits (s : State W) : Label W → Prop
  | .create w attr (some _) _ _ =>
    ∀ slot ∈ s.nextSlot w, ∀ st ∈ (s.getMeta slot).stack, attr.getD stackSizeDefault ≤ st.requestedSize
  | .spawn _ _ ok => ∀ slot ∈ s.free.head?,
    ((s.getMeta slot).stack = none → ok = true) ∧
      ∀ st ∈ (s.getMeta slot).stack, stackSizeDefault ≤ st.requestedSize
  | _ => True

instance [DecidableEq W] (s : State W) : ∀ l, Decidable (Suits s l)
  | .create w attr (some _) _ _ => inferInstanceAs (Decidable (∀ slot ∈ s.nextSlot w,
    ∀ st ∈ (s.getMeta slot).stack, attr.getD stackSizeDefault ≤ st.requestedSize))
  | .spawn _ _ ok => inferInstanceAs (Decidable (∀ slot ∈ s.free.head?,
    ((s.getMeta slot).stack = none → ok = true) ∧ ∀ st ∈ (s.getMeta slot).stack, stackSizeDefault ≤ st.requestedSize))
  | .create _ _ none _ _ | .run _ | .wait .. | .wake .. | .fire .. | .finish .. | .handle .. | .join .. | .taskJoin _
  | .joiner .. | .detach _ | .taskDetach _ | .drain _ => .isTrue trivial

/-! ## The invariant -/

structure StackInv (s : State W) : Prop where
  pools : ∀ w, s.stackPool w = []
  sizes : ∀ slot, ∀ st ∈ (s.getMeta slot).stack, (s.getMeta slot).stackSize = st.requestedSize
  freed : ∀ p ∈ s.freed, p.2 = p.1.requestedSize

/-- The stacks stay where they are. -/
structure SameStacks (s t : State W) : Prop where
  pools : t.stackPool = s.stackPool
  freed : t.freed = s.freed
  begun : t.begun = s.begun
  stack : ∀ slot, (t.getMeta slot).stack = (s.getMeta slot).stack
  size : ∀ slot, (t.getMeta slot).stackSize = (s.getMeta slot).stackSize

section Steps

variable {s t u : State W} {slot : ℕ}

/-- Nothing but the lists changes. -/
theorem SameStacks.lists (hpools : t.stackPool = s.stackPool) (hfreed : t.freed = s.freed) (hbegun : t.begun = s.begun)
    (hpool : t.pool = s.pool) (hgens : t.generations = s.generations) : SameStacks s t := by
  have hmeta : t.getMeta = s.getMeta := by
    funext a
    rw [State.getMeta, State.getMeta, hpool, hgens]
  exact ⟨hpools, hfreed, hbegun, fun a => by rw [hmeta], fun a => by rw [hmeta]⟩

theorem SameStacks.trans (h : SameStacks s t) (h' : SameStacks t u) : SameStacks s u where
  pools := h'.pools.trans h.pools
  freed := h'.freed.trans h.freed
  begun := h'.begun.trans h.begun
  stack a := (h'.stack a).trans (h.stack a)
  size a := (h'.size a).trans (h.size a)

theorem StackInv.same (h : StackInv s) (hst : SameStacks s t) : StackInv t where
  pools w := by rw [hst.pools, h.pools]
  sizes a st hm := by
    rw [hst.stack] at hm
    rw [hst.size]
    exact h.sizes a st hm
  freed p hp := h.freed p (hst.freed ▸ hp)

/-- The fields of a `TaskMeta` change, but not its stack. -/
theorem sameStacks_setMeta {m : TaskMeta} (hstack : m.stack = (s.getMeta slot).stack)
    (hsize : m.stackSize = (s.getMeta slot).stackSize) : SameStacks s (s.setMeta slot m) := by
  have hmeta : ∀ a, ((s.setMeta slot m).getMeta a).stack = (s.getMeta a).stack ∧
      ((s.setMeta slot m).getMeta a).stackSize = (s.getMeta a).stackSize := by
    intro a
    by_cases ha : a = slot
    · rw [ha, getMeta_setMeta_self]
      exact ⟨hstack, hsize⟩
    · rw [getMeta_setMeta_of_ne s m ha]
      exact ⟨rfl, rfl⟩
  exact ⟨rfl, rfl, rfl, fun a => (hmeta a).1, fun a => (hmeta a).2⟩

theorem sameStacks_dealloc (s : State W) (slot : ℕ) : SameStacks s (s.deallocTaskMeta slot) := by
  have hmeta : ∀ a, ((s.deallocTaskMeta slot).getMeta a).stack = (s.getMeta a).stack ∧
      ((s.deallocTaskMeta slot).getMeta a).stackSize = (s.getMeta a).stackSize := by
    intro a
    by_cases ha : a = slot
    · rw [ha, getMeta_dealloc_self]
      exact ⟨rfl, rfl⟩
    · rw [getMeta_dealloc_of_ne ha]
      exact ⟨rfl, rfl⟩
  exact ⟨rfl, rfl, rfl, fun a => (hmeta a).1, fun a => (hmeta a).2⟩

variable [DecidableEq W]

theorem respects_sameStacks : Respects (SameStacks (W := W)) where
  refl _ := .lists rfl rfl rfl rfl rfl
  trans := .trans
  writes _ _ _ _ _ _ := sameStacks_setMeta rfl rfl
  lists _ _ _ _ _ _ := .lists rfl rfl rfl rfl rfl
  cache _ _ _ := .lists rfl rfl rfl rfl rfl
  dealloc := sameStacks_dealloc

theorem sameStacks_taken (h : Taken s slot t) : SameStacks s t := by
  have hmeta : ∀ a, (t.getMeta a).stack = (s.getMeta a).stack ∧ (t.getMeta a).stackSize = (s.getMeta a).stackSize := by
    intro a
    obtain ⟨g, ha⟩ := h.getMeta a
    rw [ha]
    exact ⟨rfl, rfl⟩
  refine ⟨?_, ?_, ?_, fun a => (hmeta a).1, fun a => (hmeta a).2⟩ <;> cases h <;> rfl

/-- The exchange of the join butex. -/
theorem sameStacks_createButex (s : State W) (w : Option W) {c : Call} (hc : c.pc = .createButex) :
    SameStacks s (s.access w c) := by
  obtain ⟨kind, slot, pc⟩ := c
  cases hc
  have hmeta : SameStacks s (s.setMeta slot { s.getMeta slot with joinButex := some s.butexCount }) :=
    sameStacks_setMeta rfl rfl
  simp only [State.access]
  split_ifs
  · exact hmeta.trans (.lists rfl rfl rfl rfl rfl)
  · exact .lists rfl rfl rfl rfl rfl

/-- `~Worker` frees no stack, and deallocates the cache. -/
theorem sameStacks_drain (h : StackInv s) (w : W) : SameStacks s ((s.drainStackPool w).drainTaskCache w) := by
  have hpool : SameStacks s (s.drainStackPool w) := by
    refine .lists ?_ ?_ rfl rfl rfl
    · funext v
      simp only [State.drainStackPool, h.pools, Function.update_apply, ite_self]
    · simp only [State.drainStackPool, h.pools, List.map_nil, List.nil_append]
  exact hpool.trans (respects_sameStacks.drainTaskCache _ w)

/-! ## The creation of a task -/

/-- The stacks fit after the step, which has created a task that is served just when the step suits, or none. -/
def Notes (s t : State W) (l : Label W) : Prop :=
  StackInv t ∧ (t.begun = s.begun ∧ Suits s l ∨ ∃ b, t.begun = b :: s.begun ∧ (b.Served ↔ Suits s l))

omit [DecidableEq W] in
theorem SameStacks.notes {l : Label W} (h : StackInv s) (hst : SameStacks s t) (hl : Suits s l) : Notes s t l :=
  ⟨h.same hst, .inl ⟨hst.begun, hl⟩⟩

omit [DecidableEq W] in
theorem StackInv.begin (h : StackInv s) (slot size fn : ℕ) (arg : Option ℕ) : StackInv (s.begin slot size fn arg) := by
  have hsame : SameStacks s (s.setMeta slot { s.getMeta slot with
      fn := some fn, arg := arg, result := none, refCount := 2, joinWaiters := 0, joinButex := none
      waiter := { (s.getMeta slot).waiter with taskState := .ready } }) := sameStacks_setMeta rfl rfl
  have hset := h.same hsame
  exact ⟨hset.pools, hset.sizes, hset.freed⟩

theorem served_iff {n k : ℕ} {st : Stack} (hsize : k = st.requestedSize) :
    Begun.Served ⟨n, some st, k⟩ ↔ n ≤ st.requestedSize := by
  constructor
  · rintro ⟨st', hst', hle, -⟩
    cases hst'
    exact hle
  · exact fun hle => ⟨st, rfl, hle, hsize⟩

omit [DecidableEq W] in
/-- The task is enqueued. -/
theorem StackInv.begins (h : StackInv t) (hbegun : t.begun = s.begun) {st : Stack} {size fn : ℕ} {arg : Option ℕ}
    {l : Label W} (hstack : (t.getMeta slot).stack = some st) (hl : size ≤ st.requestedSize ↔ Suits s l) :
    Notes s (t.begin slot size fn arg) l := by
  have hsize := h.sizes slot st hstack
  refine ⟨h.begin slot size fn arg, .inr ⟨⟨size, some st, (t.getMeta slot).stackSize⟩, ?_, ?_⟩⟩
  · rw [← hstack, ← hbegun]
    rfl
  · rw [served_iff hsize]
    exact hl

theorem StackInv.create (h : StackInv s) (w : Option W) (attr fn arg : Option ℕ) (ok : Bool) :
    Notes s (s.create w attr fn arg ok).1 (.create w attr fn arg ok) := by
  cases fn with
  | none => exact SameStacks.notes h (.lists rfl rfl rfl rfl rfl) trivial
  | some fn =>
    have hcreated := create_cases s w attr fn arg ok
    generalize s.create w attr (some fn) arg ok = r at hcreated ⊢
    have hsuits : ∀ {slot}, s.nextSlot w = some slot → (Suits s (.create w attr (some fn) arg ok) ↔
        ∀ st ∈ (s.getMeta slot).stack, attr.getD stackSizeDefault ≤ st.requestedSize) := by
      intro slot hnext
      simp only [Suits, hnext, Option.mem_some_iff, forall_eq']
    cases hcreated with
    | refused hnext =>
      exact SameStacks.notes h (.lists rfl rfl rfl rfl rfl) (by simp only [Suits, hnext, Option.not_mem_none,
        false_implies, implies_true])
    | @own t slot st hnext htaken hstack =>
      have hsame := sameStacks_taken htaken
      have ht := h.same hsame
      refine ht.begins hsame.begun hstack ?_
      rw [hsuits hnext, ← hsame.stack slot, hstack]
      simp only [Option.mem_some_iff, forall_eq']
    | @new t u slot st hnext htaken hstack hgot =>
      have hsame := sameStacks_taken htaken
      have ht := h.same hsame
      cases hgot with
      | pooled hpool _ => cases hpool.symm.trans (ht.pools _)
      | new =>
        have hset : StackInv (State.setMeta { t with stackCount := t.stackCount + 1 } slot { t.getMeta slot with
            stack := some ⟨t.stackCount, attr.getD stackSizeDefault⟩, stackSize := attr.getD stackSizeDefault }) := by
          refine ⟨ht.pools, fun a st hst => ?_, ht.freed⟩
          by_cases ha : a = slot
          · subst ha
            rw [getMeta_setMeta_self] at hst ⊢
            cases hst
            rfl
          · rw [getMeta_setMeta_of_ne _ _ ha] at hst ⊢
            exact ht.sizes a st hst
        refine hset.begins hsame.begun (congrArg TaskMeta.stack (getMeta_setMeta_self _ _)) ?_
        rw [hsuits hnext, ← hsame.stack slot, hstack]
        exact iff_of_true (Nat.le_refl _) nofun
    | @failed t slot hnext htaken hstack =>
      have hsame := sameStacks_taken htaken
      refine SameStacks.notes h (hsame.trans (sameStacks_dealloc t slot)) ?_
      rw [hsuits hnext, ← hsame.stack slot, hstack]
      exact nofun

omit [DecidableEq W] in
theorem StackInv.spawn (h : StackInv s) (fn arg : ℕ) (ok : Bool) : Notes s (s.spawn fn arg ok) (.spawn fn arg ok) := by
  cases hfree : s.free with
  | nil =>
    rw [State.spawn, allocTaskMeta_nil hfree]
    exact SameStacks.notes h (.lists rfl rfl rfl rfl rfl) (by simp only [Suits, hfree, List.head?_nil,
      Option.not_mem_none, false_implies, implies_true])
  | cons slot free =>
    have hsuits : Suits s (.spawn fn arg ok) ↔ ((s.getMeta slot).stack = none → ok = true) ∧
        ∀ st ∈ (s.getMeta slot).stack, stackSizeDefault ≤ st.requestedSize := by
      simp only [Suits, hfree, List.head?_cons, Option.mem_some_iff, forall_eq']
    obtain ⟨n, stack, size, hspawn, ht⟩ := spawn_cons hfree fn arg ok
    rw [ht]
    have hsize : ∀ st ∈ stack, size = st.requestedSize := by
      cases hspawn with
      | own hst =>
        rintro st ⟨⟩
        exact h.sizes slot _ hst
      | new _ =>
        rintro st ⟨⟩
        rfl
      | failed _ => simp
    refine ⟨⟨h.pools, fun a st hst => ?_, h.freed⟩, .inr ⟨_, rfl, ?_⟩⟩
    · by_cases ha : a = slot
      · subst ha
        simp only [State.getMeta, State.setMeta, Function.update_self, Option.getD_some] at hst ⊢
        exact hsize st hst
      · have hsizes := h.sizes a
        simp only [State.getMeta, State.setMeta, Function.update_of_ne ha] at hsizes hst ⊢
        exact hsizes st hst
    · rw [hsuits]
      cases hspawn with
      | own hst =>
        rw [served_iff (hsize _ rfl), hst]
        simp only [reduceCtorEq, false_implies, Option.mem_some_iff, forall_eq', true_and]
      | new hst =>
        rw [served_iff rfl, hst]
        exact iff_of_true (Nat.le_refl _) ⟨fun _ => rfl, by simp⟩
      | failed hst =>
        rw [hst]
        refine iff_of_false ?_ fun hok => Bool.false_ne_true (hok.1 rfl)
        rintro ⟨st, hst', -⟩
        cases hst'

/-! ## Every run -/

/-- **What one step does.** -/
theorem stackInv_step {l : Label W} (h : StackInv s) (hst : step s l = some t) : Notes s t l := by
  cases l with
  | create w attr fn arg ok =>
    cases hst
    exact h.create w attr fn arg ok
  | spawn fn arg ok =>
    cases hst
    exact h.spawn fn arg ok
  | joiner w c =>
    refine SameStacks.notes h ?_ trivial
    by_cases hc : c.pc = .createButex
    · obtain ⟨-, hst⟩ := Option.ite_none_right_eq_some.mp hst
      cases hst
      exact sameStacks_createButex s w hc
    · exact respects_sameStacks.step hst hc
  | drain w =>
    cases hst
    exact SameStacks.notes h (sameStacks_drain h w) trivial
  | _ => exact SameStacks.notes h (respects_sameStacks.step hst trivial) trivial

end Steps

theorem stackInv_start : StackInv (State.start W) where
  pools _ := rfl
  sizes _ _ hst := by cases hst
  freed _ hp := by cases hp

/-- Stacks are freed with the size that they were allocated with. -/
theorem StackInv.destroyed {s : State W} (h : StackInv s) : ∀ p ∈ s.freed ++ s.destroy, p.2 = p.1.requestedSize := by
  intro p hp
  obtain hp | hp := List.mem_append.mp hp
  · exact h.freed p hp
  · obtain ⟨slot, -, hp⟩ := List.mem_filterMap.mp hp
    obtain ⟨m, hm, hp⟩ := Option.bind_eq_some_iff.mp hp
    obtain ⟨st, hst, rfl⟩ := Option.map_eq_some_iff.mp hp
    have hsizes := h.sizes slot
    rw [getMeta_of_some hm] at hsizes
    exact hsizes st hst

/-- **Every task starts on a large enough stack just when every `TaskMeta` that is taken suits**, in every run; the
sizes with which stacks are freed are right in any case. -/
theorem stacks_iff [DecidableEq W] {s : State W} {h : List (State W × Label W)}
    (hs : Reachable (system W).traced (s, h)) : Adequate s ↔ ∀ x ∈ h, Suits x.1 x.2 := by
  have hinv : StackInv s ∧ ((∀ b ∈ s.begun, b.Served) ↔ ∀ x ∈ h, Suits x.1 x.2) := by
    refine hs.invariant (I := fun y => StackInv y.1 ∧ ((∀ b ∈ y.1.begun, b.Served) ↔ ∀ x ∈ y.2, Suits x.1 x.2)) ?_ ?_
    · rintro ⟨s, h⟩ ⟨rfl, rfl⟩
      exact ⟨stackInv_start, iff_of_true nofun nofun⟩
    · rintro ⟨s, h⟩ t l ⟨hi, hiff⟩ - hst
      obtain ⟨t', ht', rfl⟩ := Option.map_eq_some_iff.mp hst
      obtain ⟨hi', hbegun⟩ := stackInv_step hi ht'
      refine ⟨hi', ?_⟩
      simp only [List.mem_append, List.mem_singleton, or_imp, forall_and, forall_eq]
      rw [← hiff]
      obtain ⟨hsame, hl⟩ | ⟨b, hcons, hb⟩ := hbegun
      · rw [hsame, and_iff_left hl]
      · rw [hcons, List.forall_mem_cons, hb, and_comm]
  constructor
  · exact fun hadequate => hinv.2.mp hadequate.begun
  · exact fun hsuits => ⟨hinv.2.mpr hsuits, hinv.1.destroyed⟩

/-- A worker creates a task, which is detached, finishes and is recycled, and then another task. -/
def twiceRun (first second : ℕ) : List (Label Unit) :=
  [.create (some ()) (some first) (some 7) none true, .run 3, .detach (TaskId.encodeId 3 1), .finish 3 none,
    .handle () 3, .create (some ()) (some second) (some 7) none true]

theorem stacks_iff_twice : ∃ (s : State Unit) (h : List (State Unit × Label Unit)),
    Reachable (system Unit).traced (s, h) ∧ s.begun.length = 2 ∧ Adequate s := by
  have hrun : (exec (system Unit).traced (.start Unit, []) (twiceRun 65536 4096)).any
      (fun y => decide (y.1.begun.length = 2 ∧ ∀ x ∈ y.2, Suits x.1 x.2)) = true := by
    decide +kernel
  obtain ⟨⟨s, h⟩, hs, hbegun, hsuits⟩ := of_exec_any hrun
  have hreach := reachable_exec (M := (system Unit).traced) (s := (.start Unit, [])) (.init ⟨rfl, rfl⟩) hs
  exact ⟨s, h, hreach, hbegun, (stacks_iff hreach).mpr hsuits⟩

/-- **A recycled stack is too small**: the second task asks for 64 KiB and starts on the 4 KiB of the first. -/
theorem stack_too_small : ∃ s : State Unit, Reachable (system Unit) s ∧
    ⟨65536, some ⟨0, 4096⟩, 4096⟩ ∈ s.begun ∧ ¬Adequate s := by
  have hrun : (exec (system Unit) (.start Unit) (twiceRun 4096 65536)).any (fun s => decide
      ((⟨65536, some ⟨0, 4096⟩, 4096⟩ : Begun) ∈ s.begun)) = true := by
    decide +kernel
  obtain ⟨s, hs, hbegun⟩ := of_exec_any hrun
  refine ⟨s, reachable_exec (.init rfl) hs, hbegun, fun hadequate => ?_⟩
  obtain ⟨st, hst, hle, -⟩ := hadequate.begun _ hbegun
  cases hst
  exact absurd hle (by decide)

end Cothread.TaskLife
