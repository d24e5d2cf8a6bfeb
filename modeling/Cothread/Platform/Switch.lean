import Cothread.Lib.Run
import Cothread.Platform.Context

/-!
# Context switches: the workers

Any number of cores (`W`) with one memory run contexts (`K`): the workers' own and those of tasks. A core is in the
code of its context, which computes anything but writes neither into a `Context` nor into what belongs to another one,
or it is inside `SwapContext`, at some instruction of it; the cores take their steps in any order, one instruction at a
time. A context can be switched to when it is idle: from the moment `return_addr` is stored, while the core that has
left it is still to load the registers of another.

- the cores and what they may do (`World.system`);
- every live context is with one core at most, and is all there: in the core, in its `Context`, or on the way between
  them (`Holds`);
- every step keeps this, and gives new values to the contexts only that it is a step of (`Holds.step`); no instruction
  of `SwapContext` faults (`Holds.instr`).
-/

namespace Cothread.Context

open Bytes X64

variable {K W : Type*}

/-- The contexts: where they are, what belongs to each, and which are the workers' own (`saved_context_`). -/
structure World (K W : Type*) where
  platform : Platform
  ctx : K → Addr
  stack : K → Set Addr
  main : W → K
  /-- The address of `BthreadStart`. -/
  bthreadStart : Addr
  /-- `alignas(16)`. -/
  aligned : ∀ k, (ctx k).toNat % 16 = 0
  disjoint : ∀ k, Disjoint (stack k) (span (ctx k) CONTEXT_SIZE)
  main_injective : Function.Injective main
  main_disjoint : ∀ w w', w ≠ w' → Disjoint (span (ctx (main w)) CONTEXT_SIZE ∪ stack (main w))
    (span (ctx (main w')) CONTEXT_SIZE ∪ stack (main w'))

/-- The `Context` and the stack. -/
def World.area (x : World K W) (k : K) : Set Addr := span (x.ctx k) CONTEXT_SIZE ∪ x.stack k

def World.abi (x : World K W) : Abi := x.platform.abi

/-- Where a core is: in the code of a context, or inside `SwapContext` with the rest of one of its halves to do. -/
inductive Place (K : Type*)
  | own (k : K)
  | saving (k j : K) (rest : List Instr)
  | loading (j : K) (rest : List Instr)

/-- The contexts that a core works on. -/
def Place.uses : Place K → Set K
  | own k => {k}
  | saving k j _ => {k, j}
  | loading j _ => {j}

structure State (K W : Type*) where
  core : W → Core
  mem : Mem
  place : W → Place K
  /-- The contexts that are made and not given up. -/
  live : Set K

inductive Label (K W : Type*)
  /-- The context computes. -/
  | compute (w : W) (k : K) (c : Core) (m : Mem)
  /-- The core is at the first instruction of `SwapContext(&k, &j)`. -/
  | call (w : W) (k j : K)
  /-- The next instruction of `SwapContext`. -/
  | instr (w : W)
  /-- `MakeContext(&j, top, size, fn, arg)`, called in `k`. -/
  | make (w : W) (k j : K) (top fn arg : Addr)
  /-- A context that will not be switched to is given up. -/
  | drop (j : K)

/-- The context does the step, or is made or given up by it. -/
def Label.Touches (k : K) : Label K W → Prop
  | compute _ i _ _ => i = k
  | call _ i _ => i = k
  | instr _ => False
  | make _ i j _ _ _ => i = k ∨ j = k
  | drop j => j = k

/-- The context can be switched to. -/
def State.Idle (s : State K W) (j : K) : Prop := j ∈ s.live ∧ ∀ w, j ∉ (s.place w).uses

/-- What the code of `k` does not write to. -/
def World.guarded (x : World K W) (s : State K W) (k : K) : Set Addr :=
  {p | ∃ i ∈ s.live, p ∈ span (x.ctx i) CONTEXT_SIZE ∨ i ≠ k ∧ p ∈ x.stack i}

/-- The next instruction of `SwapContext`, and where the core is after it. -/
def World.fetch (x : World K W) : Place K → Option (Instr × Place K)
  | .saving k j (i :: rest) =>
    some (i, if rest.isEmpty then .loading j (loadCode x.abi.toReg x.abi.slots) else .saving k j rest)
  | .loading j (i :: rest) => some (i, if rest.isEmpty then .own j else .loading j rest)
  | _ => none

section System

variable [DecidableEq W]

/-- A core and the memory after a step of the core. -/
def State.set (s : State K W) (w : W) (c : Core) (m : Mem) (p : Place K) : State K W :=
  { s with core := Function.update s.core w c, mem := m, place := Function.update s.place w p }

section Set

variable (s : State K W) (w : W) (c : Core) (m : Mem) (p : Place K)

theorem State.set_place : (s.set w c m p).place w = p := Function.update_self ..

theorem State.set_place_of_ne {w' : W} (h : w' ≠ w) : (s.set w c m p).place w' = s.place w' :=
  Function.update_of_ne h ..

theorem State.set_core : (s.set w c m p).core w = c := Function.update_self ..

theorem State.set_core_of_ne {w' : W} (h : w' ≠ w) : (s.set w c m p).core w' = s.core w' := Function.update_of_ne h ..

end Set

/-- The next instruction. -/
def World.instr (x : World K W) (s : State K W) (w : W) : Option (State K W) :=
  (x.fetch (s.place w)).bind fun f => (X64.step f.1 (s.core w) s.mem).map fun r => s.set w r.1 r.2 f.2

open Classical in
/-- The cores; the halves of `SwapContext` are `saveCode` and `loadCode` (`Abi.swap_eq`). -/
noncomputable def World.system (x : World K W) : Run.System (State K W) (Label K W) where
  init s := (∀ w, s.place w = .own (x.main w)) ∧ s.live = Set.range x.main
  step s
    | .compute w k c m =>
      if s.place w = .own k ∧ Set.EqOn m s.mem (x.guarded s k) then some (s.set w c m (.own k)) else none
    | .call w k j =>
      if s.place w = .own k ∧ (s.core w).reg x.abi.fromReg = x.ctx k ∧ (s.core w).reg x.abi.toReg = x.ctx j ∧
          span ((s.core w).reg .rsp) 8 ⊆ x.stack k ∧ s.Idle j then
        some (s.set w (s.core w) s.mem (.saving k j (saveCode x.abi.fromReg x.abi.slots)))
      else none
    | .instr w => x.instr s w
    | .make w k j top fn arg =>
      if s.place w = .own k ∧ MakeArgs x.platform (s.core w) s.mem (x.ctx j) top fn arg ∧
          (∀ w', j ∉ (s.place w').uses) ∧ (∀ i ∈ s.live, i ≠ j → Disjoint (x.area i) (x.area j)) ∧
          span (top - 32) 32 ⊆ x.stack j then
        (exec (x.abi.makeContext x.bthreadStart) (s.core w) s.mem).map fun r =>
          { s.set w r.1 r.2 (.own k) with live := insert j s.live }
      else none
    | .drop j => if s.Idle j then some { s with live := s.live \ {j} } else none

end System

/-! ## The invariant -/

section Invariant

variable (x : World K W) (V : K → Core × Mem)

/-- What a core and the memory have of the contexts that the core works on, when these have `V`. -/
def At (c : Core) (m : Mem) : Place K → Prop
  | .own k => Shown x.abi (x.stack k) (V k) c m
  | .saving k j rest => k ≠ j ∧ Leaving x.abi (x.ctx k) (x.stack k) (V k) c m ∧
      Saving x.abi (x.ctx k) (V k) c m rest ∧ c.reg x.abi.toReg = x.ctx j ∧
      Saved x.abi (x.ctx j) (x.stack j) (V j) m
  | .loading j rest => c.reg x.abi.toReg = x.ctx j ∧ Saved x.abi (x.ctx j) (x.stack j) (V j) m ∧
      Loading x.abi (V j) c rest

/-- Every context has what `V` says: in its core, in its `Context`, or on the way between them. -/
structure Holds (s : State K W) : Prop where
  live : ∀ w, ∀ k ∈ (s.place w).uses, k ∈ s.live
  alone : ∀ w w', ∀ k ∈ (s.place w).uses, k ∈ (s.place w').uses → w = w'
  apart : ∀ i ∈ s.live, ∀ j ∈ s.live, i ≠ j → Disjoint (x.area i) (x.area j)
  place : ∀ w, At x V (s.core w) s.mem (s.place w)
  saved : ∀ k, s.Idle k → Saved x.abi (x.ctx k) (x.stack k) (V k) s.mem

variable {x V} {V' : K → Core × Mem} {s t : State K W} {m : Mem} {c : Core} {p : Place K} {w w' : W} {k j : K}
  {l : Label K W}

theorem area_ctx {m' : Mem} (h : Set.EqOn m' m (x.area k)) : Set.EqOn m' m (span (x.ctx k) CONTEXT_SIZE) :=
  h.mono Set.subset_union_left

theorem area_stack {m' : Mem} (h : Set.EqOn m' m (x.area k)) : Set.EqOn m' m (x.stack k) :=
  h.mono Set.subset_union_right

theorem Saved.area {m' : Mem} {v : Core × Mem} (h : Saved x.abi (x.ctx k) (x.stack k) v m)
    (heq : Set.EqOn m' m (x.area k)) : Saved x.abi (x.ctx k) (x.stack k) v m' :=
  h.congr (area_ctx heq) (area_stack heq)

theorem At.congr {m' : Mem} (h : At x V c m p) (hmem : ∀ k ∈ p.uses, Set.EqOn m' m (x.area k))
    (hV : ∀ k ∈ p.uses, V' k = V k) : At x V' c m' p := by
  cases p with
  | own k =>
    rw [At, hV k rfl]
    exact Shown.congr h (area_stack (hmem k rfl))
  | saving k j rest =>
    have hk := hmem k (.inl rfl)
    have hj := hmem j (.inr rfl)
    obtain ⟨hne, hleaving, hsaving, hto, hsaved⟩ := h
    rw [At, hV k (.inl rfl), hV j (.inr rfl)]
    exact ⟨hne, hleaving.congr (area_stack hk), hsaving.congr (area_ctx hk), hto, hsaved.area hj⟩
  | loading j rest =>
    obtain ⟨hto, hsaved, hloading⟩ := h
    rw [At, hV j rfl]
    exact ⟨hto, hsaved.area (hmem j rfl), hloading⟩

/-- **The step of a core**: it changes nothing of contexts that other cores work on or that are idle, and takes up idle
ones only. -/
theorem Holds.set [DecidableEq W] (h : Holds x V s)
    (hmem : ∀ k ∈ s.live, k ∉ (s.place w).uses → Set.EqOn m s.mem (x.area k))
    (hV : ∀ k, k ∉ (s.place w).uses → V' k = V k) (huses : ∀ k ∈ p.uses, k ∈ (s.place w).uses ∨ s.Idle k)
    (hat : At x V' c m p)
    (hsaved : ∀ k ∈ (s.place w).uses, k ∉ p.uses → Saved x.abi (x.ctx k) (x.stack k) (V' k) m) :
    Holds x V' (s.set w c m p) := by
  have hother {w'} (hw : w' ≠ w) := s.set_place_of_ne w c m p hw
  have hself := s.set_place w c m p
  have hnot {w' k} (hw : w' ≠ w) (hk : k ∈ (s.place w').uses) : k ∉ (s.place w).uses := fun hk' =>
    hw (h.alone w' w k hk hk')
  have hp {w' k} (hw : w' ≠ w) (hk : k ∈ (s.place w').uses) : k ∉ p.uses := fun hk' => by
    obtain hin | hidle := huses k hk'
    · exact hnot hw hk hin
    · exact hidle.2 w' hk
  constructor
  case live =>
    intro w' k hk
    by_cases hw : w' = w
    · rw [hw, hself] at hk
      obtain hin | hidle := huses k hk
      · exact h.live w k hin
      · exact hidle.1
    · rw [hother hw] at hk
      exact h.live w' k hk
  case alone =>
    intro w₁ w₂ k h₁ h₂
    by_cases hw₁ : w₁ = w <;> by_cases hw₂ : w₂ = w
    · rw [hw₁, hw₂]
    · rw [hw₁, hself] at h₁
      rw [hother hw₂] at h₂
      exact absurd h₁ (hp hw₂ h₂)
    · rw [hw₂, hself] at h₂
      rw [hother hw₁] at h₁
      exact absurd h₂ (hp hw₁ h₁)
    · rw [hother hw₁] at h₁
      rw [hother hw₂] at h₂
      exact h.alone w₁ w₂ k h₁ h₂
  case apart => exact h.apart
  case place =>
    intro w'
    by_cases hw : w' = w
    · rw [hw, hself, s.set_core]
      exact hat
    · rw [hother hw, s.set_core_of_ne w c m p hw]
      exact (h.place w').congr (fun k hk => hmem k (h.live w' k hk) (hnot hw hk)) fun k hk => hV k (hnot hw hk)
  case saved =>
    rintro k ⟨hlive, hidle⟩
    have hkp : k ∉ p.uses := by
      have := hidle w
      rwa [hself] at this
    by_cases hk : k ∈ (s.place w).uses
    · exact hsaved k hk hkp
    · have hidle' : s.Idle k := by
        refine ⟨hlive, fun w' => ?_⟩
        by_cases hw : w' = w
        · rw [hw]
          exact hk
        · have := hidle w'
          rwa [hother hw] at this
      rw [hV k hk]
      exact (h.saved k hidle').area (hmem k hlive hk)

theorem Holds.drop (h : Holds x V s) (hj : ∀ w, j ∉ (s.place w).uses) :
    Holds x V { s with live := s.live \ {j} } where
  live w k hk := ⟨h.live w k hk, fun hkj => hj w (hkj ▸ hk)⟩
  alone := h.alone
  apart i hi j hj hne := h.apart i hi.1 j hj.1 hne
  place := h.place
  saved k hk := h.saved k ⟨hk.1.1, hk.2⟩

/-- A context that is all there is added. -/
theorem Holds.add (h : Holds x V s) (hj : ∀ w, j ∉ (s.place w).uses)
    (hapart : ∀ i ∈ s.live, i ≠ j → Disjoint (x.area i) (x.area j)) (hV : ∀ k ≠ j, V' k = V k)
    (hsaved : Saved x.abi (x.ctx j) (x.stack j) (V' j) s.mem) : Holds x V' { s with live := insert j s.live } where
  live w k hk := .inr (h.live w k hk)
  alone := h.alone
  apart := by
    rintro i (rfl | hi) i' (rfl | hi') hne
    · exact absurd rfl hne
    · exact (hapart i' hi' hne.symm).symm
    · exact hapart i hi hne
    · exact h.apart i hi i' hi' hne
  place w := (h.place w).congr (fun k _ => Set.eqOn_refl s.mem _) fun k hk => hV k fun hkj => hj w (hkj ▸ hk)
  saved k hk := by
    by_cases hkj : k = j
    · rw [hkj]
      exact hsaved
    · rw [hV k hkj]
      exact h.saved k ⟨hk.1.resolve_left hkj, hk.2⟩

end Invariant

/-! ## The steps -/

section Steps

variable [DecidableEq W] [DecidableEq K] {x : World K W} {V : K → Core × Mem} {s t : State K W} {m : Mem} {c : Core}
  {w : W} {k j : K} {l : Label K W}

/-- The core after the return from the function that it is in. -/
def returned (c : Core) (m : Mem) : Core :=
  { c.setReg .rsp (c.reg .rsp + 8) with rip := read 64 m (c.reg .rsp) }

omit [DecidableEq K] in
theorem holds_init (h : x.system.init s) : ∃ V, Holds x V s := by
  obtain ⟨hplace, hlive⟩ := h
  let V := Function.extend x.main (fun w => (s.core w, s.mem)) fun _ => (⟨fun _ => 0, fun _ => 0, 0⟩, s.mem)
  have hV (w : W) : V (x.main w) = (s.core w, s.mem) := x.main_injective.extend_apply ..
  have huses {w k} (hk : k ∈ (s.place w).uses) : k = x.main w := by
    rw [hplace w] at hk
    exact hk
  refine ⟨V, ⟨fun w k hk => ?_, fun w w' k hk hk' => ?_, ?_, fun w => ?_, fun k hk => ?_⟩⟩
  · rw [hlive, huses hk]
    exact ⟨w, rfl⟩
  · exact x.main_injective ((huses hk).symm.trans (huses hk'))
  · rw [hlive]
    rintro _ ⟨w, rfl⟩ _ ⟨w', rfl⟩ hne
    exact x.main_disjoint w w' fun hw => hne (congrArg x.main hw)
  · rw [hplace w, At, hV w]
    refine ⟨fun s _ => ?_, rfl, rfl, Set.eqOn_refl s.mem _⟩
    cases s <;> rfl
  · rw [State.Idle, hlive] at hk
    obtain ⟨⟨w, rfl⟩, hidle⟩ := hk
    have := hidle w
    rw [hplace w] at this
    exact absurd rfl this

/-- The code of a context computes. -/
theorem Holds.compute (h : Holds x V s) (hw : s.place w = .own k) (hm : Set.EqOn m s.mem (x.guarded s k)) :
    Holds x (Function.update V k (c, m)) (s.set w c m (.own k)) := by
  refine h.set (fun i hi hik => ?_) (fun i hik => ?_) (fun i hi => ?_) ?_ (fun i hi hik => ?_)
  · rw [hw] at hik
    intro p hp
    obtain hp | hp := hp
    · exact hm ⟨i, hi, .inl hp⟩
    · exact hm ⟨i, hi, .inr ⟨hik, hp⟩⟩
  · rw [hw] at hik
    exact Function.update_of_ne hik ..
  · rw [hw]
    exact .inl hi
  · rw [At, Function.update_self]
    refine ⟨fun s _ => ?_, rfl, rfl, Set.eqOn_refl m _⟩
    cases s <;> rfl
  · rw [hw] at hi
    exact absurd hi hik

/-- `SwapContext` is called. -/
theorem Holds.call (h : Holds x V s) (hw : s.place w = .own k) (hfrom : (s.core w).reg x.abi.fromReg = x.ctx k)
    (hto : (s.core w).reg x.abi.toReg = x.ctx j) (hrsp : span ((s.core w).reg .rsp) 8 ⊆ x.stack k) (hj : s.Idle j) :
    Holds x (Function.update V k (returned (s.core w) s.mem, s.mem))
      (s.set w (s.core w) s.mem (.saving k j (saveCode x.abi.fromReg x.abi.slots))) := by
  have hne : k ≠ j := fun hkj => hj.2 w (by rw [hw, hkj]; rfl)
  refine h.set (fun i _ _ => Set.eqOn_refl s.mem _) (fun i hik => ?_) (fun i hi => ?_) ?_ (fun i hi hik => ?_)
  · rw [hw] at hik
    exact Function.update_of_ne hik ..
  · rw [hw]
    obtain rfl | rfl := hi
    · exact .inl rfl
    · exact .inr hj
  · rw [At, Function.update_self, Function.update_of_ne hne.symm]
    refine ⟨hne, ⟨hfrom, fun s hs => ?_, rfl, rfl, hrsp, Set.eqOn_refl s.mem _⟩, ?_, hto, h.saved j hj⟩
    · exact (Slot.same_setReg (x.abi.scratch s hs).2.2.2.2 _).symm
    · exact .slots (List.nil_append x.abi.slots).symm (by simp)
  · rw [hw] at hi
    exact absurd (.inl hi) hik

omit [DecidableEq K] in
/-- **An instruction of `SwapContext`**: there is one, it does not fault, and no context sees it. -/
theorem Holds.instr (h : Holds x V s) (w : W) (hw : ∀ k, s.place w ≠ .own k) :
    ∃ t, x.instr s w = some t ∧ Holds x V t := by
  have hat := h.place w
  cases hp : s.place w with
  | own k => exact absurd hp (hw k)
  | saving k j code =>
    rw [hp] at hat
    obtain ⟨hne, hleaving, hsaving, hto, hsaved⟩ := hat
    have hk : k ∈ (s.place w).uses := by rw [hp]; exact .inl rfl
    have hj : j ∈ (s.place w).uses := by rw [hp]; exact .inr rfl
    cases code with
    | nil => exact absurd rfl hsaving.ne_nil
    | cons i rest =>
      obtain ⟨c', m', hstep, hreg, hout, hmore, hlast⟩ := hsaving.step (x.disjoint k) (x.aligned k) hleaving
      have hframe {k'} (hlive : k' ∈ s.live) (hk' : k' ≠ k) : Set.EqOn m' s.mem (x.area k') :=
        hout _ ((h.apart k' hlive k (h.live w k hk) hk').mono_right Set.subset_union_left)
      have hfetch : x.instr s w = some (s.set w c' m'
          (if rest.isEmpty then .loading j (loadCode x.abi.toReg x.abi.slots) else .saving k j rest)) := by
        rw [World.instr, hp, World.fetch, Option.bind_some, hstep, Option.map_some]
      refine ⟨_, hfetch, h.set (fun k' hlive hk' => ?_) (fun _ _ => rfl) (fun k' hk' => ?_) ?_ fun k' hk' hnot => ?_⟩
      · exact hframe hlive fun heq => hk' (heq ▸ hk)
      · rw [hp]
        cases rest with
        | nil => exact .inl (.inr hk')
        | cons i' rest => exact .inl hk'
      · have hto' : c'.reg x.abi.toReg = x.ctx j := hreg.trans hto
        have hsaved' := hsaved.area (hframe (h.live w j hj) hne.symm)
        cases rest with
        | nil => exact ⟨hto', hsaved', .slots (List.nil_append x.abi.slots).symm (by simp)⟩
        | cons i' rest =>
          obtain ⟨hleaving', hsaving'⟩ := hmore (List.cons_ne_nil i' rest)
          exact ⟨hne, hleaving', hsaving', hto', hsaved'⟩
      · rw [hp] at hk'
        cases rest with
        | nil =>
          have hkk : k' = k := hk'.resolve_right hnot
          rw [hkk]
          exact hlast rfl
        | cons i' rest => exact absurd hk' hnot
  | loading j code =>
    rw [hp] at hat
    obtain ⟨hto, hsaved, hloading⟩ := hat
    cases code with
    | nil => exact absurd rfl hloading.ne_nil
    | cons i rest =>
      obtain ⟨c', hstep, hmore, hlast⟩ := hloading.step (x.aligned j) hto hsaved
      have hfetch : x.instr s w = some (s.set w c' s.mem (if rest.isEmpty then .own j else .loading j rest)) := by
        rw [World.instr, hp, World.fetch, Option.bind_some, hstep, Option.map_some]
      refine ⟨_, hfetch, h.set (fun k' _ _ => Set.eqOn_refl s.mem _) (fun _ _ => rfl) (fun k' hk' => ?_) ?_
        fun k' hk' hnot => ?_⟩
      · rw [hp]
        cases rest with
        | nil => exact .inl hk'
        | cons i' rest => exact .inl hk'
      · cases rest with
        | nil => exact hlast rfl
        | cons i' rest =>
          obtain ⟨hto', hloading'⟩ := hmore (List.cons_ne_nil i' rest)
          exact ⟨hto', hsaved, hloading'⟩
      · rw [hp] at hk'
        cases rest with
        | nil => exact absurd hk' hnot
        | cons i' rest => exact absurd hk' hnot

/-- A context is made. -/
theorem Holds.make (h : Holds x V s) {top fn arg : Addr} {r : Core × Mem} {v : Core} (hw : s.place w = .own k)
    (hr : r.2 = made s.mem (x.ctx j) top fn arg x.bthreadStart) (hj : ∀ w', j ∉ (s.place w').uses)
    (hapart : ∀ i ∈ s.live, i ≠ j → Disjoint (x.area i) (x.area j)) (htop : span (top - 32) 32 ⊆ x.stack j)
    (hslots : ∀ s ∈ x.abi.slots, s.Held (x.ctx j) r.2 v) (hrsp : v.reg .rsp = top - 32)
    (hrip : v.rip = x.bthreadStart) :
    Holds x (Function.update (Function.update V k r) j (v, r.2))
      { s.set w r.1 r.2 (.own k) with live := insert j s.live } := by
  have hkj : k ≠ j := fun heq => hj w (by rw [hw, heq]; rfl)
  have hframe {i} (hi : i ∈ s.live) (hij : i ≠ j) : Set.EqOn r.2 s.mem (x.area i) := by
    rw [hr]
    have harea := hapart i hi hij
    exact made_eqOn (harea.mono_right Set.subset_union_left)
      (harea.mono_right (htop.trans Set.subset_union_right))
  have hrest : Holds x (Function.update V k r) ({ s with live := s.live \ {j} }.set w r.1 r.2 (.own k)) := by
    refine (h.drop hj).set (fun i hi _ => hframe hi.1 hi.2) (fun i hik => ?_) (fun i hi => ?_) ?_ fun i hi hik => ?_
    · rw [hw] at hik
      exact Function.update_of_ne hik ..
    · rw [hw]
      exact .inl hi
    · rw [At, Function.update_self]
      refine ⟨fun s _ => ?_, rfl, rfl, Set.eqOn_refl r.2 _⟩
      cases s <;> rfl
    · rw [hw] at hi
      exact absurd hi hik
  have hnot (w' : W) : j ∉ ((s.set w r.1 r.2 (.own k)).place w').uses := by
    by_cases hw' : w' = w
    · rw [hw', s.set_place]
      exact hkj.symm
    · rw [s.set_place_of_ne w _ _ _ hw']
      exact hj w'
  rw [← Set.insert_sdiff_singleton]
  refine hrest.add hnot (fun i hi hij => hapart i hi.1 hij) (fun i hij => Function.update_of_ne hij ..) ?_
  · rw [Function.update_self]
    refine ⟨hslots, ?_, ?_, Set.eqOn_refl r.2 _⟩
    · rw [hrsp]
      exact (congrArg (fun mem => read 64 mem _) hr).trans made_stackPtr
    · rw [hrip]
      exact (congrArg (fun mem => read 64 mem _) hr).trans made_returnAddr

/-- **The step lemma**: only the contexts that a step is one of have anything new. -/
theorem Holds.step (h : Holds x V s) (hst : x.system.step s l = some t) :
    ∃ V', Holds x V' t ∧ ∀ k, ¬l.Touches k → V' k = V k := by
  cases l with
  | compute w k c m =>
    obtain ⟨⟨hw, hm⟩, heq⟩ := Option.ite_none_right_eq_some.mp hst
    cases heq
    exact ⟨_, h.compute hw hm, fun i hi => Function.update_of_ne (Ne.symm hi) ..⟩
  | call w k j =>
    obtain ⟨⟨hw, hfrom, hto, hrsp, hj⟩, heq⟩ := Option.ite_none_right_eq_some.mp hst
    cases heq
    exact ⟨_, h.call hw hfrom hto hrsp hj, fun i hi => Function.update_of_ne (Ne.symm hi) ..⟩
  | instr w =>
    have hw (k) : s.place w ≠ .own k := fun hown => by
      have hnone : x.instr s w = none := by rw [World.instr, hown]; rfl
      exact absurd (hnone.symm.trans hst) (by simp)
    obtain ⟨t', ht', hholds⟩ := h.instr w hw
    obtain rfl : t' = t := Option.some.inj (ht'.symm.trans hst)
    exact ⟨V, hholds, fun _ _ => rfl⟩
  | make w k j top fn arg =>
    obtain ⟨⟨hw, hargs, hj, hapart, htop⟩, hst⟩ := Option.ite_none_right_eq_some.mp hst
    obtain ⟨c', hexec, -⟩ := makeContext_exec x.bthreadStart hargs
    obtain ⟨v, hslots, hrsp, hrip⟩ := exists_made x.abi (made s.mem (x.ctx j) top fn arg x.bthreadStart) (x.ctx j) top
      x.bthreadStart
    rw [World.abi, hexec] at hst
    cases hst
    refine ⟨_, h.make hw rfl hj hapart htop hslots hrsp hrip, fun i hi => ?_⟩
    obtain ⟨hik, hij⟩ := not_or.mp hi
    rw [Function.update_of_ne (Ne.symm hij), Function.update_of_ne (Ne.symm hik)]
  | drop j =>
    obtain ⟨hj, heq⟩ := Option.ite_none_right_eq_some.mp hst
    cases heq
    exact ⟨V, h.drop hj.2, fun _ _ => rfl⟩

end Steps

end Cothread.Context
