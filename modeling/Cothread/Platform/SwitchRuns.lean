import Cothread.Platform.Switch

/-!
# Context switches: runs

- **`SwapContext` returns** (`swapContext_returns`): whatever runs in between and on whatever core, with the registers
  that a function has to keep, the stack pointer and the memory of the context as they were at the call;
- **a switch is completed** (`swapContext_completes`): no instruction faults, and after as many as the code has the core
  is in the code of the other context, whatever the other cores do;
- **a new context** (`bthreadStart_enters`): the first switch to it calls its function with its argument, on the stack
  that it was made with.
-/

namespace Cothread.Context

open Bytes X64

variable {K W : Type*}

section Runs

variable [DecidableEq W] [DecidableEq K] {x : World K W} {V : K → Core × Mem} {s t : State K W} {m : Mem} {c : Core}
  {w : W} {k j : K} {l : Label K W}

theorem holds_of_reachable (hs : Run.Reachable x.system s) : ∃ V, Holds x V s := by
  refine hs.invariant (I := fun s => ∃ V, Holds x V s) (fun s h => holds_init h) fun s t l h _ hst => ?_
  obtain ⟨V, h⟩ := h
  obtain ⟨V', h', -⟩ := h.step hst
  exact ⟨V', h'⟩

/-- **The run lemma**: contexts that no step touches have what they had. -/
theorem Holds.exec {ls : List (Label K W)} (h : Holds x V s) (hrun : Run.exec x.system s ls = some t) :
    ∃ V', Holds x V' t ∧ ∀ k, (∀ l ∈ ls, ¬l.Touches k) → V' k = V k := by
  induction ls generalizing s V with
  | nil =>
    cases hrun
    exact ⟨V, h, fun _ _ => rfl⟩
  | cons l ls ih =>
    obtain ⟨u, hst, hrun⟩ := Option.bind_eq_some_iff.mp hrun
    obtain ⟨V₁, h₁, hV₁⟩ := h.step hst
    obtain ⟨V₂, h₂, hV₂⟩ := ih h₁ hrun
    refine ⟨V₂, h₂, fun k hk => ?_⟩
    rw [hV₂ k fun l' hl' => hk l' (List.mem_cons_of_mem l hl')]
    exact hV₁ k (hk l List.mem_cons_self)

omit [DecidableEq W] [DecidableEq K] in
theorem Shown.calleeSaved {a : Abi} {S : Set Addr} {v : Core × Mem} (h : Shown a S v c m) :
    (∀ r, .inl r ∈ a.calleeSaved → c.reg r = v.1.reg r) ∧ ∀ y, .inr y ∈ a.calleeSaved → c.xmm y = v.1.xmm y := by
  rw [← a.targets_eq]
  refine ⟨fun r hr => ?_, fun y hy => ?_⟩
  · obtain ⟨s, hs, htarget⟩ := List.mem_map.mp hr
    have hsame := h.slots s hs
    cases s with
    | gp r' d =>
      cases htarget
      exact hsame
    | xmm y d => cases htarget
  · obtain ⟨s, hs, htarget⟩ := List.mem_map.mp hy
    have hsame := h.slots s hs
    cases s with
    | gp r d => cases htarget
    | xmm y' d =>
      cases htarget
      exact hsame

/-- The stack pointer is not in the list. -/
theorem rsp_notMem (a : Abi) : .inl .rsp ∉ a.calleeSaved := by
  rw [← a.targets_eq]
  intro h
  obtain ⟨s, hs, htarget⟩ := List.mem_map.mp h
  exact (a.scratch s hs).2.2.2.2 htarget

end Runs

/-! ## A switch is completed -/

/-- The core has `n` instructions to go until it is in the code of `j`. -/
inductive Left (x : World K W) (j : K) : Place K → ℕ → Prop
  | saving {k : K} {rest : List Instr} (hrest : rest ≠ []) :
    Left x j (.saving k j rest) (rest.length + (loadCode x.abi.toReg x.abi.slots).length)
  | loading {rest : List Instr} (hrest : rest ≠ []) : Left x j (.loading j rest) rest.length
  | own : Left x j (.own j) 0

/-- The step is one of the code of the core's context. -/
def Label.Own (w : W) : Label K W → Prop
  | compute w' _ _ _ => w' = w
  | call w' _ _ => w' = w
  | instr _ => False
  | make w' _ _ _ _ _ => w' = w
  | drop _ => False

/-- The step is an instruction of `SwapContext` on the core. -/
def Label.isInstr [DecidableEq W] (w : W) : Label K W → Bool
  | instr w' => decide (w' = w)
  | _ => false

theorem Left.fetch {x : World K W} {j : K} {p p' : Place K} {n : ℕ} {i : Instr} (h : Left x j p n)
    (hf : x.fetch p = some (i, p')) : ∃ n', n = n' + 1 ∧ Left x j p' n' := by
  cases h with
  | @saving k rest hrest =>
    cases rest with
    | nil => exact absurd rfl hrest
    | cons i' rest =>
      cases hf
      cases rest with
      | nil => exact ⟨_, Nat.add_comm .., .loading (by simp [loadCode, jumpCode])⟩
      | cons i'' rest => exact ⟨_, Nat.succ_add .., .saving (List.cons_ne_nil i'' rest)⟩
  | @loading rest hrest =>
    cases rest with
    | nil => exact absurd rfl hrest
    | cons i' rest =>
      cases hf
      cases rest with
      | nil => exact ⟨0, rfl, .own⟩
      | cons i'' rest => exact ⟨_, rfl, .loading (List.cons_ne_nil i'' rest)⟩
  | own => cases hf

theorem Left.eq_own {x : World K W} {j : K} {p : Place K} (h : Left x j p 0) : p = .own j := by
  generalize hn : 0 = n at h
  cases h with
  | @saving k rest hrest =>
    have hpos := List.length_pos_of_ne_nil hrest
    omega
  | @loading rest hrest =>
    have hpos := List.length_pos_of_ne_nil hrest
    omega
  | own => rfl

theorem Left.ne_own {x : World K W} {j i : K} {p : Place K} {n : ℕ} (h : Left x j p (n + 1)) : p ≠ .own i := by
  rintro rfl
  generalize hn : n + 1 = n' at h
  cases h
  cases hn

section Completion

variable [DecidableEq W] {x : World K W} {V : K → Core × Mem} {s t : State K W} {w : W} {k j : K} {l : Label K W}

/-- Where a core is changes with its own steps only. -/
theorem step_place (hst : x.system.step s l = some t) (hown : ¬l.Own w) (hl : l.isInstr w = false) :
    t.place w = s.place w := by
  cases l with
  | compute w' k c m =>
    obtain ⟨-, heq⟩ := Option.ite_none_right_eq_some.mp hst
    cases heq
    exact s.set_place_of_ne w' _ _ _ fun h => hown h.symm
  | call w' k j =>
    obtain ⟨-, heq⟩ := Option.ite_none_right_eq_some.mp hst
    cases heq
    exact s.set_place_of_ne w' _ _ _ fun h => hown h.symm
  | instr w' =>
    obtain ⟨f, -, hf⟩ := Option.bind_eq_some_iff.mp hst
    obtain ⟨r, -, rfl⟩ := Option.map_eq_some_iff.mp hf
    exact s.set_place_of_ne w' _ _ _ fun h => of_decide_eq_false hl h.symm
  | make w' k j top fn arg =>
    obtain ⟨-, hmap⟩ := Option.ite_none_right_eq_some.mp hst
    obtain ⟨r, -, rfl⟩ := Option.map_eq_some_iff.mp hmap
    exact s.set_place_of_ne w' r.1 r.2 (.own k) fun h => hown h.symm
  | drop j =>
    obtain ⟨-, heq⟩ := Option.ite_none_right_eq_some.mp hst
    cases heq
    rfl

/-- An instruction on the core is one of those to go. -/
theorem Left.instr {n : ℕ} (h : Left x j (s.place w) n) (hst : x.instr s w = some t) :
    ∃ n', n = n' + 1 ∧ Left x j (t.place w) n' := by
  obtain ⟨f, hf, hmap⟩ := Option.bind_eq_some_iff.mp hst
  obtain ⟨r, -, rfl⟩ := Option.map_eq_some_iff.mp hmap
  rw [s.set_place]
  exact h.fetch hf

/-- After any steps of the others, and some instructions of its own. -/
theorem Left.exec {ls : List (Label K W)} {n : ℕ} (h : Left x j (s.place w) n)
    (hrun : Run.exec x.system s ls = some t) (hown : ∀ l ∈ ls, ¬l.Own w) :
    ∃ n', n = n' + ls.countP (Label.isInstr w) ∧ Left x j (t.place w) n' := by
  induction ls generalizing s n with
  | nil =>
    cases hrun
    exact ⟨n, rfl, h⟩
  | cons l ls ih =>
    obtain ⟨u, hst, hrun⟩ := Option.bind_eq_some_iff.mp hrun
    have hown' (l') (hl' : l' ∈ ls) : ¬l'.Own w := hown l' (List.mem_cons_of_mem l hl')
    cases hl : l.isInstr w with
    | true =>
      have heq : l = .instr w := by
        cases l with
        | instr w' => exact congrArg Label.instr (of_decide_eq_true hl)
        | _ => cases hl
      rw [heq] at hst
      obtain ⟨n₁, hn₁, h₁⟩ := h.instr hst
      obtain ⟨n₂, hn₂, h₂⟩ := ih h₁ hrun hown'
      refine ⟨n₂, ?_, h₂⟩
      rw [List.countP_cons_of_pos hl]
      omega
    | false =>
      rw [← step_place hst (hown l List.mem_cons_self) hl] at h
      rw [List.countP_cons_of_neg (by rw [hl]; decide)]
      exact ih h hrun hown'

/-- The instructions to go, when nothing else happens. -/
theorem Holds.alone_exec {n : ℕ} (h : Holds x V s) (hleft : Left x j (s.place w) n) :
    ∃ t, Run.exec x.system s (List.replicate n (.instr w)) = some t ∧ t.place w = .own j ∧ t.live = s.live := by
  induction n generalizing s with
  | zero => exact ⟨s, rfl, hleft.eq_own, rfl⟩
  | succ n ih =>
    obtain ⟨u, hu, hholds⟩ := h.instr w fun _ => hleft.ne_own
    obtain ⟨n', hn', hleft'⟩ := hleft.instr hu
    obtain rfl : n = n' := Nat.succ.inj hn'
    obtain ⟨t, ht, hplace, hlive⟩ := ih hholds hleft'
    refine ⟨t, ?_, hplace, ?_⟩
    · rw [List.replicate_succ, Run.exec_cons]
      exact Option.bind_eq_some_iff.mpr ⟨u, hu, ht⟩
    · obtain ⟨f, -, hf⟩ := Option.bind_eq_some_iff.mp hu
      obtain ⟨r, -, rfl⟩ := Option.map_eq_some_iff.mp hf
      exact hlive

end Completion

/-! ## A worker with one task -/

namespace OneTask

def world : World Bool Unit where
  platform := .linux
  ctx k := if k then 0x2000 else 0x1000
  stack k := span (if k then 0x20000 else 0x10000) 0x1000
  main _ := false
  bthreadStart := 0x400000
  aligned := by decide
  disjoint k := by
    cases k with
    | false => exact (disjoint_span (by decide) (by decide)).symm
    | true => exact (disjoint_span (by decide) (by decide)).symm
  main_injective _ _ _ := rfl
  main_disjoint w w' h := absurd rfl h

/-- A core with some registers set. -/
def regs (rdi rsi rcx r8 rsp : BitVec 64) : Core where
  reg
    | .rdi => rdi
    | .rsi => rsi
    | .rcx => rcx
    | .r8 => r8
    | .rsp => rsp
    | _ => 0
  xmm _ := 0
  rip := 0

/-- The worker is about to make a context for the task. -/
def start : State Bool Unit where
  core _ := regs 0x2000 0x21000 0x400100 7 0x10F00
  mem _ := 0
  place _ := .own false
  live := Set.range world.main

theorem reachable_start : Run.Reachable world.system start := .init ⟨fun _ => rfl, rfl⟩

theorem exists_make : ∃ s, world.system.step start (.make () false true 0x21000 0x400100 7) = some s ∧
    s.place () = .own false ∧ false ∈ s.live ∧ true ∈ s.live := by
  have hargs : MakeArgs .linux (start.core ()) start.mem (world.ctx true) 0x21000 0x400100 7 := ⟨rfl, rfl, rfl, rfl⟩
  obtain ⟨c, hexec, -⟩ := makeContext_exec world.bthreadStart hargs
  refine ⟨{ start.set () c (made start.mem (world.ctx true) 0x21000 0x400100 7 world.bthreadStart) (.own false) with
    live := insert true start.live }, ?_, rfl, .inr ⟨(), rfl⟩, .inl rfl⟩
  refine Option.ite_none_right_eq_some.mpr ⟨⟨rfl, hargs, fun _ => ?_, ?_, ?_⟩, ?_⟩
  · simp [start, Place.uses]
  · rintro _ ⟨-, rfl⟩ -
    have h₁ : Disjoint (span 0x1000 CONTEXT_SIZE) (span 0x2000 CONTEXT_SIZE) :=
      disjoint_span (by decide) (by decide)
    have h₂ : Disjoint (span 0x1000 CONTEXT_SIZE) (span 0x20000 0x1000) := disjoint_span (by decide) (by decide)
    have h₃ : Disjoint (span 0x2000 CONTEXT_SIZE) (span 0x10000 0x1000) := disjoint_span (by decide) (by decide)
    have h₄ : Disjoint (span 0x10000 0x1000) (span 0x20000 0x1000) := disjoint_span (by decide) (by decide)
    exact Set.disjoint_union_left.mpr ⟨Set.disjoint_union_right.mpr ⟨h₁, h₂⟩,
      Set.disjoint_union_right.mpr ⟨h₃.symm, h₄⟩⟩
  · exact span_subset (by decide) (by decide) (by decide)
  · rw [show world.abi = Platform.linux.abi from rfl, hexec]
    rfl

/-- The worker's core switches from one context to the other. -/
theorem exists_switch {s : State Bool Unit} {k j : Bool} (hs : Run.Reachable world.system s)
    (hown : s.place () = .own k) (hk : k ∈ s.live) (hj : j ∈ s.live) (hne : j ≠ k) :
    ∃ c s₁ s₂ t, world.system.step s (.compute () k c s.mem) = some s₁ ∧
      world.system.step s₁ (.call () k j) = some s₂ ∧
      Run.exec world.system s₂ (List.replicate 19 (.instr ())) = some t ∧ t.place () = .own j ∧ k ∈ t.live ∧
      j ∈ t.live := by
  let c := regs (world.ctx k) (world.ctx j) 0 0 (if k then 0x20F00 else 0x10F00)
  let s₁ := s.set () c s.mem (.own k)
  let s₂ := s₁.set () c s.mem (.saving k j (saveCode .rdi Linux.slots))
  have h₁ : world.system.step s (.compute () k c s.mem) = some s₁ :=
    Option.ite_none_right_eq_some.mpr ⟨⟨hown, Set.eqOn_refl s.mem _⟩, rfl⟩
  have h₂ : world.system.step s₁ (.call () k j) = some s₂ := by
    refine Option.ite_none_right_eq_some.mpr ⟨⟨rfl, rfl, rfl, ?_, hj, fun _ => hne⟩, rfl⟩
    have hmain : span 0x10F00 8 ⊆ span 0x10000 0x1000 := span_subset (by decide) (by decide) (by decide)
    have htask : span 0x20F00 8 ⊆ span 0x20000 0x1000 := span_subset (by decide) (by decide) (by decide)
    cases k with
    | false => exact hmain
    | true => exact htask
  obtain ⟨V, hholds⟩ := holds_of_reachable (Run.Reach.step (Run.Reach.step hs trivial h₁) trivial h₂)
  have hleft : Left world j (s₂.place ()) 19 := .saving (by simp [saveCode, retCode])
  obtain ⟨t, ht, hplace, hlive⟩ := hholds.alone_exec hleft
  exact ⟨c, s₁, s₂, t, h₁, h₂, ht, hplace, hlive ▸ hk, hlive ▸ hj⟩

end OneTask

section Results

variable [DecidableEq W] [DecidableEq K] {x : World K W} {s t : State K W} {w : W} {k j : K}

/-! ## The results -/

/-- **`SwapContext` returns** to the code that has called it: when the context that a core has left in `s` is in its own
code again, on this core or on another, after whatever the cores have done but a step of the context itself, the
registers that a function has to keep are those of the call, the stack pointer is that of the call after the return,
the core is at the return address, and the memory of the context is as it was. -/
theorem swapContext_returns {s₁ : State K W} {w' : W} {ls : List (Label K W)} (hs : Run.Reachable x.system s)
    (hcall : x.system.step s (.call w k j) = some s₁) (hrun : Run.exec x.system s₁ ls = some t)
    (hquiet : ∀ l ∈ ls, ¬l.Touches k) (hback : t.place w' = .own k) :
    (∀ r, .inl r ∈ x.abi.calleeSaved → (t.core w').reg r = (s.core w).reg r) ∧
      (∀ y, .inr y ∈ x.abi.calleeSaved → (t.core w').xmm y = (s.core w).xmm y) ∧
      (t.core w').reg .rsp = (s.core w).reg .rsp + 8 ∧ (t.core w').rip = read 64 s.mem ((s.core w).reg .rsp) ∧
      Set.EqOn t.mem s.mem (x.stack k) := by
  obtain ⟨V, h⟩ := holds_of_reachable hs
  obtain ⟨⟨hw, hfrom, hto, hrsp, hj⟩, heq⟩ := Option.ite_none_right_eq_some.mp hcall
  cases heq
  obtain ⟨V', h', hV'⟩ := (h.call hw hfrom hto hrsp hj).exec hrun
  have hat := h'.place w'
  rw [hback, At, hV' k hquiet, Function.update_self] at hat
  obtain ⟨hreg, hxmm⟩ := hat.calleeSaved
  refine ⟨fun r hr => ?_, hxmm, hat.rsp, hat.rip, hat.mem⟩
  have hne : r ≠ .rsp := fun heq => rsp_notMem x.abi (heq ▸ hr)
  exact (hreg r hr).trans ((s.core w).setReg_of_ne _ hne)

open OneTask in
theorem swapContext_returns_there_and_back : ∃ s t : State Bool Unit, s.place () = .own false ∧
    t.place () = .own false ∧ (t.core ()).reg .rsp = (s.core ()).reg .rsp + 8 := by
  obtain ⟨s₀, hmake, hown, hfalse, htrue⟩ := exists_make
  have hs₀ : Run.Reachable world.system s₀ := .step reachable_start trivial hmake
  obtain ⟨c, s₁, s₂, t, h₁, h₂, ht, hplace, hk, hj⟩ := exists_switch hs₀ hown hfalse htrue (by decide)
  have hs₁ : Run.Reachable world.system s₁ := .step hs₀ trivial h₁
  have hreach : Run.Reachable world.system t := Run.reachable_exec (.step hs₁ trivial h₂) ht
  obtain ⟨c', t₁, t₂, u, k₁, k₂, hu, hback, -, -⟩ := exists_switch hreach hplace hj hk (by decide)
  have hswitch : Run.exec world.system t [.compute () true c' t.mem, .call () true false] = some t₂ := by
    rw [Run.exec_cons, k₁]
    exact congrArg (Option.bind · _) k₂
  have hrun := Run.exec_trans ht (Run.exec_trans hswitch hu)
  have hquiet : ∀ l ∈ List.replicate 19 (Label.instr ()) ++
      ([.compute () true c' t.mem, .call () true false] ++ List.replicate 19 (Label.instr ())),
      ¬l.Touches false := by
    simp [Label.Touches]
  have hreturns := swapContext_returns hs₁ h₂ hrun hquiet hback
  exact ⟨s₁, u, (Option.ite_none_right_eq_some.mp h₂).1.1, hback, hreturns.2.2.1⟩

/-- **A switch is completed**: whatever the other cores do, until the core has done as many instructions as
`SwapContext` has it can do the next one, and then it is in the code of the other context. -/
theorem swapContext_completes {s₁ : State K W} {ls : List (Label K W)}
    (hs : Run.Reachable x.system s) (hcall : x.system.step s (.call w k j) = some s₁)
    (hrun : Run.exec x.system s₁ ls = some t) (hown : ∀ l ∈ ls, ¬l.Own w) :
    ls.countP (Label.isInstr w) ≤ x.abi.swapContext.length ∧
      (ls.countP (Label.isInstr w) < x.abi.swapContext.length → ∃ u, x.system.step t (.instr w) = some u) ∧
      (ls.countP (Label.isInstr w) = x.abi.swapContext.length → t.place w = .own j) := by
  have hlength : x.abi.swapContext.length = (saveCode x.abi.fromReg x.abi.slots).length +
      (loadCode x.abi.toReg x.abi.slots).length := by
    rw [x.abi.swap_eq, List.length_append]
  have hstart : Left x j (s₁.place w) x.abi.swapContext.length := by
    obtain ⟨-, heq⟩ := Option.ite_none_right_eq_some.mp hcall
    cases heq
    rw [s.set_place, hlength]
    exact .saving (by simp [saveCode, retCode])
  obtain ⟨V, ht⟩ := holds_of_reachable (Run.reachable_exec (.step hs trivial hcall) hrun)
  obtain ⟨n, hn, hleft⟩ := hstart.exec hrun hown
  refine ⟨by omega, fun hlt => ?_, fun heq => ?_⟩
  · obtain ⟨n', rfl⟩ : ∃ n', n = n' + 1 := ⟨n - 1, by omega⟩
    obtain ⟨u, hu, -⟩ := ht.instr w fun _ => hleft.ne_own
    exact ⟨u, hu⟩
  · obtain rfl : n = 0 := by omega
    exact hleft.eq_own

open OneTask in
theorem swapContext_completes_nineteen : ∃ t : State Bool Unit, t.place () = .own true := by
  obtain ⟨s₀, hmake, hown, hfalse, htrue⟩ := exists_make
  have hs₀ : Run.Reachable world.system s₀ := .step reachable_start trivial hmake
  obtain ⟨c, s₁, s₂, t, h₁, h₂, ht, -⟩ := exists_switch hs₀ hown hfalse htrue (by decide)
  have hcompletes := swapContext_completes (.step hs₀ trivial h₁) h₂ ht (by simp [Label.Own])
  exact ⟨t, hcompletes.2.2 (by decide)⟩

theorem sub_add_eight (top : Addr) : top - 32 + BitVec.ofNat 64 8 = top - 24 := by bv_omega

theorem sub_mod_sixteen {top : Addr} (h : top.toNat % 16 = 0) : (top - 24).toNat % 16 = 8 := by bv_omega

/-- **A new context is entered**: when the context that `MakeContext` has made is in its own code for the first time, on
whatever core and after whatever steps of the others, the core is at `BthreadStart`, which goes to the function with the
argument in the register of the first one, and with the stack pointer where a call leaves it: 8 bytes off a multiple of
16. The word there, which a return of the function would go to, is the function again. -/
theorem bthreadStart_enters {s₁ : State K W} {w' : W} {ls : List (Label K W)} {top fn arg : Addr}
    (hs : Run.Reachable x.system s) (hmake : x.system.step s (.make w k j top fn arg) = some s₁)
    (hrun : Run.exec x.system s₁ ls = some t) (hquiet : ∀ l ∈ ls, ¬l.Touches j) (hback : t.place w' = .own j)
    (htop : top.toNat % 16 = 0) :
    (t.core w').rip = x.bthreadStart ∧ ∃ c, exec x.abi.bthreadStart (t.core w') t.mem = some (c, t.mem) ∧
      c.rip = fn ∧ c.reg x.abi.argReg = arg ∧ c.reg .rsp = top - 24 ∧ (c.reg .rsp).toNat % 16 = 8 ∧
      read 64 t.mem (c.reg .rsp) = fn := by
  obtain ⟨V, h⟩ := holds_of_reachable hs
  obtain ⟨⟨hw, hargs, hj, hapart, hstack⟩, hst⟩ := Option.ite_none_right_eq_some.mp hmake
  obtain ⟨c', hexec, -⟩ := makeContext_exec x.bthreadStart hargs
  obtain ⟨v, hslots, hrsp, hrip⟩ := exists_made x.abi (made s.mem (x.ctx j) top fn arg x.bthreadStart) (x.ctx j) top
    x.bthreadStart
  rw [World.abi, hexec] at hst
  cases hst
  have hmade := h.make (r := (c', made s.mem (x.ctx j) top fn arg x.bthreadStart)) hw rfl hj hapart hstack hslots hrsp
    hrip
  obtain ⟨V', h', hV'⟩ := hmade.exec hrun
  have hat := h'.place w'
  rw [hback, At, hV' j hquiet, Function.update_self] at hat
  -- the words that `MakeContext` has written are still on the stack
  have hdisj : Disjoint (span (top - 32) 32) (span (x.ctx j) CONTEXT_SIZE) := (x.disjoint j).mono_left hstack
  have hword {d : ℕ} (hd : d + 8 ≤ 32) : read 64 t.mem (top - 32 + BitVec.ofNat 64 d) =
      read 64 (made s.mem (x.ctx j) top fn arg x.bthreadStart) (top - 32 + BitVec.ofNat 64 d) :=
    read_congr (n := 8) (hat.mem.mono ((span_add_subset hd (by decide)).trans hstack)) (by decide) (by decide)
  have hfn := (hword (d := 8) (by decide)).trans (made_fn hdisj)
  have harg := (hword (d := 16) (by decide)).trans (made_arg hdisj)
  obtain ⟨c, hc, hcrip, hcarg, hcrsp⟩ := bthreadStart_exec (p := x.platform) (hat.rsp.trans hrsp) hfn harg
  refine ⟨hat.rip.trans hrip, c, hc, hcrip, hcarg, hcrsp, ?_, ?_⟩
  · rw [hcrsp]
    exact sub_mod_sixteen htop
  · rw [hcrsp, ← sub_add_eight]
    exact hfn

open OneTask in
theorem bthreadStart_enters_task : ∃ (t : State Bool Unit) (c : Core), t.place () = .own true ∧
    exec Linux.bthreadStart (t.core ()) t.mem = some (c, t.mem) ∧ c.rip = 0x400100 ∧ c.reg .rdi = 7 := by
  obtain ⟨s₀, hmake, hown, hfalse, htrue⟩ := exists_make
  obtain ⟨c, s₁, s₂, t, h₁, h₂, ht, hplace, -⟩ :=
    exists_switch (.step reachable_start trivial hmake) hown hfalse htrue (by decide)
  have hswitch : Run.exec world.system s₀ [.compute () false c s₀.mem, .call () false true] = some s₂ := by
    rw [Run.exec_cons, h₁]
    exact congrArg (Option.bind · _) h₂
  have hrun := Run.exec_trans hswitch ht
  have hquiet : ∀ l ∈ [.compute () false c s₀.mem, .call () false true] ++ List.replicate 19 (Label.instr ()),
      ¬l.Touches true := by
    simp [Label.Touches]
  obtain ⟨-, c', hexec, hrip, harg, -⟩ := bthreadStart_enters reachable_start hmake hrun hquiet hplace (by decide)
  exact ⟨t, c', hplace, hexec, hrip, harg⟩

end Results

end Cothread.Context
