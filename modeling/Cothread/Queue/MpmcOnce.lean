import Cothread.Queue.Mpmc
import Mathlib.Data.List.Nodup

/-!
# `MpmcQueue`: no item is returned twice

`claimed` does not exclude that two consumers hold one item. What does is that `head_` moves off each item at most once:
`moved` are the items that a consumer has moved `head_` off. The published items that are not moved are linked among
themselves, no two to the same item, and none to `head_` or to an item whose own link is still to be written (`Shape`).
A consumer returns the item that it has moved `head_` off (`Inv`, `popped_at_most_once`).
-/

namespace Cothread.Mpmc

open Run

variable {X C : Type*}

/-- The exchange of `tail_`, or the one of `head_` that succeeded, is behind. -/
def AddPc.published : AddPc X → Bool
  | .link _ | .setHead | .setTail | .done => true
  | _ => false

/-- Published, and the link to it is still to be written. -/
def AddPc.root : AddPc X → Bool
  | .link _ | .setHead => true
  | _ => false

/-- The item that this `PopFromHead` has read from `head_`. -/
def PopPc.node : PopPc X → Option X
  | .loadHead | .loadTail => none
  | .claim h | .loadNext h | .casNull h | .clearTail h | .casNext h _ | .unclaim h | .helpNext h | .helpCas h _
  | .helpTail h | .helpNull h | .helpClear h => some h

/-- The call that adds the item has linked it to `head_` or to another item. -/
def State.added (s : State X C) (x : X) : Prop := s.add x = .setTail ∨ s.add x = .done

/-- Published, and `head_` has not been moved off it. -/
def Listed (add : X → AddPc X) (moved : X → Prop) (x : X) : Prop := (add x).published = true ∧ ¬moved x

/-- Published, without a successor, and not about to be put into `tail_`. -/
def Open (next : X → Option X) (add : X → AddPc X) (x : X) : Prop :=
  (add x).published = true ∧ add x ≠ .setTail ∧ next x = none

/-- How the published items are linked. -/
structure Shape (head tail : Option X) (next : X → Option X) (add : X → AddPc X) (moved : X → Prop) : Prop where
  movedPublished : ∀ x, moved x → (add x).published = true
  headListed : ∀ h, head = some h → Listed add moved h ∧ ∀ x, Listed add moved x → next x ≠ some h
  nextListed : ∀ x n, Listed add moved x → next x = some n → Listed add moved n
  nextInj : ∀ x y n, Listed add moved x → Listed add moved y → next x = some n → next y = some n → x = y
  nextPublished : ∀ x n, (add x).published = true → next x = some n → (add n).published = true
  rootApart : ∀ x, (add x).root = true → ¬moved x ∧ head ≠ some x ∧ ∀ z, (add z).published = true → next z ≠ some x
  tailOpen : ∀ t, tail = some t → Open next add t ∧ ∀ z, add z ≠ .link t
  linkOpen : ∀ z p, add z = .link p → Open next add p
  linkUnique : ∀ z z' p, add z = .link p → add z' = .link p → z = z'
  setTailNext : ∀ y, add y = .setTail → next y = none
  freshNext : ∀ y, add y = .clearClaimed ∨ add y = .exchange → next y = none
  casHeadNext : ∀ y o, add y = .casHead o → next y = o

/-- The links, and what the consumers hold. -/
structure Inv (s : State X C) (moved : X → Prop) : Prop where
  shape : Shape s.mem.head s.mem.tail s.mem.next s.add moved
  node : ∀ c pc h, s.pop c = some pc → pc.node = some h → (s.add h).published = true
  reads : ∀ c h n, s.pop c = some (.casNext h n) ∨ s.pop c = some (.helpCas h n) → s.mem.next h = some n
  nodup : s.returned.Nodup
  returned : ∀ x ∈ s.returned, moved x
  leaving : ∀ c h, s.pop c = some (.clearTail h) → moved h ∧ h ∉ s.returned
  leavingUnique : ∀ c c' h, s.pop c = some (.clearTail h) → s.pop c' = some (.clearTail h) → c = c'

/-! ## The links -/

section Shape

variable {head tail : Option X} {next : X → Option X} {add : X → AddPc X} {moved : X → Prop} {x : X}

theorem AddPc.root_published {pc : AddPc X} (h : pc.root = true) : pc.published = true := by
  cases pc <;> first | rfl | cases h

/-- `head_` moves off an item, to null or to its successor. -/
theorem Shape.move (h : Shape head tail next add moved) (hx : head = some x) {o : Option X}
    (ho : o = none ∨ o = next x) : Shape o tail next add (fun y => y = x ∨ moved y) := by
  obtain ⟨hlisted, hhead⟩ := h.headListed x hx
  have hweak : ∀ y, Listed add (fun y => y = x ∨ moved y) y → y ≠ x ∧ Listed add moved y := fun y hy =>
    ⟨fun e => hy.2 (Or.inl e), hy.1, fun hm => hy.2 (Or.inr hm)⟩
  -- a listed item is nobody's successor but the next one's, so the new `head_` is not `x`
  have hlist : ∀ y n, Listed add moved y → next y = some n → Listed add (fun y => y = x ∨ moved y) n := by
    intro y n hy hn
    obtain ⟨hpub, hnm⟩ := h.nextListed y n hy hn
    refine ⟨hpub, fun hm => hm.elim (fun e => ?_) hnm⟩
    subst e
    exact hhead y hy hn
  refine { h with
    movedPublished := fun y hy => hy.elim (fun e => e ▸ hlisted.1) (h.movedPublished y)
    headListed := fun n hn => ?_
    nextListed := fun y n hy => hlist y n (hweak y hy).2
    nextInj := fun y z n hy hz => h.nextInj y z n (hweak y hy).2 (hweak z hz).2
    rootApart := fun y hy => ?_ }
  · have hxn : next x = some n := by
      rcases ho with rfl | rfl
      · cases hn
      · exact hn
    refine ⟨hlist x n hlisted hxn, fun y hy hyn => ?_⟩
    obtain ⟨hyx, hy⟩ := hweak y hy
    exact hyx (h.nextInj y x n hy hlisted hyn hxn)
  · obtain ⟨hnm, hne, hapart⟩ := h.rootApart y hy
    refine ⟨fun hm => hm.elim (fun e => ?_) hnm, fun hoy => ?_, hapart⟩
    · subst e
      exact hne hx
    · rcases ho with rfl | rfl
      · cases hoy
      · exact hapart x hlisted.1 hoy

theorem Shape.clear (h : Shape head tail next add moved) : Shape head none next add moved :=
  { h with tailOpen := nofun }

variable [DecidableEq X]

/-- A call that has not published its item goes on; the successor of its item may change. -/
theorem Shape.prepare (h : Shape head tail next add moved) {pc : AddPc X} {v : Option X}
    (hx : (add x).published = false)
    (hpc : pc.published = false) (hf : pc = .clearClaimed ∨ pc = .exchange → v = none)
    (hc : ∀ o, pc = .casHead o → v = o) :
    Shape head tail (Function.update next x v) (Function.update add x pc) moved := by
  have hne : ∀ y, (add y).published = true → y ≠ x := fun y hy e => by
    rw [e, hx] at hy
    cases hy
  have hpub : ∀ y, (Function.update add x pc y).published = true ↔ (add y).published = true := fun y => by
    by_cases hyx : y = x
    · subst hyx
      simp [hx, hpc]
    · rw [Function.update_of_ne hyx]
  have hnext : ∀ y, (add y).published = true → Function.update next x v y = next y := fun y hy =>
    Function.update_of_ne (hne y hy) _ _
  -- what a published item is doing has not changed
  have hsame : ∀ k : AddPc X, k.published = true → ∀ y, Function.update add x pc y = k ↔ add y = k := by
    intro k hk y
    by_cases hyx : y = x
    · subst hyx
      rw [Function.update_self]
      exact iff_of_false (fun e => by simp [← e, hpc] at hk) fun e => by simp [← e, hx] at hk
    · rw [Function.update_of_ne hyx]
  have hlisted : ∀ y, Listed (Function.update add x pc) moved y ↔ Listed add moved y := fun y =>
    and_congr_left fun _ => hpub y
  have hopen : ∀ y, Open next add y → Open (Function.update next x v) (Function.update add x pc) y := fun y hy =>
    ⟨(hpub y).mpr hy.1, fun e => hy.2.1 ((hsame .setTail rfl y).mp e), (hnext y hy.1).trans hy.2.2⟩
  refine ⟨fun y hy => (hpub y).mpr (h.movedPublished y hy), fun n hn => ?_, fun y n hy hn => ?_,
    fun y z n hy hz hyn hzn => ?_, fun y n hy hn => ?_, fun y hy => ?_, fun t ht => ?_, fun z p hz => ?_,
    fun z z' p hz hz' => ?_, fun y hy => ?_, fun y hy => ?_, fun y o hy => ?_⟩
  · obtain ⟨hl, hno⟩ := h.headListed n hn
    refine ⟨(hlisted n).mpr hl, fun y hy => ?_⟩
    rw [hlisted] at hy
    rw [hnext y hy.1]
    exact hno y hy
  · rw [hlisted] at hy ⊢
    rw [hnext y hy.1] at hn
    exact h.nextListed y n hy hn
  · rw [hlisted] at hy hz
    rw [hnext y hy.1] at hyn
    rw [hnext z hz.1] at hzn
    exact h.nextInj y z n hy hz hyn hzn
  · rw [hpub] at hy ⊢
    rw [hnext y hy] at hn
    exact h.nextPublished y n hy hn
  · have hyx : y ≠ x := hne y ((hpub y).mp (AddPc.root_published hy))
    rw [Function.update_of_ne hyx] at hy
    obtain ⟨h1, h2, h3⟩ := h.rootApart y hy
    refine ⟨h1, h2, fun z hz => ?_⟩
    rw [hpub] at hz
    rw [hnext z hz]
    exact h3 z hz
  · obtain ⟨ho, hno⟩ := h.tailOpen t ht
    exact ⟨hopen t ho, fun z hz => hno z ((hsame (.link t) rfl z).mp hz)⟩
  · exact hopen p (h.linkOpen z p ((hsame (.link p) rfl z).mp hz))
  · exact h.linkUnique z z' p ((hsame (.link p) rfl z).mp hz) ((hsame (.link p) rfl z').mp hz')
  · rw [hsame .setTail rfl] at hy
    rw [hnext y (by rw [hy]; rfl)]
    exact h.setTailNext y hy
  · by_cases hyx : y = x
    · subst hyx
      rw [Function.update_self] at hy ⊢
      exact hf hy
    · rw [Function.update_of_ne hyx] at hy ⊢
      exact h.freshNext y hy
  · by_cases hyx : y = x
    · subst hyx
      rw [Function.update_self] at hy ⊢
      exact hc o hy
    · rw [Function.update_of_ne hyx] at hy ⊢
      exact h.casHeadNext y o hy

/-- A call that has not published its item goes on. -/
theorem Shape.advance (h : Shape head tail next add moved) {pc : AddPc X} (hx : (add x).published = false)
    (hpc : pc.published = false) (hf : pc = .clearClaimed ∨ pc = .exchange → next x = none)
    (hc : ∀ o, pc = .casHead o → next x = o) : Shape head tail next (Function.update add x pc) moved := by
  have hs := h.prepare hx hpc hf hc
  rwa [Function.update_eq_self] at hs

theorem published_update {pc : AddPc X} (hpc : pc.published = true) (y : X) :
    (Function.update add x pc y).published = true ↔ y = x ∨ (add y).published = true := by
  by_cases hyx : y = x
  · subst hyx
    simp [hpc]
  · simp [hyx]

theorem update_eq_iff {pc k : AddPc X} (hk : pc ≠ k) (y : X) :
    Function.update add x pc y = k ↔ y ≠ x ∧ add y = k := by
  by_cases hyx : y = x
  · subst hyx
    simp [hk]
  · simp [hyx]

theorem done_link {z p : X} (hz : Function.update add x .done z = .link p) : z ≠ x ∧ add z = .link p :=
  (update_eq_iff (fun e => by cases e) z).mp hz

theorem done_setTail {z : X} (hz : Function.update add x .done z = .setTail) : z ≠ x ∧ add z = .setTail :=
  (update_eq_iff (fun e => by cases e) z).mp hz

/-- An item whose own call goes on is as open as before. -/
theorem Open.update {next' : X → Option X} {pc : AddPc X} {y : X} (h : Open next add y) (hpc : pc.published = true)
    (hset : y = x → pc ≠ .setTail) (hnext : next' y = next y) : Open next' (Function.update add x pc) y := by
  refine ⟨(published_update hpc y).mpr (Or.inr h.1), fun e => ?_, hnext.trans h.2.2⟩
  by_cases hyx : y = x
  · subst hyx
    rw [Function.update_self] at e
    exact hset rfl e
  · rw [Function.update_of_ne hyx] at e
    exact h.2.1 e

theorem fresh_update {pc : AddPc X} (hpc : pc.published = true) {y : X}
    (hy : Function.update add x pc y = .clearClaimed ∨ Function.update add x pc y = .exchange) :
    y ≠ x ∧ (add y = .clearClaimed ∨ add y = .exchange) := by
  have hne : ∀ k : AddPc X, k.published = false → pc ≠ k := fun k hk e => by
    rw [e, hk] at hpc
    cases hpc
  rw [update_eq_iff (hne _ rfl), update_eq_iff (hne _ rfl)] at hy
  exact hy.elim (fun h => ⟨h.1, Or.inl h.2⟩) fun h => ⟨h.1, Or.inr h.2⟩

theorem casHead_update {pc : AddPc X} (hpc : pc.published = true) {y : X} {o : Option X}
    (hy : Function.update add x pc y = .casHead o) : y ≠ x ∧ add y = .casHead o := by
  refine (update_eq_iff (fun e => ?_) y).mp hy
  rw [e] at hpc
  cases hpc

/-- The exchange of `tail_`. -/
theorem Shape.exchange (h : Shape head tail next add moved) (hx : add x = .exchange) {pc : AddPc X}
    (hpc : tail = none ∧ pc = .setHead ∨ ∃ p, tail = some p ∧ pc = .link p) :
    Shape head (some x) next (Function.update add x pc) moved := by
  have hnext : next x = none := h.freshNext x (Or.inr hx)
  have hfalse : (add x).published ≠ true := by rw [hx]; exact nofun
  have hmoved : ¬moved x := fun hm => hfalse (h.movedPublished x hm)
  have hhead : head ≠ some x := fun hh => hfalse (h.headListed x hh).1.1
  have hapart : ∀ z, (add z).published = true → next z ≠ some x := fun z hz hn => hfalse (h.nextPublished z x hz hn)
  have hpub : pc.published = true := by
    rcases hpc with ⟨_, rfl⟩ | ⟨p, _, rfl⟩ <;> rfl
  have hset : pc ≠ .setTail := by
    rcases hpc with ⟨_, rfl⟩ | ⟨p, _, rfl⟩ <;> exact nofun
  have hlinked : ∀ z p, Function.update add x pc z = .link p → z = x ∧ tail = some p ∨ z ≠ x ∧ add z = .link p := by
    intro z p hz
    by_cases hzx : z = x
    · rw [hzx, Function.update_self] at hz
      rcases hpc with ⟨_, rfl⟩ | ⟨q, ht, rfl⟩
      · cases hz
      · cases hz
        exact Or.inl ⟨hzx, ht⟩
    · rw [Function.update_of_ne hzx] at hz
      exact Or.inr ⟨hzx, hz⟩
  have hpred : ∀ z n, (Function.update add x pc z).published = true → next z = some n →
      z ≠ x ∧ (add z).published = true := by
    intro z n hz hn
    rcases (published_update hpub z).mp hz with rfl | hz
    · rw [hnext] at hn
      cases hn
    · refine ⟨fun e => hfalse (e ▸ hz), hz⟩
  have hopen : ∀ y, Open next add y → Open next (Function.update add x pc) y := fun y hy =>
    hy.update hpub (fun _ => hset) rfl
  refine ⟨fun y hy => ?_, fun n hn => ?_, fun y n hy hn => ?_, fun y z n hy hz hyn hzn => ?_, fun y n hy hn => ?_,
    fun y hy => ?_, fun t ht => ?_, fun z p hz => ?_, fun z z' p hz hz' => ?_, fun y hy => ?_, fun y hy => ?_,
    fun y o hy => ?_⟩
  · exact (published_update hpub y).mpr (Or.inr (h.movedPublished y hy))
  · obtain ⟨hl, hno⟩ := h.headListed n hn
    refine ⟨⟨(published_update hpub n).mpr (Or.inr hl.1), hl.2⟩, fun y hy hyn => ?_⟩
    exact hno y ⟨(hpred y n hy.1 hyn).2, hy.2⟩ hyn
  · obtain ⟨hl, hm⟩ := h.nextListed y n ⟨(hpred y n hy.1 hn).2, hy.2⟩ hn
    exact ⟨(published_update hpub n).mpr (Or.inr hl), hm⟩
  · exact h.nextInj y z n ⟨(hpred y n hy.1 hyn).2, hy.2⟩ ⟨(hpred z n hz.1 hzn).2, hz.2⟩ hyn hzn
  · exact (published_update hpub n).mpr (Or.inr (h.nextPublished y n (hpred y n hy hn).2 hn))
  · by_cases hyx : y = x
    · subst hyx
      exact ⟨hmoved, hhead, fun z hz hn => hapart z (hpred z y hz hn).2 hn⟩
    · rw [Function.update_of_ne hyx] at hy
      obtain ⟨h1, h2, h3⟩ := h.rootApart y hy
      exact ⟨h1, h2, fun z hz hn => h3 z (hpred z y hz hn).2 hn⟩
  · cases ht
    refine ⟨⟨(published_update hpub x).mpr (Or.inl rfl), by rwa [Function.update_self], hnext⟩, fun z hz => ?_⟩
    rcases hlinked z x hz with ⟨_, htail⟩ | ⟨_, hz⟩
    · exact hfalse (h.tailOpen x htail).1.1
    · exact hfalse (h.linkOpen z x hz).1
  · rcases hlinked z p hz with ⟨_, htail⟩ | ⟨_, hz⟩
    · exact hopen p (h.tailOpen p htail).1
    · exact hopen p (h.linkOpen z p hz)
  · rcases hlinked z p hz with ⟨hzx, ht⟩ | ⟨_, hz⟩ <;> rcases hlinked z' p hz' with ⟨hzx', ht'⟩ | ⟨_, hz'⟩
    · rw [hzx, hzx']
    · exact absurd hz' ((h.tailOpen p ht).2 z')
    · exact absurd hz ((h.tailOpen p ht').2 z)
    · exact h.linkUnique z z' p hz hz'
  · exact h.setTailNext y ((update_eq_iff hset y).mp hy).2
  · exact h.freshNext y (fresh_update hpub hy).2
  · exact h.casHeadNext y o (casHead_update hpub hy).2

/-- The link from the former last item is written. -/
theorem Shape.link (h : Shape head tail next add moved) {p : X} (hx : add x = .link p) :
    Shape head tail (Function.update next p (some x)) (Function.update add x .done) moved := by
  obtain ⟨hmoved, hhead, hapart⟩ := h.rootApart x (by rw [hx]; rfl)
  obtain ⟨hpub, hset, hnext⟩ := h.linkOpen x p hx
  have hxpub : (add x).published = true := by rw [hx]; rfl
  have hsame : ∀ y, (Function.update add x .done y).published = true ↔ (add y).published = true := fun y =>
    (published_update rfl y).trans ⟨fun hy => hy.elim (fun e => e ▸ hxpub) id, Or.inr⟩
  -- a successor is an old one, or the new one of `p`
  have hnexts : ∀ y n, Function.update next p (some x) y = some n → y = p ∧ n = x ∨ next y = some n := by
    intro y n hn
    by_cases hyp : y = p
    · rw [hyp, Function.update_self] at hn
      exact Or.inl ⟨hyp, (Option.some.inj hn).symm⟩
    · rw [Function.update_of_ne hyp] at hn
      exact Or.inr hn
  have hopen : ∀ y, y ≠ p → Open next add y → Open (Function.update next p (some x)) (Function.update add x .done) y :=
    fun y hyp hy => hy.update rfl (fun _ => nofun) (Function.update_of_ne hyp _ _)
  refine ⟨fun y hy => (hsame y).mpr (h.movedPublished y hy), fun n hn => ?_, fun y n hy hn => ?_,
    fun y z n hy hz hyn hzn => ?_, fun y n hy hn => ?_, fun y hy => ?_, fun t ht => ?_, fun z q hz => ?_,
    fun z z' q hz hz' => ?_, fun y hy => ?_, fun y hy => ?_, fun y o hy => ?_⟩
  · obtain ⟨hl, hno⟩ := h.headListed n hn
    refine ⟨⟨(hsame n).mpr hl.1, hl.2⟩, fun y hy hyn => ?_⟩
    rcases hnexts y n hyn with ⟨_, rfl⟩ | hyn
    · exact hhead hn
    · exact hno y ⟨(hsame y).mp hy.1, hy.2⟩ hyn
  · rcases hnexts y n hn with ⟨_, rfl⟩ | hn
    · exact ⟨(hsame n).mpr hxpub, hmoved⟩
    · obtain ⟨hl, hm⟩ := h.nextListed y n ⟨(hsame y).mp hy.1, hy.2⟩ hn
      exact ⟨(hsame n).mpr hl, hm⟩
  · have hy' := (hsame y).mp hy.1
    have hz' := (hsame z).mp hz.1
    rcases hnexts y n hyn with ⟨hyp, rfl⟩ | hyn <;> rcases hnexts z n hzn with ⟨hzp, hnx⟩ | hzn
    · rw [hyp, hzp]
    · exact absurd hzn (hapart z hz')
    · rw [hnx] at hyn
      exact absurd hyn (hapart y hy')
    · exact h.nextInj y z n ⟨hy', hy.2⟩ ⟨hz', hz.2⟩ hyn hzn
  · rw [hsame] at hy ⊢
    rcases hnexts y n hn with ⟨_, rfl⟩ | hn
    · exact hxpub
    · exact h.nextPublished y n hy hn
  · have hyx : y ≠ x := by
      rintro rfl
      rw [Function.update_self] at hy
      cases hy
    rw [Function.update_of_ne hyx] at hy
    obtain ⟨h1, h2, h3⟩ := h.rootApart y hy
    refine ⟨h1, h2, fun z hz hn => ?_⟩
    rcases hnexts z y hn with ⟨_, e⟩ | hn
    · exact hyx e
    · exact h3 z ((hsame z).mp hz) hn
  · obtain ⟨ho, hno⟩ := h.tailOpen t ht
    refine ⟨hopen t (fun e => ?_) ho, fun z hz => hno z (done_link hz).2⟩
    subst e
    exact hno x hx
  · obtain ⟨hzx, hz⟩ := done_link hz
    refine hopen q (fun e => ?_) (h.linkOpen z q hz)
    subst e
    exact hzx (h.linkUnique z x q hz hx)
  · exact h.linkUnique z z' q (done_link hz).2 (done_link hz').2
  · obtain ⟨_, hy⟩ := done_setTail hy
    have hyp : y ≠ p := fun e => hset (e ▸ hy)
    rw [Function.update_of_ne hyp]
    exact h.setTailNext y hy
  · obtain ⟨_, hy⟩ := fresh_update rfl hy
    have hyp : y ≠ p := by
      rintro rfl
      rcases hy with hy | hy <;> simp [hy, AddPc.published] at hpub
    rw [Function.update_of_ne hyp]
    exact h.freshNext y hy
  · obtain ⟨_, hy⟩ := casHead_update rfl hy
    have hyp : y ≠ p := by
      rintro rfl
      simp [hy, AddPc.published] at hpub
    rw [Function.update_of_ne hyp]
    exact h.casHeadNext y o hy

/-- A call that has published its item ends; `head_` and `tail_` may change. -/
theorem Shape.finish (h : Shape head tail next add moved) (hx : (add x).published = true) {head' tail' : Option X}
    (hhead : ∀ n, head' = some n → Listed add moved n ∧ ∀ y, Listed add moved y → next y ≠ some n)
    (hroot : ∀ y, y ≠ x → (add y).root = true → head' ≠ some y)
    (htail : ∀ t, tail' = some t → Open next (Function.update add x .done) t ∧ ∀ z, add z ≠ .link t) :
    Shape head' tail' next (Function.update add x .done) moved := by
  have hsame : ∀ y, (Function.update add x .done y).published = true ↔ (add y).published = true := fun y =>
    (published_update rfl y).trans ⟨fun hy => hy.elim (fun e => e ▸ hx) id, Or.inr⟩
  have hlisted : ∀ y, Listed (Function.update add x .done) moved y ↔ Listed add moved y := fun y =>
    and_congr_left fun _ => hsame y
  refine ⟨fun y hy => (hsame y).mpr (h.movedPublished y hy), fun n hn => ?_, fun y n hy hn => ?_,
    fun y z n hy hz => ?_, fun y n hy hn => ?_, fun y hy => ?_, fun t ht => ?_, fun z q hz => ?_,
    fun z z' q hz hz' => ?_, fun y hy => ?_, fun y hy => ?_, fun y o hy => ?_⟩
  · simp only [hlisted]
    exact hhead n hn
  · rw [hlisted] at hy ⊢
    exact h.nextListed y n hy hn
  · rw [hlisted] at hy hz
    exact h.nextInj y z n hy hz
  · rw [hsame] at hy ⊢
    exact h.nextPublished y n hy hn
  · have hyx : y ≠ x := by
      rintro rfl
      rw [Function.update_self] at hy
      cases hy
    rw [Function.update_of_ne hyx] at hy
    obtain ⟨h1, _, h3⟩ := h.rootApart y hy
    exact ⟨h1, hroot y hyx hy, fun z hz => h3 z ((hsame z).mp hz)⟩
  · obtain ⟨ho, hno⟩ := htail t ht
    exact ⟨ho, fun z hz => hno z (done_link hz).2⟩
  · exact (h.linkOpen z q (done_link hz).2).update rfl (fun _ => nofun) rfl
  · exact h.linkUnique z z' q (done_link hz).2 (done_link hz').2
  · exact h.setTailNext y (done_setTail hy).2
  · exact h.freshNext y (fresh_update rfl hy).2
  · exact h.casHeadNext y o (casHead_update rfl hy).2

/-- The first item is put into `head_`, unless another one is there. -/
theorem Shape.setHead (h : Shape head tail next add moved) (hx : add x = .setHead) :
    Shape (if head = none then some x else head) tail next (Function.update add x .done) moved := by
  obtain ⟨hmoved, hhead, hapart⟩ := h.rootApart x (by rw [hx]; rfl)
  have hpub : (add x).published = true := by rw [hx]; rfl
  refine h.finish hpub (fun n hn => ?_) (fun y hyx hy hh => ?_) fun t ht => ?_
  · split_ifs at hn
    · cases hn
      exact ⟨⟨hpub, hmoved⟩, fun y hy => hapart y hy.1⟩
    · exact h.headListed n hn
  · split_ifs at hh
    · exact hyx (Option.some.inj hh).symm
    · exact (h.rootApart y hy).2.1 hh
  · exact ⟨(h.tailOpen t ht).1.update rfl (fun _ => nofun) rfl, (h.tailOpen t ht).2⟩

/-- `AddToHead` puts its item before `head_`. -/
theorem Shape.casHead (h : Shape head tail next add moved) (hx : add x = .casHead head) :
    Shape (some x) tail next (Function.update add x (if head = none then .setTail else .done)) moved := by
  have hnext : next x = head := h.casHeadNext x head hx
  have hfalse : (add x).published ≠ true := by rw [hx]; exact nofun
  have hmoved : ¬moved x := fun hm => hfalse (h.movedPublished x hm)
  have hapart : ∀ z, (add z).published = true → next z ≠ some x := fun z hz hn => hfalse (h.nextPublished z x hz hn)
  have hhead : head ≠ some x := fun hh => hfalse (h.headListed x hh).1.1
  generalize hpc : (if head = none then AddPc.setTail else AddPc.done : AddPc X) = pc
  have hpub : pc.published = true := by
    rw [← hpc]
    split_ifs <;> rfl
  have hroot : pc.root = false := by
    rw [← hpc]
    split_ifs <;> rfl
  have hlink : ∀ p, pc ≠ .link p := fun p e => by
    rw [e] at hroot
    cases hroot
  have hlisted : ∀ y, Listed (Function.update add x pc) moved y → y = x ∨ Listed add moved y := fun y hy =>
    ((published_update hpub y).mp hy.1).imp_right fun hp => ⟨hp, hy.2⟩
  have hlists : ∀ y, Listed add moved y → Listed (Function.update add x pc) moved y := fun y hy =>
    ⟨(published_update hpub y).mpr (Or.inr hy.1), hy.2⟩
  have hopen : ∀ y, Open next add y → Open next (Function.update add x pc) y := fun y hy =>
    hy.update hpub (fun e => absurd (e ▸ hy.1) hfalse) rfl
  refine ⟨fun y hy => ?_, fun n hn => ?_, fun y n hy hn => ?_, fun y z n hy hz hyn hzn => ?_, fun y n hy hn => ?_,
    fun y hy => ?_, fun t ht => ?_, fun z p hz => ?_, fun z z' p hz hz' => ?_, fun y hy => ?_, fun y hy => ?_,
    fun y o hy => ?_⟩
  · exact (published_update hpub y).mpr (Or.inr (h.movedPublished y hy))
  · cases hn
    refine ⟨⟨(published_update hpub x).mpr (Or.inl rfl), hmoved⟩, fun y hy hyn => ?_⟩
    rcases hlisted y hy with rfl | hy
    · exact hhead (hnext.symm.trans hyn)
    · exact hapart y hy.1 hyn
  · rcases hlisted y hy with rfl | hy
    · exact hlists n (h.headListed n (hnext.symm.trans hn)).1
    · exact hlists n (h.nextListed y n hy hn)
  · -- nobody's successor is `head_`, which is the one of `x`
    rcases hlisted y hy with rfl | hy <;> rcases hlisted z hz with hzx | hz
    · exact hzx.symm
    · exact absurd hzn ((h.headListed n (hnext.symm.trans hyn)).2 z hz)
    · rw [hzx, hnext] at hzn
      exact absurd hyn ((h.headListed n hzn).2 y hy)
    · exact h.nextInj y z n hy hz hyn hzn
  · rw [published_update hpub]
    right
    rcases (published_update hpub y).mp hy with rfl | hy
    · exact (h.headListed n (hnext.symm.trans hn)).1.1
    · exact h.nextPublished y n hy hn
  · by_cases hyx : y = x
    · rw [hyx, Function.update_self, hroot] at hy
      cases hy
    · rw [Function.update_of_ne hyx] at hy
      obtain ⟨h1, h2, h3⟩ := h.rootApart y hy
      refine ⟨h1, fun e => hyx (Option.some.inj e).symm, fun z hz hn => ?_⟩
      rcases (published_update hpub z).mp hz with rfl | hz
      · exact h2 (hnext.symm.trans hn)
      · exact h3 z hz hn
  · exact ⟨hopen t (h.tailOpen t ht).1, fun z hz => (h.tailOpen t ht).2 z ((update_eq_iff (hlink t) z).mp hz).2⟩
  · exact hopen p (h.linkOpen z p ((update_eq_iff (hlink p) z).mp hz).2)
  · exact h.linkUnique z z' p ((update_eq_iff (hlink p) z).mp hz).2 ((update_eq_iff (hlink p) z').mp hz').2
  · by_cases hyx : y = x
    · rw [hyx, Function.update_self, ← hpc] at hy
      split_ifs at hy with hh
      rw [hyx, hnext, hh]
    · rw [Function.update_of_ne hyx] at hy
      exact h.setTailNext y hy
  · exact h.freshNext y (fresh_update hpub hy).2
  · exact h.casHeadNext y o (casHead_update hpub hy).2

/-- `AddToHead` puts its item into `tail_`, unless another one is there. -/
theorem Shape.setTail (h : Shape head tail next add moved) (hx : add x = .setTail) :
    Shape head (if tail = none then some x else tail) next (Function.update add x .done) moved := by
  have hpub : (add x).published = true := by rw [hx]; rfl
  refine h.finish hpub h.headListed (fun y _ hy => (h.rootApart y hy).2.1) fun t ht => ?_
  split_ifs at ht
  · cases ht
    refine ⟨⟨(published_update rfl x).mpr (Or.inl rfl), ?_, h.setTailNext x hx⟩, fun z hz => ?_⟩
    · rw [Function.update_self]
      exact nofun
    · exact (h.linkOpen z x hz).2.1 hx
  · exact ⟨(h.tailOpen t ht).1.update rfl (fun _ => nofun) rfl, (h.tailOpen t ht).2⟩

end Shape

/-! ## The steps -/

section Steps

variable [DecidableEq X] [DecidableEq C] {s s' : State X C} {moved : X → Prop} {x : X} {c : C}

omit [DecidableEq C] in
/-- A producer acts: published items stay published, and keep their successors. -/
theorem Inv.adds (h : Inv s moved) {m : Mem X} {pc : AddPc X}
    (hs : Shape m.head m.tail m.next (Function.update s.add x pc) moved)
    (hpub : (s.add x).published = true → pc.published = true)
    (hnext : ∀ y n, (s.add y).published = true → s.mem.next y = some n → m.next y = some n) :
    Inv { s with mem := m, add := Function.update s.add x pc } moved where
  shape := hs
  node c k y hc hy := by
    have hold := h.node c k y hc hy
    show (Function.update s.add x pc y).published = true
    by_cases hyx : y = x
    · rw [hyx] at hold ⊢
      rw [Function.update_self]
      exact hpub hold
    · rwa [Function.update_of_ne hyx]
  reads c y n hc := by
    have hy : (s.add y).published = true := hc.elim (fun hc => h.node c _ y hc rfl) (fun hc => h.node c _ y hc rfl)
    exact hnext y n hy (h.reads c y n hc)
  nodup := h.nodup
  returned := h.returned
  leaving := h.leaving
  leavingUnique := h.leavingUnique

omit [DecidableEq C] in
/-- The next access of the call that adds `x`. -/
theorem Inv.producer (h : Inv s moved) : Inv (s.producer x) moved := by
  have hquiet : (s.add x).published = false → ∀ v y n, (s.add y).published = true → s.mem.next y = some n →
      Function.update s.mem.next x v y = some n := by
    intro hx v y n hy hn
    have hyx : y ≠ x := fun e => by
      rw [e, hx] at hy
      cases hy
    rwa [Function.update_of_ne hyx]
  unfold State.producer
  cases hx : s.add x with
  | idle | done =>
    refine h.adds ?_ (by simp [hx, addStep]) fun _ _ _ hn => hn
    simpa [addStep, ← hx] using h.shape
  | clearNext =>
    exact h.adds (h.shape.prepare (by simp [hx, AddPc.published]) rfl (fun _ => rfl) nofun)
      (by simp [hx, AddPc.published]) (hquiet (by simp [hx, AddPc.published]) none)
  | clearClaimed =>
    refine h.adds ?_ (by simp [hx, AddPc.published]) fun _ _ _ hn => hn
    exact h.shape.advance (by simp [hx, AddPc.published]) rfl (fun _ => h.shape.freshNext x (Or.inl hx)) nofun
  | exchange =>
    refine h.adds (h.shape.exchange hx ?_) (by simp [hx, AddPc.published]) fun _ _ _ hn => hn
    cases ht : s.mem.tail with
    | none => exact Or.inl ⟨rfl, by simp [addStep, ht]⟩
    | some p => exact Or.inr ⟨p, rfl, by simp [addStep, ht]⟩
  | link p =>
    refine h.adds (h.shape.link hx) (fun _ => rfl) fun y n _ hn => ?_
    have hyp : y ≠ p := by
      rintro rfl
      cases (h.shape.linkOpen x y hx).2.2.symm.trans hn
    exact (Function.update_of_ne hyp _ _).trans hn
  | setHead =>
    refine h.adds ?_ (fun _ => rfl) fun y n _ hn => ?_
    · have hs := h.shape.setHead hx
      by_cases hh : s.mem.head = none <;> simpa [addStep, hh] using hs
    · by_cases hh : s.mem.head = none <;> simpa [addStep, hh] using hn
  | loadHead =>
    refine h.adds ?_ (by simp [hx, AddPc.published]) fun _ _ _ hn => hn
    exact h.shape.advance (by simp [hx, AddPc.published]) rfl nofun nofun
  | setNext o =>
    exact h.adds (h.shape.prepare (by simp [hx, AddPc.published]) rfl nofun fun _ e => AddPc.casHead.inj e)
      (by simp [hx, AddPc.published]) (hquiet (by simp [hx, AddPc.published]) o)
  | casHead o =>
    have hpub : (s.add x).published = true → False := by simp [hx, AddPc.published]
    by_cases hh : s.mem.head = o
    · subst hh
      refine h.adds ?_ (fun hp => (hpub hp).elim) fun y n _ hn => ?_
      · simpa [addStep] using h.shape.casHead hx
      · simpa [addStep] using hn
    · refine h.adds ?_ (fun hp => (hpub hp).elim) fun y n _ hn => ?_
      · have hs : Shape s.mem.head s.mem.tail s.mem.next (Function.update s.add x .loadHead) moved :=
          h.shape.advance (by simp [hx, AddPc.published]) rfl nofun nofun
        simpa [addStep, hh] using hs
      · simpa [addStep, hh] using hn
  | setTail =>
    refine h.adds ?_ (fun _ => rfl) fun y n _ hn => ?_
    · have hs := h.shape.setTail hx
      by_cases ht : s.mem.tail = none <;> simpa [addStep, ht] using hs
    · by_cases ht : s.mem.tail = none <;> simpa [addStep, ht] using hn

omit [DecidableEq X] in
/-- What a consumer does after one of them has gone on. -/
theorem eq_or_update {f : C → Option (PopPc X)} {o : Option (PopPc X)} {d : C} {pc : PopPc X}
    (h : Function.update f c o d = some pc) : d = c ∧ o = some pc ∨ d ≠ c ∧ f d = some pc := by
  by_cases hd : d = c
  · subst hd
    rw [Function.update_self] at h
    exact Or.inl ⟨rfl, h⟩
  · rw [Function.update_of_ne hd] at h
    exact Or.inr ⟨hd, h⟩

omit [DecidableEq X] in
/-- A consumer goes on, with an item that has been `head_`. -/
theorem Inv.setPop (h : Inv s moved) {m : Mem X} {pc : PopPc X} {moved' : X → Prop}
    (hs : Shape m.head m.tail m.next s.add moved') (hm : ∀ y, moved y → moved' y) (hnext : m.next = s.mem.next)
    (hnode : ∀ y, pc.node = some y → (s.add y).published = true)
    (hreads : ∀ y n, pc = .casNext y n ∨ pc = .helpCas y n → s.mem.next y = some n)
    (hleave : ∀ y, pc = .clearTail y → moved' y ∧ ¬moved y) :
    Inv { s with mem := m, pop := Function.update s.pop c (some pc) } moved' where
  shape := hs
  node d pc y hd hy := by
    rcases eq_or_update hd with ⟨_, e⟩ | ⟨_, hd⟩
    · cases e
      exact hnode y hy
    · exact h.node d pc y hd hy
  reads d y n hd := by
    show m.next y = some n
    rw [hnext]
    rcases hd with hd | hd <;> rcases eq_or_update hd with ⟨_, e⟩ | ⟨_, hd⟩
    · exact hreads y n (Or.inl (Option.some.inj e))
    · exact h.reads d y n (Or.inl hd)
    · exact hreads y n (Or.inr (Option.some.inj e))
    · exact h.reads d y n (Or.inr hd)
  nodup := h.nodup
  returned y hy := hm y (h.returned y hy)
  leaving d y hd := by
    rcases eq_or_update hd with ⟨_, e⟩ | ⟨_, hd⟩
    · obtain ⟨h1, h2⟩ := hleave y (Option.some.inj e)
      exact ⟨h1, fun hy => h2 (h.returned y hy)⟩
    · exact (h.leaving d y hd).imp_left (hm y)
  leavingUnique d d' y hd hd' := by
    -- nobody leaves an item that is not moved yet
    rcases eq_or_update hd with ⟨hdc, e⟩ | ⟨_, hd⟩ <;> rcases eq_or_update hd' with ⟨hdc', e'⟩ | ⟨_, hd'⟩
    · rw [hdc, hdc']
    · exact absurd (h.leaving d' y hd').1 (hleave y (Option.some.inj e)).2
    · exact absurd (h.leaving d y hd).1 (hleave y (Option.some.inj e')).2
    · exact h.leavingUnique d d' y hd hd'

/-- A consumer returns: the item that it has just moved `head_` off, or did before, or null. -/
theorem Inv.returns (h : Inv s moved) {spurious : Bool} {pc : PopPc X} {m : Mem X} {o : Option X}
    (hst : popStep s.mem spurious pc = (m, .returned o)) {moved' : X → Prop}
    (hs : Shape m.head m.tail m.next s.add moved') (hm : ∀ y, moved y → moved' y) (hnext : m.next = s.mem.next)
    (ho : ∀ y, o = some y → moved' y ∧ ¬moved y ∨ s.pop c = some (.clearTail y)) :
    Inv (s.consumer c spurious pc) moved' := by
  -- what is returned has not been returned before, and no other consumer is about to return it
  have hnew : ∀ y, o = some y → moved' y ∧ y ∉ s.returned ∧ ∀ d, s.pop d = some (.clearTail y) → d = c := by
    intro y hy
    obtain ⟨hy', hn⟩ | hc := ho y hy
    · exact ⟨hy', fun hr => hn (h.returned y hr), fun d hd => absurd (h.leaving d y hd).1 hn⟩
    · exact ⟨hm y (h.leaving c y hc).1, (h.leaving c y hc).2, fun d hd => h.leavingUnique d c y hd hc⟩
  have hret : ∀ y ∈ s.returned, moved' y := fun y hy => hm y (h.returned y hy)
  have hold : ∀ {d pc}, Function.update s.pop c none d = some pc → d ≠ c ∧ s.pop d = some pc := by
    intro d pc hd
    rcases eq_or_update hd with ⟨_, e⟩ | hd
    · cases e
    · exact hd
  have hmem : ∀ y, y ∈ s.returned ++ o.toList ↔ y ∈ s.returned ∨ o = some y := fun y => by
    rw [List.mem_append, Option.mem_toList]
  rw [consumer_returned hst]
  refine ⟨hs, fun d k y hd => h.node d k y (hold hd).2, fun d y n hd => ?_, ?_, fun y hy => ?_, fun d y hd => ?_,
    fun d d' y hd hd' => h.leavingUnique d d' y (hold hd).2 (hold hd').2⟩
  · show m.next y = some n
    rw [hnext]
    exact h.reads d y n (hd.imp (fun hd => (hold hd).2) fun hd => (hold hd).2)
  · cases o with
    | none => simpa using h.nodup
    | some y => exact h.nodup.append (List.nodup_singleton y) (by simpa using (hnew y rfl).2.1)
  · rcases (hmem y).mp hy with hy | hy
    · exact hret y hy
    · exact (hnew y hy).1
  · obtain ⟨hdc, hd⟩ := hold hd
    obtain ⟨hmoved, hnot⟩ := h.leaving d y hd
    refine ⟨hm y hmoved, fun hy => ?_⟩
    rcases (hmem y).mp hy with hy | hy
    · exact hnot hy
    · exact hdc ((hnew y hy).2.2 d hd)

/-- A consumer goes on with the item it has, or without one, and `head_` stays. -/
theorem Inv.stays (h : Inv s moved) {spurious : Bool} {pc pc' : PopPc X} {m : Mem X} (hp : s.pop c = some pc)
    (hst : popStep s.mem spurious pc = (m, .running pc')) (hhead : m.head = s.mem.head)
    (htail : m.tail = s.mem.tail ∨ m.tail = none) (hnext : m.next = s.mem.next)
    (hnode : ∀ y, pc'.node = some y → pc.node = some y)
    (hreads : ∀ y n, pc' = .casNext y n ∨ pc' = .helpCas y n → s.mem.next y = some n)
    (hleave : ∀ y, pc' ≠ .clearTail y) : Inv (s.consumer c spurious pc) moved := by
  have hs : Shape m.head m.tail m.next s.add moved := by
    rw [hhead, hnext]
    obtain ht | ht := htail <;> rw [ht]
    · exact h.shape
    · exact h.shape.clear
  rw [consumer_running hst]
  exact h.setPop hs (fun _ => id) hnext (fun y hy => h.node c pc y hp (hnode y hy)) hreads
    fun y hy => absurd hy (hleave y)

omit [DecidableEq X] [DecidableEq C] in
/-- `head_` moves off the item of a consumer. -/
theorem Inv.offHead (h : Inv s moved) {o : Option X} (hx : s.mem.head = some x) (ho : o = none ∨ o = s.mem.next x) :
    Shape o s.mem.tail s.mem.next s.add (fun y => y = x ∨ moved y) ∧ ¬moved x :=
  ⟨h.shape.move hx ho, (h.shape.headListed x hx).1.2⟩

/-- The exchange of `head_` by the consumer that has claimed the item. -/
theorem Inv.exchange (h : Inv s moved) {pc : PopPc X} (hp : s.pop c = some pc)
    (hpc : pc = .casNull x ∨ ∃ n, pc = .casNext x n) (spurious : Bool) :
    ∃ moved', Inv (s.consumer c spurious pc) moved' := by
  by_cases hx : s.mem.head = some x
  · obtain rfl | ⟨n, rfl⟩ := hpc
    · obtain ⟨hs, hn⟩ := h.offHead hx (Or.inl rfl)
      have hst : popStep s.mem spurious (.casNull x) = ({ s.mem with head := none }, .running (.clearTail x)) := by
        simp [popStep, hx]
      rw [consumer_running hst]
      refine ⟨_, h.setPop hs (fun _ => Or.inr) rfl (fun y hy => h.node c _ y hp hy) nofun fun y hy => ?_⟩
      cases hy
      exact ⟨Or.inl rfl, hn⟩
    · obtain ⟨hs, hn⟩ := h.offHead hx (Or.inr (h.reads c x n (Or.inl hp)).symm)
      have hst : popStep s.mem spurious (.casNext x n) = ({ s.mem with head := some n }, .returned (some x)) := by
        simp [popStep, hx]
      refine ⟨_, h.returns hst hs (fun _ => Or.inr) rfl fun y hy => ?_⟩
      cases hy
      exact Or.inl ⟨Or.inl rfl, hn⟩
  · have hst : popStep s.mem spurious pc = (s.mem, .running (.unclaim x)) := by
      obtain rfl | ⟨n, rfl⟩ := hpc <;> simp [popStep, hx]
    refine ⟨moved, h.stays hp hst rfl (Or.inl rfl) rfl ?_ nofun nofun⟩
    obtain rfl | ⟨n, rfl⟩ := hpc <;> exact fun _ => id

/-- The exchange of `head_` by a consumer that found the item claimed. -/
theorem Inv.help (h : Inv s moved) {pc : PopPc X} (hp : s.pop c = some pc)
    (hpc : pc = .helpNull x ∨ ∃ n, pc = .helpCas x n) (spurious : Bool) :
    ∃ moved', Inv (s.consumer c spurious pc) moved' := by
  obtain rfl | ⟨n, rfl⟩ := hpc
  · by_cases hx : s.mem.head = some x
    · obtain ⟨hs, -⟩ := h.offHead hx (Or.inl rfl)
      have hst : popStep s.mem spurious (.helpNull x) = ({ s.mem with head := none }, .running (.helpClear x)) := by
        simp [popStep, hx]
      rw [consumer_running hst]
      exact ⟨_, h.setPop hs (fun _ => Or.inr) rfl (fun y hy => h.node c _ y hp hy) nofun nofun⟩
    · have hst : popStep s.mem spurious (.helpNull x) = (s.mem, .running .loadHead) := by simp [popStep, hx]
      exact ⟨moved, h.stays hp hst rfl (Or.inl rfl) rfl nofun nofun nofun⟩
  · by_cases hx : s.mem.head = some x ∧ spurious = false
    · obtain ⟨hs, -⟩ := h.offHead hx.1 (Or.inr (h.reads c x n (Or.inr hp)).symm)
      have hst : popStep s.mem spurious (.helpCas x n) = ({ s.mem with head := some n }, .running .loadHead) := by
        simp [popStep, hx]
      rw [consumer_running hst]
      exact ⟨_, h.setPop hs (fun _ => Or.inr) rfl nofun nofun nofun⟩
    · have hst : popStep s.mem spurious (.helpCas x n) = (s.mem, .running .loadHead) := by
        simp only [popStep, if_neg hx]
      exact ⟨moved, h.stays hp hst rfl (Or.inl rfl) rfl nofun nofun nofun⟩

/-- An access that leaves `head_` as it is. -/
theorem Inv.looks (h : Inv s moved) {pc : PopPc X} (hp : s.pop c = some pc) (spurious : Bool)
    (hnull : ∀ x, pc ≠ .casNull x ∧ pc ≠ .helpNull x ∧ ∀ n, pc ≠ .casNext x n ∧ pc ≠ .helpCas x n) :
    Inv (s.consumer c spurious pc) moved := by
  cases pc with
  | casNull x => exact absurd rfl (hnull x).1
  | helpNull x => exact absurd rfl (hnull x).2.1
  | casNext x n => exact absurd rfl ((hnull x).2.2 n).1
  | helpCas x n => exact absurd rfl ((hnull x).2.2 n).2
  | loadHead =>
    cases hh : s.mem.head with
    | none =>
      have hst : popStep s.mem spurious .loadHead = (s.mem, .running .loadTail) := by simp [popStep, hh]
      exact h.stays hp hst rfl (Or.inl rfl) rfl nofun nofun nofun
    | some x =>
      have hst : popStep s.mem spurious .loadHead = (s.mem, .running (.claim x)) := by simp [popStep, hh]
      rw [consumer_running hst]
      refine h.setPop h.shape (fun _ => id) rfl (fun y hy => ?_) nofun nofun
      cases hy
      exact (h.shape.headListed x hh).1.1
  | loadTail =>
    by_cases ht : s.mem.tail = none
    · have hst : popStep s.mem spurious .loadTail = (s.mem, .returned none) := by simp [popStep, ht]
      exact h.returns hst h.shape (fun _ => id) rfl nofun
    · have hst : popStep s.mem spurious .loadTail = (s.mem, .running .loadHead) := by simp [popStep, ht]
      exact h.stays hp hst rfl (Or.inl rfl) rfl nofun nofun nofun
  | claim x =>
    have hst : popStep s.mem spurious (.claim x) = ({ s.mem with claimed := Function.update s.mem.claimed x true },
        .running (if s.mem.claimed x then .helpNext x else .loadNext x)) := rfl
    split_ifs at hst <;> exact h.stays hp hst rfl (Or.inl rfl) rfl (fun _ => id) nofun nofun
  | loadNext x =>
    cases hn : s.mem.next x with
    | none =>
      have hst : popStep s.mem spurious (.loadNext x) = (s.mem, .running (.casNull x)) := by simp [popStep, hn]
      exact h.stays hp hst rfl (Or.inl rfl) rfl (fun _ => id) nofun nofun
    | some n =>
      have hst : popStep s.mem spurious (.loadNext x) = (s.mem, .running (.casNext x n)) := by simp [popStep, hn]
      refine h.stays hp hst rfl (Or.inl rfl) rfl (fun _ => id) (fun y k e => ?_) nofun
      obtain e | e := e <;> cases e
      exact hn
  | helpNext x =>
    cases hn : s.mem.next x with
    | none =>
      have hst : popStep s.mem spurious (.helpNext x) = (s.mem, .running (.helpTail x)) := by simp [popStep, hn]
      exact h.stays hp hst rfl (Or.inl rfl) rfl (fun _ => id) nofun nofun
    | some n =>
      have hst : popStep s.mem spurious (.helpNext x) = (s.mem, .running (.helpCas x n)) := by simp [popStep, hn]
      refine h.stays hp hst rfl (Or.inl rfl) rfl (fun _ => id) (fun y k e => ?_) nofun
      obtain e | e := e <;> cases e
      exact hn
  | clearTail x =>
    have hx : ∀ y, some x = some y → moved y ∧ ¬moved y ∨ s.pop c = some (.clearTail y) := by
      rintro y ⟨⟩
      exact Or.inr hp
    by_cases ht : s.mem.tail = some x
    · have hst : popStep s.mem spurious (.clearTail x) = ({ s.mem with tail := none }, .returned (some x)) := by
        simp [popStep, ht]
      exact h.returns hst h.shape.clear (fun _ => id) rfl hx
    · have hst : popStep s.mem spurious (.clearTail x) = (s.mem, .returned (some x)) := by simp [popStep, ht]
      exact h.returns hst h.shape (fun _ => id) rfl hx
  | unclaim x => exact h.stays hp rfl rfl (Or.inl rfl) rfl nofun nofun nofun
  | helpTail x =>
    by_cases ht : s.mem.tail = some x
    · have hst : popStep s.mem spurious (.helpTail x) = (s.mem, .running (.helpNull x)) := by simp [popStep, ht]
      exact h.stays hp hst rfl (Or.inl rfl) rfl (fun _ => id) nofun nofun
    · have hst : popStep s.mem spurious (.helpTail x) = (s.mem, .running .loadHead) := by simp [popStep, ht]
      exact h.stays hp hst rfl (Or.inl rfl) rfl nofun nofun nofun
  | helpClear x =>
    by_cases ht : s.mem.tail = some x
    · have hst : popStep s.mem spurious (.helpClear x) = ({ s.mem with tail := none }, .running .loadHead) := by
        simp [popStep, ht]
      exact h.stays hp hst rfl (Or.inr rfl) rfl nofun nofun nofun
    · have hst : popStep s.mem spurious (.helpClear x) = (s.mem, .running .loadHead) := by simp [popStep, ht]
      exact h.stays hp hst rfl (Or.inl rfl) rfl nofun nofun nofun

/-- The next access of the `PopFromHead` of `c`. -/
theorem Inv.consumer (h : Inv s moved) {pc : PopPc X} (hp : s.pop c = some pc) (spurious : Bool) :
    ∃ moved', Inv (s.consumer c spurious pc) moved' := by
  cases pc with
  | casNull x => exact h.exchange hp (Or.inl rfl) spurious
  | casNext x n => exact h.exchange hp (Or.inr ⟨n, rfl⟩) spurious
  | helpNull x => exact h.help hp (Or.inl rfl) spurious
  | helpCas x n => exact h.help hp (Or.inr ⟨n, rfl⟩) spurious
  | _ => exact ⟨moved, h.looks hp spurious (by simp)⟩

/-- **What one step preserves.** -/
theorem inv_step {l : Label X C} (h : ∃ moved, Inv s moved) (hst : step s l = some s') : ∃ moved, Inv s' moved := by
  obtain ⟨moved, h⟩ := h
  cases l with
  | addToTail x =>
    obtain ⟨hx, hst⟩ := Option.ite_none_right_eq_some.mp hst
    cases hst
    exact ⟨moved,
      h.adds (h.shape.advance (by simp [hx, AddPc.published]) rfl nofun nofun) (by simp [hx, AddPc.published])
      fun _ _ _ hn => hn⟩
  | addToHead x =>
    obtain ⟨hx, hst⟩ := Option.ite_none_right_eq_some.mp hst
    cases hst
    exact ⟨moved,
      h.adds (h.shape.advance (by simp [hx, AddPc.published]) rfl nofun nofun) (by simp [hx, AddPc.published])
      fun _ _ _ hn => hn⟩
  | producer x =>
    obtain ⟨-, hst⟩ := Option.ite_none_right_eq_some.mp hst
    cases hst
    exact ⟨moved, h.producer⟩
  | popFromHead c =>
    obtain ⟨-, hst⟩ := Option.ite_none_right_eq_some.mp hst
    cases hst
    exact ⟨moved, h.setPop h.shape (fun _ => id) rfl nofun nofun nofun⟩
  | consumer c spurious =>
    obtain ⟨pc, hp, rfl⟩ := Option.map_eq_some_iff.mp hst
    exact h.consumer hp spurious

theorem inv_reachable (hs : Reachable (system X C) s) : ∃ moved, Inv s moved := by
  refine hs.invariant (I := fun s => ∃ moved, Inv s moved) ?_ fun s t l h _ hst => inv_step h hst
  rintro s rfl
  refine ⟨fun _ => False, ?_, nofun, ?_, List.nodup_nil, nofun, nofun, nofun⟩
  · constructor <;> simp [State.empty, Mem.empty, Listed, AddPc.published, AddPc.root]
  · simp [State.empty]

/-- **No item is returned twice**, and none before the call that adds it has linked it. -/
theorem popped_at_most_once (hs : Reachable (system X C) s) : s.returned.Nodup ∧ ∀ x ∈ s.returned, s.added x := by
  obtain ⟨moved, h⟩ := inv_reachable hs
  refine ⟨h.nodup, fun x hx => ?_⟩
  have hmoved := h.returned x hx
  have hpub := h.shape.movedPublished x hmoved
  have hroot : (s.add x).root = false := by
    by_contra hr
    exact (h.shape.rootApart x (by simpa using hr)).1 hmoved
  unfold State.added
  cases hx : s.add x <;> simp_all [AddPc.published, AddPc.root]

end Steps

/-- A claim is rolled back as another item is put before the claimed one, which two consumers then hold. -/
theorem popped_at_most_once_two : ∃ s : State Bool Bool, s.returned = [true, false] ∧ s.returned.Nodup ∧
    ∀ x ∈ s.returned, s.added x :=
  ⟨_, rfl, popped_at_most_once (reachable_exec (.init rfl) (show exec (system Bool Bool) _
    ([.addToTail false] ++ List.replicate 4 (.producer false) ++
      [.popFromHead false] ++ List.replicate 3 (.consumer false false) ++
      [.addToHead true] ++ List.replicate 3 (.producer true) ++
      [.consumer false false, .popFromHead true] ++ List.replicate 4 (.consumer true false) ++
      [.popFromHead true, .consumer true false, .consumer true false] ++ List.replicate 6 (.consumer false false)) =
    some _ from rfl))⟩

end Cothread.Mpmc
