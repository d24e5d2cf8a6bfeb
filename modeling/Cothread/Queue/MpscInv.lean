import Cothread.Queue.Mpsc

/-!
# The invariant of `MpscQueue` with one consumer

A ghost list `q` holds the items that are behind `head_` and that `Pop` has not unlinked, in the order of the
exchanges. `Inv s q` ties it to the memory: `head_` is its last item, neighbours are linked or a producer is about to
link them, and the history is the returned items, the item being returned and `q`. `Front s q` says how `tail_`
relates to the first item of `q` while nothing is lost; `Broken s q` describes the states after a producer's store to
`tail_` fell between the two steps with which `Pop` empties the queue. Every step keeps `Inv` and one of the two
(`inv_step`), and `Front` is kept by every step but that store (`front_step`).
-/

namespace Cothread.Mpsc

open Run Chain

variable {P T : Type*}

/-- Some producer is about to perform `pc`. -/
def At (push : P → Option (PushPc T)) (pc : PushPc T) : Prop := ∃ p, push p = some pc

/-- The item that the consumer has unlinked and not yet returned. -/
def taken (pop : Option (PopPc T)) : List T := pop.elim [] PopPc.taken

@[simp] theorem taken_none : taken (none : Option (PopPc T)) = [] := rfl

@[simp] theorem taken_some (pc : PopPc T) : taken (some pc) = pc.taken := rfl

/-- The calls in progress push different items, all of them on their way in. -/
structure Calls (push : P → Option (PushPc T)) (place : T → Place) : Prop where
  items : ∀ p p' pc pc', push p = some pc → push p' = some pc' → pc.item = pc'.item → p = p'
  pushing : ∀ p pc, push p = some pc → place pc.item = .pushing

/-- The queue `q` in the memory, in the calls in progress and in the history. -/
structure Inv (s : State P T) (q : List T) : Prop where
  nodup : (taken s.pop ++ q).Nodup
  order : s.order = s.returned ++ taken s.pop ++ q
  head : s.mem.head = q.getLast?
  linked : Linked s.mem.next (fun a b => At s.push (.link a b)) q
  cleared : ∀ x, At s.push (.exchange x) → s.mem.next x = none
  link : ∀ a b, At s.push (.link a b) → [a, b] <:+: q ∧ s.mem.next a = none
  setting : ∀ x, At s.push (.setTail x) → q.head? = some x
  calls : Calls s.push s.place
  inside : ∀ x ∈ q, s.place x = .queued ∨ At s.push (.setTail x) ∨ ∃ a, At s.push (.link a x)
  leaving : ∀ x ∈ taken s.pop, s.place x = .queued
  queued : ∀ x, s.place x = .queued → x ∈ taken s.pop ++ q

/-- What the consumer's next access relies on while `tail_` is the first item. -/
def Reading (m : Mem T) : PopPc T → Prop
  | .loadTail | .clear _ => True
  | .storeNull _ => False
  | .storeTail t n => m.tail = some t ∧ m.next t = some n
  | .loadNext t | .claim t | .spin t _ _ | .recheckTail t | .recheckHead t => m.tail = some t

/-- The consumer holds no value that it read from `tail_`. -/
def Away : PopPc T → Prop
  | .loadTail | .clear _ => True
  | _ => False

/-- `tail_` and the first item of the queue while nothing is lost. -/
inductive Front (s : State P T) (q : List T) : Prop
  | attached : s.mem.tail = q.head? → (∀ x, ¬At s.push (.setTail x)) → (∀ pc, s.pop = some pc → Reading s.mem pc) →
      Front s q
  | pending (x : T) : At s.push (.setTail x) → s.mem.tail = none → (∀ pc, s.pop = some pc → Away pc) → Front s q
  | emptying (t : T) : q = [] → s.pop = some (.storeNull t) → s.mem.tail = some t → Front s q
  | refilled (t x : T) : At s.push (.setTail x) → s.pop = some (.storeNull t) → s.mem.tail = some t → Front s q

/-- `tail_` is null for good, or about to be, although the queue holds items. -/
inductive Broken (s : State P T) (q : List T) : Prop
  | overwriting (t : T) : q ≠ [] → (∀ x, ¬At s.push (.setTail x)) → s.pop = some (.storeNull t) → Broken s q
  | detached : q ≠ [] → (∀ x, ¬At s.push (.setTail x)) → s.mem.tail = none → (∀ pc, s.pop = some pc → Away pc) →
      Broken s q

/-! ## Calls in progress -/

section Calls

variable [DecidableEq P] {push : P → Option (PushPc T)} {p : P} {pc : PushPc T} {r : Option (PushPc T)}

theorem at_update : At (Function.update push p r) pc ↔ r = some pc ∨ ∃ p', p' ≠ p ∧ push p' = some pc := by
  constructor
  · rintro ⟨p', hp'⟩
    by_cases h : p' = p
    · subst h; exact Or.inl (by simpa using hp')
    · exact Or.inr ⟨p', h, by simpa [Function.update_of_ne h] using hp'⟩
  · rintro (h | ⟨p', hne, h⟩)
    · exact ⟨p, by simpa using h⟩
    · exact ⟨p', by simpa [Function.update_of_ne hne] using h⟩

/-- Other accesses are not affected by the step of a producer. -/
theorem at_update_of_ne (h : push p ≠ some pc) (hr : r ≠ some pc) : At (Function.update push p r) pc ↔ At push pc := by
  rw [at_update]
  constructor
  · rintro (h' | ⟨p', _, h'⟩)
    · exact absurd h' hr
    · exact ⟨p', h'⟩
  · rintro ⟨p', h'⟩
    exact Or.inr ⟨p', fun e => h (e ▸ h'), h'⟩

/-- A call starts with an item that is with its owner. -/
theorem Calls.start [DecidableEq T] {place : T → Place} (h : Calls push place) {x : T} (hx : place x = .out) :
    Calls (Function.update push p (some (.clear x))) (Function.update place x .pushing) := by
  have hne : ∀ p' pc', push p' = some pc' → pc'.item ≠ x := by
    rintro p' pc' h' rfl
    rw [h.pushing p' pc' h'] at hx; cases hx
  constructor
  · intro p₁ p₂ pc₁ pc₂ h₁ h₂ hi
    rw [Function.update_apply] at h₁ h₂
    split at h₁ <;> split at h₂
    · rename_i e₁ e₂; rw [e₁, e₂]
    · cases h₁; exact absurd hi.symm (hne _ _ h₂)
    · cases h₂; exact absurd hi (hne _ _ h₁)
    · exact h.items _ _ _ _ h₁ h₂ hi
  · intro p' pc' h'
    rw [Function.update_apply] at h'
    split at h'
    · cases h'; simp
    · rw [Function.update_of_ne (hne _ _ h')]; exact h.pushing _ _ h'

/-- A call goes on with its item. -/
theorem Calls.move {place : T → Place} (h : Calls push place) {pc' : PushPc T} (hp : push p = some pc)
    (hi : pc'.item = pc.item) : Calls (Function.update push p (some pc')) place := by
  constructor
  · intro p₁ p₂ pc₁ pc₂ h₁ h₂ he
    rw [Function.update_apply] at h₁ h₂
    split at h₁ <;> split at h₂
    · rename_i e₁ e₂; rw [e₁, e₂]
    · rename_i e₁ _; cases h₁; subst e₁; exact h.items _ _ _ _ hp h₂ (hi ▸ he)
    · rename_i _ e₂; cases h₂; subst e₂; exact h.items _ _ _ _ h₁ hp (hi ▸ he)
    · exact h.items _ _ _ _ h₁ h₂ he
  · intro p₁ pc₁ h₁
    rw [Function.update_apply] at h₁
    split at h₁
    · cases h₁; rw [hi]; exact h.pushing _ _ hp
    · exact h.pushing _ _ h₁

/-- A call returns and leaves its item queued. -/
theorem Calls.finish [DecidableEq T] {place : T → Place} (h : Calls push place) (hp : push p = some pc) :
    Calls (Function.update push p none) (Function.update place pc.item .queued) := by
  constructor
  · intro p₁ p₂ pc₁ pc₂ h₁ h₂ he
    rw [Function.update_apply] at h₁ h₂
    split at h₁ <;> split at h₂ <;> try contradiction
    exact h.items _ _ _ _ h₁ h₂ he
  · intro p₁ pc₁ h₁
    rw [Function.update_apply] at h₁
    split at h₁
    · cases h₁
    · rename_i hne
      rw [Function.update_of_ne fun e => hne (h.items _ _ _ _ h₁ hp e)]
      exact h.pushing _ _ h₁

end Calls

/-! ## The steps of a producer -/

section Producer

/-- An item whose `Push` has not reached the exchange is not in the queue. -/
theorem Inv.notMem {s : State P T} {q : List T} (h : Inv s q) {p : P} {pc : PushPc T} (hp : s.push p = some pc)
    (hs : pc ≠ .setTail pc.item) (hl : ∀ a, pc ≠ .link a pc.item) : pc.item ∉ taken s.pop ++ q := by
  have hpl := h.calls.pushing p pc hp
  intro hm
  rcases List.mem_append.mp hm with hm | hm
  · rw [h.leaving _ hm] at hpl; cases hpl
  · rcases h.inside _ hm with hi | ⟨p', hi⟩ | ⟨a, p', hi⟩
    · rw [hi] at hpl; cases hpl
    · have := h.calls.items p p' _ _ hp hi rfl
      subst this
      rw [hp] at hi; exact hs (Option.some.inj hi)
    · have := h.calls.items p p' _ _ hp hi rfl
      subst this
      rw [hp] at hi; exact hl a (Option.some.inj hi)

variable [DecidableEq P] [DecidableEq T] {s : State P T} {q : List T} {p : P} {x : T}

/-- `Push` is called. -/
theorem Inv.start (h : Inv s q) (hp : s.push p = none) (hx : s.place x = .out) :
    Inv { s with
      push := Function.update s.push p (some (.clear x))
      place := Function.update s.place x .pushing } q := by
  have hat : ∀ pc, pc ≠ .clear x → (At (Function.update s.push p (some (.clear x))) pc ↔ At s.push pc) :=
    fun pc hpc => at_update_of_ne (by simp [hp]) (by simpa using Ne.symm hpc)
  have hpl : ∀ {y}, s.place y = .queued → Function.update s.place x .pushing y = .queued := by
    intro y hy
    rw [Function.update_of_ne (by rintro rfl; rw [hx] at hy; cases hy)]; exact hy
  refine ⟨h.nodup, h.order, h.head, ?_, ?_, ?_, ?_, h.calls.start hx, ?_, fun y hy => hpl (h.leaving y hy), ?_⟩
  · exact h.linked.mono fun a b hab => (hat _ (by simp)).mpr hab
  · exact fun y hy => h.cleared y ((hat _ (by simp)).mp hy)
  · exact fun a b hab => h.link a b ((hat _ (by simp)).mp hab)
  · exact fun y hy => h.setting y ((hat _ (by simp)).mp hy)
  · intro y hy
    simp only [hat (.setTail y) (by simp), hat (.link _ y) (by simp)]
    exact (h.inside y hy).imp_left hpl
  · intro y hy
    by_cases e : y = x
    · subst e; simp at hy
    · simp only [Function.update_of_ne e] at hy
      exact h.queued y hy

/-- `Policy::Clear(item)`. -/
theorem Inv.clear (h : Inv s q) (hp : s.push p = some (.clear x)) : Inv (s.producer p (.clear x)) q := by
  rw [producer_clear]
  have hx : x ∉ q := fun hm => h.notMem hp (by simp) (by simp) (List.mem_append_right _ hm)
  have hat : ∀ pc, pc ≠ .clear x → pc ≠ .exchange x →
      (At (Function.update s.push p (some (.exchange x))) pc ↔ At s.push pc) :=
    fun pc h₁ h₂ => at_update_of_ne (by simpa [hp] using Ne.symm h₁) (by simpa using Ne.symm h₂)
  refine ⟨h.nodup, h.order, h.head, ?_, ?_, ?_, ?_, h.calls.move hp rfl, ?_, h.leaving, h.queued⟩
  · exact (h.linked.mono fun a b hab => (hat _ (by simp) (by simp)).mpr hab).update_of_notMem hx
  · intro y hy
    by_cases e : y = x
    · subst e; simp
    · rw [hat _ (by simp) (by simpa using e)] at hy
      simpa [Function.update_of_ne e] using h.cleared y hy
  · intro a b hab
    rw [hat _ (by simp) (by simp)] at hab
    obtain ⟨h₁, h₂⟩ := h.link a b hab
    have ha : a ≠ x := ne_of_mem_of_not_mem (h₁.subset (by simp)) hx
    exact ⟨h₁, by simpa [Function.update_of_ne ha] using h₂⟩
  · exact fun y hy => h.setting y ((hat _ (by simp) (by simp)).mp hy)
  · intro y hy
    simp only [hat (.setTail y) (by simp) (by simp), hat (.link _ y) (by simp) (by simp)]
    exact h.inside y hy

/-- `head_.exchange(item)` on an empty queue. -/
theorem Inv.exchange_nil (h : Inv s []) (hp : s.push p = some (.exchange x)) :
    Inv (s.producer p (.exchange x)) [x] := by
  rw [producer_exchange_none _ _ _ (by simpa using h.head)]
  have hx : x ∉ taken s.pop := by simpa using h.notMem hp (by simp) (by simp)
  have hno : ∀ pc, At s.push pc → ∀ a b, pc ≠ .link a b := by
    rintro pc hpc a b rfl
    have := (h.link a b hpc).1.length_le
    simp at this
  have hns : ∀ y, ¬At s.push (.setTail y) := fun y hy => by simpa using h.setting y hy
  have hat : ∀ pc, pc ≠ .exchange x → pc ≠ .setTail x →
      (At (Function.update s.push p (some (.setTail x))) pc ↔ At s.push pc) :=
    fun pc h₁ h₂ => at_update_of_ne (by simpa [hp] using Ne.symm h₁) (by simpa using Ne.symm h₂)
  have hcl := h.cleared x ⟨p, hp⟩
  refine ⟨?_, ?_, by simp, hcl, ?_, ?_, ?_, h.calls.move hp rfl, ?_, h.leaving, ?_⟩
  · have := h.nodup
    simp only [List.append_nil] at this
    exact this.append (by simp) (by simpa using hx)
  · simp [h.order]
  · intro y hy
    by_cases e : y = x
    · subst e; exact hcl
    · exact h.cleared y ((hat _ (by simpa using e) (by simp)).mp hy)
  · exact fun a b hab => absurd rfl (hno _ ((hat _ (by simp) (by simp)).mp hab) a b)
  · intro y hy
    by_cases e : y = x
    · subst e; rfl
    · exact absurd ((hat _ (by simp) (by simpa using e)).mp hy) (hns y)
  · intro y hy
    simp only [List.mem_singleton] at hy
    subst hy
    exact Or.inr (Or.inl ⟨p, by simp⟩)
  · exact fun y hy => List.mem_append_left _ (by simpa using h.queued y hy)

/-- `head_.exchange(item)` behind a last item `a`. -/
theorem Inv.exchange_snoc {a : T} (h : Inv s q) (hp : s.push p = some (.exchange x)) (ha : q.getLast? = some a) :
    Inv (s.producer p (.exchange x)) (q ++ [x]) := by
  rw [producer_exchange_some _ _ _ (h.head.trans ha)]
  have hx : x ∉ taken s.pop ++ q := h.notMem hp (by simp) (by simp)
  have hat : ∀ pc, pc ≠ .exchange x → pc ≠ .link a x →
      (At (Function.update s.push p (some (.link a x))) pc ↔ At s.push pc) :=
    fun pc h₁ h₂ => at_update_of_ne (by simpa [hp] using Ne.symm h₁) (by simpa using Ne.symm h₂)
  have hax : At (Function.update s.push p (some (.link a x))) (.link a x) := ⟨p, by simp⟩
  have hmono : ∀ b c, At s.push (.link b c) → At (Function.update s.push p (some (.link a x))) (.link b c) := by
    intro b c hbc
    by_cases e : PushPc.link b c = .link a x
    · rw [e]; exact hax
    · exact (hat _ (by simp) e).mpr hbc
  have hcl := h.cleared x ⟨p, hp⟩
  refine ⟨?_, by simp [h.order], by simp, ?_, ?_, ?_, ?_, h.calls.move hp rfl, ?_, h.leaving, ?_⟩
  · rw [← List.append_assoc]
    exact h.nodup.append (by simp) (by simpa using hx)
  · exact (h.linked.mono hmono).snoc hcl fun b hb => by
      rw [ha] at hb; cases hb; exact hax
  · intro y hy
    by_cases e : y = x
    · subst e; exact hcl
    · exact h.cleared y ((hat _ (by simpa using e) (by simp)).mp hy)
  · intro b c hbc
    rw [infix_snoc_iff]
    by_cases e : PushPc.link b c = .link a x
    · simp only [PushPc.link.injEq] at e
      obtain ⟨rfl, rfl⟩ := e
      exact ⟨Or.inr ⟨ha, rfl⟩, h.linked.next_last ha⟩
    · obtain ⟨h₁, h₂⟩ := h.link b c ((hat _ (by simp) e).mp hbc)
      exact ⟨Or.inl h₁, h₂⟩
  · intro y hy
    rw [List.head?_append, h.setting y ((hat _ (by simp) (by simp)).mp hy), Option.some_or]
  · intro y hy
    rcases List.mem_append.mp hy with hy | hy
    · rcases h.inside y hy with hi | hi | ⟨b, hi⟩
      · exact Or.inl hi
      · exact Or.inr (Or.inl ((hat _ (by simp) (by simp)).mpr hi))
      · exact Or.inr (Or.inr ⟨b, hmono b y hi⟩)
    · rw [List.mem_singleton.mp hy]; exact Or.inr (Or.inr ⟨a, hax⟩)
  · intro y hy
    rw [← List.append_assoc]
    exact List.mem_append_left _ (h.queued y hy)

/-- `Policy::Get(prev).store(item)`. -/
theorem Inv.link_step {a : T} (h : Inv s q) (hp : s.push p = some (.link a x)) :
    Inv (s.producer p (.link a x)) q := by
  rw [producer_link]
  have hn : q.Nodup := h.nodup.of_append_right
  obtain ⟨hax, hnx⟩ := h.link a x ⟨p, hp⟩
  have hat : ∀ pc, pc ≠ .link a x → (At (Function.update s.push p none) pc ↔ At s.push pc) :=
    fun pc h₁ => at_update_of_ne (by simpa [hp] using Ne.symm h₁) (by simp)
  have hgone : ¬At (Function.update s.push p none) (.link a x) := by
    rw [at_update]
    rintro (h' | ⟨p', hne, h'⟩)
    · cases h'
    · exact hne (h.calls.items _ _ _ _ h' hp rfl)
  refine ⟨h.nodup, h.order, h.head, ?_, ?_, ?_, ?_, h.calls.finish hp, ?_, ?_, ?_⟩
  · exact h.linked.link hn hax fun b c hbc hb => (hat _ (by simp [hb])).mpr hbc
  · intro y hy
    have hyq : y ∉ q := by
      obtain ⟨p', hp'⟩ := (hat _ (by simp)).mp hy
      exact fun hm => h.notMem hp' (by simp) (by simp) (List.mem_append_right _ hm)
    have hya : y ≠ a := fun e => hyq (e ▸ hax.subset (by simp))
    simpa [Function.update_of_ne hya] using h.cleared y ((hat _ (by simp)).mp hy)
  · intro b c hbc
    have hne : PushPc.link b c ≠ .link a x := by rintro e; rw [e] at hbc; exact hgone hbc
    obtain ⟨h₁, h₂⟩ := h.link b c ((hat _ hne).mp hbc)
    have hba : b ≠ a := by
      rintro rfl
      exact hne (by rw [succ_unique hn h₁ hax])
    exact ⟨h₁, by simpa [Function.update_of_ne hba] using h₂⟩
  · exact fun y hy => h.setting y ((hat _ (by simp)).mp hy)
  · intro y hy
    by_cases e : y = x
    · subst e; exact Or.inl (by simp)
    · simp only [hat (.setTail y) (by simp), hat (.link _ y) (by simp [e]), Function.update_of_ne e]
      exact h.inside y hy
  · intro y hy
    by_cases e : y = x
    · subst e; simp
    · simpa [Function.update_of_ne e] using h.leaving y hy
  · intro y hy
    by_cases e : y = x
    · subst e; exact List.mem_append_right _ (hax.subset (by simp))
    · simp only [Function.update_of_ne e] at hy
      exact h.queued y hy

/-- `tail_.store(item)`. -/
theorem Inv.setTail_step (h : Inv s q) (hp : s.push p = some (.setTail x)) :
    Inv (s.producer p (.setTail x)) q := by
  rw [producer_setTail]
  have hat : ∀ pc, pc ≠ .setTail x → (At (Function.update s.push p none) pc ↔ At s.push pc) :=
    fun pc h₁ => at_update_of_ne (by simpa [hp] using Ne.symm h₁) (by simp)
  have hx := h.setting x ⟨p, hp⟩
  refine ⟨h.nodup, h.order, h.head, ?_, ?_, ?_, ?_, h.calls.finish hp, ?_, ?_, ?_⟩
  · exact h.linked.mono fun a b hab => (hat _ (by simp)).mpr hab
  · exact fun y hy => h.cleared y ((hat _ (by simp)).mp hy)
  · exact fun a b hab => h.link a b ((hat _ (by simp)).mp hab)
  · intro y hy
    rcases at_update.mp hy with h' | ⟨p', _, hp'⟩
    · cases h'
    · exact h.setting y ⟨p', hp'⟩
  · intro y hy
    by_cases e : y = x
    · subst e; exact Or.inl (by simp)
    · simp only [hat (.setTail y) (by simp [e]), hat (.link _ y) (by simp), Function.update_of_ne e]
      exact h.inside y hy
  · intro y hy
    by_cases e : y = x
    · subst e; simp
    · simpa [Function.update_of_ne e] using h.leaving y hy
  · intro y hy
    by_cases e : y = x
    · subst e; exact List.mem_append_right _ (List.mem_of_head? hx)
    · simp only [Function.update_of_ne e] at hy
      exact h.queued y hy

/-- The queue after the step of a producer: an exchange adds the item at the end. -/
theorem Inv.producer {pc : PushPc T} (h : Inv s q) (hp : s.push p = some pc) :
    Inv (s.producer p pc) (q ++ pc.published) := by
  cases pc with
  | clear x => simpa using h.clear hp
  | exchange x =>
    cases ha : q.getLast? with
    | none =>
      rw [List.getLast?_eq_none_iff] at ha
      subst ha
      exact h.exchange_nil hp
    | some a => exact h.exchange_snoc hp ha
  | link a x => simpa using h.link_step hp
  | setTail x => simpa using h.setTail_step hp

end Producer

/-! ## The first item under the steps of a producer -/

section Front

theorem Away.reading {m : Mem T} {pc : PopPc T} (h : Away pc) : Reading m pc := by
  cases pc <;> trivial

/-- What the consumer relies on, after a write to links that are null or outside the queue. -/
theorem Reading.congr {m m' : Mem T} {pc : PopPc T} (h : Reading m pc) (ht : m'.tail = m.tail)
    (hn : ∀ t n, m.tail = some t → m.next t = some n → m'.next t = some n) : Reading m' pc := by
  cases pc <;> simp only [Reading, ht] at h ⊢ <;> first | exact h | exact ⟨h.1, hn _ _ h.1 h.2⟩

theorem Reading.away {m : Mem T} {pc : PopPc T} (h : Reading m pc) (ht : m.tail = none) : Away pc := by
  cases pc <;> simp_all [Reading, Away]

variable {s t : State P T} {q q' : List T}

/-- Steps that leave `tail_`, the consumer and the pending stores to `tail_` alone. -/
theorem Front.congr (h : Front s q) (ht : t.mem.tail = s.mem.tail) (hpop : t.pop = s.pop)
    (hset : ∀ x, At t.push (.setTail x) ↔ At s.push (.setTail x)) (hq : q'.head? = q.head?)
    (hn : ∀ x n, s.mem.tail = some x → q.head? = some x → s.mem.next x = some n → t.mem.next x = some n) :
    Front t q' := by
  have hnil : q = [] → q' = [] := by
    rintro rfl
    simpa using hq
  cases h with
  | attached h₁ h₂ h₃ =>
    refine .attached (by rw [ht, h₁, hq]) (fun x hx => h₂ x ((hset x).mp hx)) fun pc hpc => ?_
    exact (h₃ pc (hpop ▸ hpc)).congr ht fun x n hx => hn x n hx (h₁ ▸ hx)
  | pending x h₁ h₂ h₃ =>
    exact .pending x ((hset x).mpr h₁) (ht.trans h₂) fun pc hpc => h₃ pc (hpop ▸ hpc)
  | emptying x h₁ h₂ h₃ => exact .emptying x (hnil h₁) (hpop.trans h₂) (ht.trans h₃)
  | refilled x y h₁ h₂ h₃ => exact .refilled x y ((hset y).mpr h₁) (hpop.trans h₂) (ht.trans h₃)

theorem Broken.congr (h : Broken s q) (ht : t.mem.tail = s.mem.tail) (hpop : t.pop = s.pop)
    (hset : ∀ x, At t.push (.setTail x) → At s.push (.setTail x)) (hq : q ≠ [] → q' ≠ []) : Broken t q' := by
  cases h with
  | overwriting x h₁ h₂ h₃ => exact .overwriting x (hq h₁) (fun y hy => h₂ y (hset y hy)) (hpop.trans h₃)
  | detached h₁ h₂ h₃ h₄ =>
    exact .detached (hq h₁) (fun y hy => h₂ y (hset y hy)) (ht.trans h₃) fun pc hpc => h₄ pc (hpop ▸ hpc)

variable [DecidableEq P] [DecidableEq T] {p : P} {pc : PushPc T} {x : T}

omit [DecidableEq T] in
/-- A call of `Push` starts. -/
theorem setTail_start (hp : s.push p = none) (y : T) :
    At (Function.update s.push p (some (.clear x))) (.setTail y) ↔ At s.push (.setTail y) :=
  at_update_of_ne (by simp [hp]) (by simp)

/-- A producer's access other than the exchange on an empty queue and the store to `tail_`. -/
theorem setTail_producer (hp : s.push p = some pc) (hst : ∀ y, pc ≠ .setTail y)
    (hex : ∀ y, pc = .exchange y → s.mem.head ≠ none) (y : T) :
    At (s.producer p pc).push (.setTail y) ↔ At s.push (.setTail y) := by
  refine at_update_of_ne (by simpa [hp] using hst y) ?_
  cases pc with
  | clear z => simp [pushStep]
  | exchange z =>
    obtain ⟨a, ha⟩ := Option.ne_none_iff_exists'.mp (hex z rfl)
    simp [pushStep, ha]
  | link a z => simp [pushStep]
  | setTail z => exact absurd rfl (hst z)

theorem producer_pop : (s.producer p pc).pop = s.pop := rfl

/-- Nothing is lost by the step of a producer, unless it stores `tail_` while the consumer is about to. -/
theorem Front.producer (hi : Inv s q) (h : Front s q) (hp : s.push p = some pc)
    (hok : ∀ y t, pc = .setTail y → s.pop ≠ some (.storeNull t)) : Front (s.producer p pc) (q ++ pc.published) := by
  cases pc with
  | clear z =>
    have hz : z ∉ q := fun hm => hi.notMem hp (by simp) (by simp) (List.mem_append_right _ hm)
    refine h.congr (by rw [producer_clear]) producer_pop (setTail_producer hp (by simp) (by simp)) (by simp) ?_
    intro y n _ hy hn
    rw [producer_clear]
    simpa [Function.update_of_ne (ne_of_mem_of_not_mem (List.mem_of_head? hy) hz)] using hn
  | exchange z =>
    cases ha : q.getLast? with
    | none =>
      rw [List.getLast?_eq_none_iff] at ha
      subst ha
      have hset : At (s.producer p (.exchange z)).push (.setTail z) := by
        rw [producer_exchange_none _ _ _ (by simpa using hi.head)]
        exact ⟨p, by simp⟩
      have htl : (s.producer p (.exchange z)).mem.tail = s.mem.tail := rfl
      cases h with
      | attached h₁ _ h₃ =>
        exact .pending z hset (by rw [htl, h₁]; rfl) fun pc hpc => (h₃ pc hpc).away (by rw [h₁]; rfl)
      | pending y h₁ _ _ => simpa using hi.setting y h₁
      | emptying t _ h₂ h₃ => exact .refilled t z hset h₂ (htl.trans h₃)
      | refilled t y h₁ _ _ => simpa using hi.setting y h₁
    | some a =>
      have hh : s.mem.head = some a := hi.head.trans ha
      refine h.congr rfl producer_pop (setTail_producer hp (by simp) (by simp [hh])) ?_ ?_
      · cases q with
        | nil => cases ha
        | cons b r => rfl
      · intro y n _ _ hn
        rw [producer_exchange_some _ _ _ hh]
        exact hn
  | link a z =>
    obtain ⟨_, hnx⟩ := hi.link a z ⟨p, hp⟩
    refine h.congr rfl producer_pop (setTail_producer hp (by simp) (by simp)) (by simp) ?_
    intro y n _ _ hn
    rw [producer_link]
    have hya : y ≠ a := by rintro rfl; rw [hnx] at hn; cases hn
    simpa [Function.update_of_ne hya] using hn
  | setTail z =>
    have hz := hi.setting z ⟨p, hp⟩
    cases h with
    | attached _ h₂ _ => exact absurd ⟨p, hp⟩ (h₂ z)
    | pending y h₁ h₂ h₃ =>
      simp only [producer_setTail, PushPc.published, List.append_nil]
      refine .attached hz.symm ?_ fun pc hpc => (h₃ pc hpc).reading
      intro w hw
      rcases at_update.mp hw with h' | ⟨p', hne, hp'⟩
      · cases h'
      · have hwz := hi.setting w ⟨p', hp'⟩
        rw [hz, Option.some.injEq] at hwz
        exact hne (hi.calls.items _ _ _ _ hp' hp (by simp [hwz]))
    | emptying t h₁ _ _ => subst h₁; cases hz
    | refilled t y _ h₂ _ => exact absurd h₂ (hok z t rfl)

/-- A store to `tail_` between the two steps with which the consumer empties the queue is about to be overwritten. -/
theorem Broken.of_setTail (hi : Inv s q) (hp : s.push p = some (.setTail x)) {t : T}
    (ht : s.pop = some (.storeNull t)) : Broken (s.producer p (.setTail x)) q := by
  have hx := hi.setting x ⟨p, hp⟩
  refine .overwriting t (by rintro rfl; cases hx) ?_ ht
  intro w hw
  rw [producer_setTail] at hw
  rcases at_update.mp hw with h' | ⟨p', hne, hp'⟩
  · cases h'
  · have hwx := hi.setting w ⟨p', hp'⟩
    rw [hx, Option.some.injEq] at hwx
    exact hne (hi.calls.items _ _ _ _ hp' hp (by simp [hwx]))

/-- What is lost stays lost under the steps of a producer. -/
theorem Broken.producer (hi : Inv s q) (h : Broken s q) (hp : s.push p = some pc) :
    Broken (s.producer p pc) (q ++ pc.published) := by
  have hq : q ≠ [] := by cases h <;> assumption
  have hset : ∀ y, ¬At s.push (.setTail y) := by cases h <;> assumption
  have hst : ∀ y, pc ≠ .setTail y := by
    rintro y rfl
    exact hset y ⟨p, hp⟩
  have hh : s.mem.head ≠ none := by rw [hi.head]; simpa using hq
  have ht : (s.producer p pc).mem.tail = s.mem.tail := by
    cases pc with
    | setTail y => exact absurd rfl (hst y)
    | _ => rfl
  exact h.congr ht producer_pop (fun y hy => (setTail_producer hp hst (fun _ _ => hh) y).mp hy) (by simp [hq])

end Front

/-! ## The steps of the consumer -/

section Consumer

variable {s : State P T} {q : List T} {t : T}

/-- Steps of the consumer that only read. -/
theorem Inv.read {pop : Option (PopPc T)} (h : Inv s q) (hp : taken pop = taken s.pop) : Inv { s with pop := pop } q :=
  ⟨by rw [hp]; exact h.nodup, by rw [hp]; exact h.order, h.head, h.linked, h.cleared, h.link, h.setting, h.calls,
    h.inside, by rw [hp]; exact h.leaving, by rw [hp]; exact h.queued⟩

/-- A store to `tail_`. -/
theorem Inv.tail {tl : Option T} (h : Inv s q) : Inv { s with mem := { s.mem with tail := tl } } q :=
  ⟨h.nodup, h.order, h.head, h.linked, h.cleared, h.link, h.setting, h.calls, h.inside, h.leaving, h.queued⟩

/-- The first item, once linked to the second, is unlinked by `tail_.store(next)`. -/
theorem Inv.unlink {n : T} {r : List T} (h : Inv s (t :: r)) (hp : taken s.pop = []) (hn : s.mem.next t = some n)
    (hs : ∀ x, ¬At s.push (.setTail x)) :
    r.head? = some n ∧
      Inv { s with mem := { s.mem with tail := some n }, pop := some (.clear t) } r := by
  have hnd : (t :: r).Nodup := by simpa [hp] using h.nodup
  obtain ⟨htr, hr⟩ := List.nodup_cons.mp hnd
  have hrn : r.head? = some n := by
    rcases h.linked.next_head with h₁ | ⟨h₁, _⟩
    · rw [← h₁, hn]
    · rw [hn] at h₁; cases h₁
  have hlink : ∀ a b, At s.push (.link a b) → a ≠ t := by
    rintro a b hab rfl
    have := (h.link a b hab).2
    rw [hn] at this; cases this
  refine ⟨hrn, ⟨?_, ?_, ?_, h.linked.tail, h.cleared, ?_, fun x hx => absurd hx (hs x), h.calls, ?_, ?_, ?_⟩⟩
  · exact List.nodup_cons.mpr ⟨htr, hr⟩
  · simp [h.order, hp]
  · have := h.head
    cases r with
    | nil => cases hrn
    | cons b r => simpa using this
  · intro a b hab
    obtain ⟨h₁, h₂⟩ := h.link a b hab
    refine ⟨?_, h₂⟩
    rw [List.infix_cons_iff] at h₁
    exact h₁.resolve_left fun hpre => hlink a b hab (List.cons_prefix_cons.mp hpre).1
  · exact fun x hx => h.inside x (List.mem_cons_of_mem _ hx)
  · intro x hx
    rw [show x = t from by simpa using hx]
    rcases h.inside t List.mem_cons_self with hi | hi | ⟨a, hi⟩
    · exact hi
    · exact absurd hi (hs t)
    · exact absurd (h.link a t hi).1 (not_infix_head hnd rfl)
  · intro x hx
    have := h.queued x hx
    simpa [hp] using this

/-- The only item is unlinked by the exchange of `head_` against null. -/
theorem Inv.claim (h : Inv s q) (hp : taken s.pop = []) (hq : q.head? = some t) (hh : s.mem.head = some t)
    (hs : ∀ x, ¬At s.push (.setTail x)) :
    Inv { s with mem := { s.mem with head := none }, pop := some (.storeNull t) } [] := by
  have hnd : q.Nodup := by simpa [hp] using h.nodup
  have hqt : q = [t] := eq_singleton hnd hq (h.head ▸ hh)
  subst hqt
  have hno : ∀ a b, ¬At s.push (.link a b) := by
    intro a b hab
    have := (h.link a b hab).1.length_le
    simp at this
  refine ⟨by simp, ?_, rfl, trivial, h.cleared, fun a b hab => absurd hab (hno a b),
    fun x hx => absurd hx (hs x), h.calls, by simp, ?_, ?_⟩
  · simp [h.order, hp]
  · intro x hx
    rw [show x = t from by simpa using hx]
    rcases h.inside t List.mem_cons_self with hi | hi | ⟨a, hi⟩
    · exact hi
    · exact absurd hi (hs t)
    · exact absurd hi (hno a t)
  · intro x hx
    have := h.queued x hx
    simpa [hp] using this

/-- The unlinked item is returned. -/
theorem Inv.return [DecidableEq T] (h : Inv s q) (hp : s.pop = some (.clear t)) : Inv (s.consumer (.clear t)) q := by
  rw [consumer_clear]
  have htk : taken s.pop = [t] := by simp [hp]
  have hnd := h.nodup
  rw [htk] at hnd
  obtain ⟨htq, hq⟩ := List.nodup_cons.mp hnd
  have htp : s.place t = .queued := h.leaving t (by simp [htk])
  refine ⟨hq, by simp [h.order, htk], h.head, h.linked.update_of_notMem htq, ?_, ?_,
    h.setting, ⟨h.calls.items, ?_⟩, ?_, by simp, ?_⟩
  · intro x hx
    by_cases e : x = t
    · subst e; simp
    · simpa [Function.update_of_ne e] using h.cleared x hx
  · intro a b hab
    obtain ⟨h₁, h₂⟩ := h.link a b hab
    have ha : a ≠ t := ne_of_mem_of_not_mem (h₁.subset (by simp)) htq
    exact ⟨h₁, by simpa [Function.update_of_ne ha] using h₂⟩
  · intro p pc hpc
    have hpl := h.calls.pushing p pc hpc
    have hne : pc.item ≠ t := by rintro e; rw [e, htp] at hpl; cases hpl
    exact (Function.update_of_ne hne _ _).trans hpl
  · intro x hx
    have hne : x ≠ t := ne_of_mem_of_not_mem hx htq
    simpa [Function.update_of_ne hne] using h.inside x hx
  · intro x hx
    by_cases e : x = t
    · subst e; simp at hx
    · simp only [Function.update_of_ne e] at hx
      simpa [htk, e] using h.queued x hx

/-- The consumer's step while `tail_` is the first item. -/
theorem Front.consumer_attached [DecidableEq T] {pc : PopPc T} (hi : Inv s q) (ht : s.mem.tail = q.head?)
    (hs : ∀ x, ¬At s.push (.setTail x)) (hp : s.pop = some pc) (hr : Reading s.mem pc) :
    ∃ q', Inv (s.consumer pc) q' ∧ Front (s.consumer pc) q' := by
  have htk : pc.taken = [] → taken s.pop = [] := fun h => by simpa [hp] using h
  -- an access that only reads, and goes on to `pc'`
  have hread : ∀ pc' : PopPc T, popStep s.mem pc = (s.mem, .running pc') → pc.taken = [] → pc'.taken = [] →
      Reading s.mem pc' → ∃ q', Inv (s.consumer pc) q' ∧ Front (s.consumer pc) q' := by
    intro pc' he h₁ h₂ h₃
    rw [consumer_running he]
    refine ⟨q, hi.read (by rw [taken_some, h₂, htk h₁]), .attached ht hs ?_⟩
    rintro _ ⟨⟩
    exact h₃
  -- an access that only reads, and returns null
  have hnull : popStep s.mem pc = (s.mem, .returned none) → pc.taken = [] →
      ∃ q', Inv (s.consumer pc) q' ∧ Front (s.consumer pc) q' := by
    intro he h₁
    rw [consumer_null he]
    exact ⟨q, hi.read (by simp [htk h₁]), .attached ht hs (by simp)⟩
  cases pc with
  | loadTail =>
    cases htl : s.mem.tail with
    | none => exact hnull (by simp [popStep, htl]) rfl
    | some t => exact hread (.loadNext t) (by simp [popStep, htl]) rfl rfl htl
  | loadNext t =>
    cases hn : s.mem.next t with
    | none => exact hread (.claim t) (by simp [popStep, hn]) rfl rfl hr
    | some n => exact hread (.storeTail t n) (by simp [popStep, hn]) rfl rfl ⟨hr, hn⟩
  | storeTail t n =>
    obtain ⟨h₁, h₂⟩ := hr
    have he : popStep s.mem (.storeTail t n) = ({ s.mem with tail := some n }, .running (.clear t)) := rfl
    rw [consumer_running he]
    cases q with
    | nil => rw [ht] at h₁; cases h₁
    | cons a r =>
      have hat : a = t := by rw [ht] at h₁; exact Option.some.inj h₁
      subst hat
      obtain ⟨h₃, h₄⟩ := hi.unlink (htk rfl) h₂ hs
      refine ⟨r, h₄, .attached h₃.symm hs ?_⟩
      rintro _ ⟨⟩
      trivial
  | claim t =>
    by_cases hh : s.mem.head = some t
    · have he : popStep s.mem (.claim t) = ({ s.mem with head := none }, .running (.storeNull t)) := if_pos hh
      rw [consumer_running he]
      exact ⟨[], hi.claim (htk rfl) (ht ▸ hr) hh hs, .emptying t rfl rfl hr⟩
    · exact hread (.spin t 0 0) (by simp [popStep, hh]) rfl rfl hr
  | storeNull t => exact hr.elim
  | clear t =>
    refine ⟨q, hi.return hp, ?_⟩
    rw [consumer_clear]
    exact .attached ht hs (by simp)
  | spin t pauseCount yieldCount =>
    cases hn : s.mem.next t with
    | some n => exact hread (.storeTail t n) (by simp [popStep, hn]) rfl rfl ⟨hr, hn⟩
    | none =>
      by_cases h₁ : pauseCount < MAX_PAUSE_SPINS
      · exact hread (.spin t (pauseCount + 1) yieldCount) (by simp [popStep, hn, h₁]) rfl rfl hr
      · by_cases h₂ : yieldCount < MAX_YIELD_SPINS
        · exact hread (.spin t 0 (yieldCount + 1)) (by simp [popStep, hn, h₁, h₂]) rfl rfl hr
        · exact hread (.recheckTail t) (by simp [popStep, hn, h₁, h₂]) rfl rfl hr
  | recheckTail t =>
    have hr' : s.mem.tail = some t := hr
    exact hread (.recheckHead t) (by simp [popStep, hr']) rfl rfl hr
  | recheckHead t =>
    by_cases hh : s.mem.head = none
    · exact hnull (by simp [popStep, hh]) rfl
    · exact hread (.spin t 0 0) (by simp [popStep, hh]) rfl rfl hr

/-- The consumer's step while `tail_` is null: it finds nothing, or returns what it has unlinked. -/
theorem Inv.consumer_away [DecidableEq T] {pc : PopPc T} (hi : Inv s q) (ht : s.mem.tail = none)
    (hp : s.pop = some pc) (ha : Away pc) :
    Inv (s.consumer pc) q ∧ (s.consumer pc).pop = none ∧ (s.consumer pc).mem.tail = none ∧
      (s.consumer pc).push = s.push := by
  cases pc with
  | loadTail =>
    rw [consumer_null (m := s.mem) (by simp [popStep, ht])]
    exact ⟨hi.read (by simp [hp]), rfl, ht, rfl⟩
  | clear t => exact ⟨hi.return hp, rfl, ht, rfl⟩
  | _ => exact ha.elim

/-- `tail_.store(nullptr)`. -/
theorem Inv.storeNull [DecidableEq T] (hi : Inv s q) (hp : s.pop = some (.storeNull t)) :
    s.consumer (.storeNull t) = { s with mem := { s.mem with tail := none }, pop := some (.clear t) } ∧
      Inv (s.consumer (.storeNull t)) q := by
  have hr : Inv { s with pop := some (.clear t) } q := hi.read (by simp [hp])
  exact ⟨rfl, hr.tail⟩

/-- **The consumer loses nothing.** -/
theorem Front.consumer [DecidableEq T] {pc : PopPc T} (hi : Inv s q) (h : Front s q) (hp : s.pop = some pc) :
    ∃ q', Inv (s.consumer pc) q' ∧ Front (s.consumer pc) q' := by
  cases h with
  | attached h₁ h₂ h₃ => exact Front.consumer_attached hi h₁ h₂ hp (h₃ pc hp)
  | pending x h₁ h₂ h₃ =>
    obtain ⟨k₁, k₂, k₃, k₄⟩ := hi.consumer_away h₂ hp (h₃ pc hp)
    exact ⟨q, k₁, .pending x (by rw [k₄]; exact h₁) k₃ (by simp [k₂])⟩
  | emptying t h₁ h₂ h₃ =>
    obtain rfl : pc = .storeNull t := by rw [hp] at h₂; exact Option.some.inj h₂
    obtain ⟨k₁, k₂⟩ := hi.storeNull hp
    refine ⟨q, k₂, ?_⟩
    rw [k₁]
    subst h₁
    refine .attached rfl (fun x hx => by simpa using hi.setting x hx) ?_
    rintro _ ⟨⟩
    trivial
  | refilled t x h₁ h₂ h₃ =>
    obtain rfl : pc = .storeNull t := by rw [hp] at h₂; exact Option.some.inj h₂
    obtain ⟨k₁, k₂⟩ := hi.storeNull hp
    refine ⟨q, k₂, ?_⟩
    rw [k₁]
    refine .pending x h₁ rfl ?_
    rintro _ ⟨⟩
    trivial

/-- What is lost stays lost under the steps of the consumer. -/
theorem Broken.consumer [DecidableEq T] {pc : PopPc T} (hi : Inv s q) (h : Broken s q) (hp : s.pop = some pc) :
    Inv (s.consumer pc) q ∧ Broken (s.consumer pc) q := by
  cases h with
  | overwriting t h₁ h₂ h₃ =>
    obtain rfl : pc = .storeNull t := by rw [hp] at h₃; exact Option.some.inj h₃
    obtain ⟨k₁, k₂⟩ := hi.storeNull hp
    refine ⟨k₂, ?_⟩
    rw [k₁]
    refine .detached h₁ h₂ rfl ?_
    rintro _ ⟨⟩
    trivial
  | detached h₁ h₂ h₃ h₄ =>
    obtain ⟨k₁, k₂, k₃, k₄⟩ := hi.consumer_away h₃ hp (h₄ pc hp)
    exact ⟨k₁, .detached h₁ (by rw [k₄]; exact h₂) k₃ (by simp [k₂])⟩

end Consumer

/-! ## Every step, every run -/

section Runs

variable {s t : State P T} {q : List T} {l : Label P T}

theorem not_at_empty (pc : PushPc T) : ¬At (State.empty : State P T).push pc := by
  rintro ⟨_, h⟩
  cases h

theorem inv_empty : Inv (State.empty : State P T) [] where
  nodup := by simp [State.empty]
  order := rfl
  head := rfl
  linked := trivial
  cleared _ h := absurd h (not_at_empty _)
  link _ _ h := absurd h (not_at_empty _)
  setting _ h := absurd h (not_at_empty _)
  calls := ⟨(fun _ _ _ _ h => nomatch h), (fun _ _ h => nomatch h)⟩
  inside := by simp
  leaving := by simp [State.empty]
  queued _ h := nomatch h

theorem front_empty : Front (State.empty : State P T) [] := .attached rfl (fun _ => not_at_empty _) nofun

variable [DecidableEq P] [DecidableEq T]

/-- The next access is `tail_.store(item)`. -/
def PushPc.storesTail : PushPc T → Bool
  | .setTail _ => true
  | _ => false

/-- The next access is `tail_.store(nullptr)`. -/
def PopPc.storesNull : PopPc T → Bool
  | .storeNull _ => true
  | _ => false

/-- A producer's store to `tail_` that the consumer's next access would overwrite. -/
def Overwritten (s : State P T) : Label P T → Prop
  | .producer p => (s.push p).any PushPc.storesTail ∧ s.pop.any PopPc.storesNull
  | _ => False

instance (s : State P T) : ∀ l, Decidable (Overwritten s l)
  | .producer p => inferInstanceAs (Decidable ((s.push p).any PushPc.storesTail ∧ s.pop.any PopPc.storesNull))
  | .push _ _ | .pop | .consumer => inferInstanceAs (Decidable False)

omit [DecidableEq P] [DecidableEq T] in
theorem overwritten_producer_iff {p : P} :
    Overwritten s (.producer p) ↔ ∃ x t, s.push p = some (.setTail x) ∧ s.pop = some (.storeNull t) := by
  constructor
  · rintro ⟨h₁, h₂⟩
    obtain ⟨pc, hp, hpc⟩ := (Option.any_eq_true _ _).mp h₁
    obtain ⟨pc', hp', hpc'⟩ := (Option.any_eq_true _ _).mp h₂
    cases pc <;> cases hpc
    cases pc' <;> cases hpc'
    exact ⟨_, _, hp, hp'⟩
  · rintro ⟨x, t, h₁, h₂⟩
    exact ⟨by rw [h₁]; rfl, by rw [h₂]; rfl⟩

/-- **Nothing is lost by any step but a store to `tail_` that is about to be overwritten.** -/
theorem front_step (hi : Inv s q) (hf : Front s q) (hok : ¬Overwritten s l) (h : step s l = some t) :
    ∃ q', Inv t q' ∧ Front t q' := by
  cases l with
  | push p x =>
    obtain ⟨hp, hx, rfl⟩ := step_push h
    exact ⟨q, hi.start hp hx, hf.congr rfl rfl (setTail_start hp) rfl fun _ _ _ _ hn => hn⟩
  | producer p =>
    obtain ⟨pc, hp, rfl⟩ := step_producer h
    refine ⟨_, hi.producer hp, hf.producer hi hp ?_⟩
    rintro y t rfl ht
    exact hok (overwritten_producer_iff.mpr ⟨y, t, hp, ht⟩)
  | pop =>
    obtain ⟨hp, rfl⟩ := step_pop h
    refine ⟨q, hi.read (by simp [hp]), ?_⟩
    cases hf with
    | attached h₁ h₂ _ => exact .attached h₁ h₂ (by rintro _ ⟨⟩; trivial)
    | pending x h₁ h₂ _ => exact .pending x h₁ h₂ (by rintro _ ⟨⟩; trivial)
    | emptying _ _ h₂ _ => rw [hp] at h₂; cases h₂
    | refilled _ _ _ h₂ _ => rw [hp] at h₂; cases h₂
  | consumer =>
    obtain ⟨pc, hp, rfl⟩ := step_consumer h
    exact hf.consumer hi hp

/-- Every step keeps the queue, though not always `tail_`. -/
theorem inv_step (hi : Inv s q) (hf : Front s q ∨ Broken s q) (h : step s l = some t) :
    ∃ q', Inv t q' ∧ (Front t q' ∨ Broken t q') := by
  rcases hf with hf | hb
  · by_cases hok : Overwritten s l
    · cases l with
      | producer p =>
        obtain ⟨x, u, hp, hu⟩ := overwritten_producer_iff.mp hok
        obtain ⟨pc, hp', rfl⟩ := step_producer h
        obtain rfl : pc = .setTail x := by rw [hp] at hp'; exact (Option.some.inj hp').symm
        exact ⟨q, by simpa using hi.producer hp, Or.inr (Broken.of_setTail hi hp hu)⟩
      | _ => exact hok.elim
    · obtain ⟨q', h₁, h₂⟩ := front_step hi hf hok h
      exact ⟨q', h₁, Or.inl h₂⟩
  · cases l with
    | push p x =>
      obtain ⟨hp, hx, rfl⟩ := step_push h
      exact ⟨q, hi.start hp hx, Or.inr (hb.congr rfl rfl (fun y => (setTail_start hp y).mp) id)⟩
    | producer p =>
      obtain ⟨pc, hp, rfl⟩ := step_producer h
      exact ⟨_, hi.producer hp, Or.inr (hb.producer hi hp)⟩
    | pop =>
      obtain ⟨hp, rfl⟩ := step_pop h
      refine ⟨q, hi.read (by simp [hp]), Or.inr ?_⟩
      cases hb with
      | overwriting _ _ _ h₃ => rw [hp] at h₃; cases h₃
      | detached h₁ h₂ h₃ _ => exact .detached h₁ h₂ h₃ (by rintro _ ⟨⟩; trivial)
    | consumer =>
      obtain ⟨pc, hp, rfl⟩ := step_consumer h
      obtain ⟨h₁, h₂⟩ := hb.consumer hi hp
      exact ⟨q, h₁, Or.inr h₂⟩

/-- **The queue in every reachable state.** -/
theorem reachable_inv (hs : Reachable (system P T) s) : ∃ q, Inv s q ∧ (Front s q ∨ Broken s q) := by
  refine hs.invariant (I := fun s => ∃ q, Inv s q ∧ (Front s q ∨ Broken s q)) ?_ ?_
  · rintro _ rfl
    exact ⟨[], inv_empty, Or.inl front_empty⟩
  · rintro s t l ⟨q, hi, hf⟩ _ h
    exact inv_step hi hf h

end Runs

end Cothread.Mpsc
