import Cothread.Queue.MpmcOnce
import Cothread.Lib.Chain

/-!
# `MpmcQueue`: items lost, and items kept

`head_` and `tail_` are changed by two accesses when the queue becomes empty or stops being empty, an item is put behind
`tail_` before the item in front of it is linked to it, and helpers move `head_` off an item that another consumer has
claimed. `losingRuns` are runs in which an item is lost, or one end of the queue is null and the other is not, each for
one kind of interleaving (`loses_items`). In a run with no access of these kinds (`Loses`) every item that was added is
returned or in the list, and a `PopFromHead` running alone returns the first item (`keeps_items`). The list is then `q`,
from `head_` on, and a second list `r`, whose first item is still to be put into `head_` (`Good`).
-/

namespace Cothread.Mpmc

open Run Chain

variable {X C : Type*}

/-- The item that this `PopFromHead` has claimed. -/
def PopPc.holding : PopPc X → Option X
  | .loadNext h | .casNull h | .casNext h _ | .unclaim h => some h
  | _ => none

/-- A consumer has set `head_` to null for this item, and is about to clear `tail_` and return it. -/
def State.leaving (s : State X C) (x : X) : Prop := ∃ c, s.pop c = some (.clearTail x)

/-- A consumer has removed the item. -/
def State.removed (s : State X C) (x : X) : Prop := x ∈ s.returned ∨ s.leaving x

/-- A consumer has claimed the item, and has neither removed it nor rolled the claim back. -/
def State.held (s : State X C) (x : X) : Prop := ∃ c pc, s.pop c = some pc ∧ pc.holding = some x

/-- No operation is in progress. -/
def State.quiet (s : State X C) : Prop := (∀ x, (s.add x).running = false) ∧ ∀ c, s.pop c = none

section Steps

variable [DecidableEq X] [DecidableEq C]

/-- The accesses that lose an item, or leave one end of the queue null and the other not. -/
def Loses (s : State X C) : Label X C → Prop
  | .producer x => match s.add x with
    | .exchange => ∃ prev, s.mem.tail = some prev ∧ s.removed prev  -- the item is put behind one that has been removed
    | .setHead => s.mem.head ≠ none  -- another item is in `head_`
    | .setTail => s.mem.tail = none ∧ x ∈ s.returned  -- an item that has been returned is put into `tail_`
    | _ => False
  | .consumer c spurious => match s.pop c with
    -- `head_` is moved off an item that another consumer has claimed
    | some (.helpCas h _) => s.mem.head = some h ∧ spurious = false
    | some (.helpNull h) => s.mem.head = some h
    -- an item is behind the one that is taken for the only one
    | some (.casNull h) => s.mem.head = some h ∧ (s.mem.next h ≠ none ∨ ∃ z, s.add z = .link h)
    -- the queue is not empty, and no item of it is about to be put into `tail_`
    | some (.clearTail h) => s.mem.tail = some h ∧ s.mem.head ≠ none ∧
        ∀ y, s.add y = .setTail → ¬Reaches s.mem.next s.mem.head y
    | _ => False
  | _ => False

/-- **No item is lost**: with no operation in progress, each item that was added is returned or in the list, unclaimed;
both ends are null or none is; and a `PopFromHead` running alone returns the first item, or null. -/
structure Kept (s : State X C) : Prop where
  items : ∀ x, s.add x = .done → x ∈ s.returned ∨ Reaches s.mem.next s.mem.head x ∧ s.mem.claimed x = false
  ends : s.mem.head = none ↔ s.mem.tail = none
  pops : ∀ c, ∃ n t, exec (system X C) s (.popFromHead c :: List.replicate n (.consumer c false)) = some t ∧
    t.pop c = none ∧ t.returned = s.returned ++ s.mem.head.toList

end Steps

/-! ## The invariant -/

/-- The list `q` from `head_` on, and the list `r` whose first item is still to be put into `head_`. -/
structure Good (m : Mem X) (add : X → AddPc X) (removed leaving held : X → Prop) (q r : List X) : Prop where
  headQ : m.head = q.head?
  nodup : (q ++ r).Nodup
  front : Linked m.next (fun a b => add b = .link a) q
  back : Linked m.next (fun a b => add b = .link a) r
  start : ∀ x, add x = .setHead ↔ r.head? = some x
  tailR : r ≠ [] → m.tail = r.getLast?
  tailQ : r = [] → m.tail = q.getLast? ∨ (m.tail = none ∧ ∃ y, q.getLast? = some y ∧ add y = .setTail) ∨
    ∃ h, m.tail = some h ∧ leaving h
  last : ∀ y, add y = .setTail → q.getLast? = some y ∨ removed y
  links : ∀ z p, add z = .link p → [p, z] <:+: q ∨ [p, z] <:+: r
  kept : ∀ x, (add x).published = true → x ∈ q ∨ x ∈ r ∨ removed x
  listed : ∀ x, x ∈ q ∨ x ∈ r → (add x).published = true ∧ ¬removed x
  claimed : ∀ x, x ∈ q ∨ x ∈ r → m.claimed x = true → held x
  fresh : ∀ x, (add x).published = false → m.claimed x = false

section Producer

variable [DecidableEq X] {m : Mem X} {add : X → AddPc X} {removed leaving held moved : X → Prop} {q r : List X} {x : X}

attribute [local grind =] AddPc.published Function.update_apply

/-- A call that has not published its item goes on; the successor of its item may change. -/
theorem Good.prepare (h : Good m add removed leaving held q r) {pc : AddPc X} {v : Option X}
    (hx : (add x).published = false) (hpc : pc.published = false) :
    Good { m with next := Function.update m.next x v } (Function.update add x pc) removed leaving held q r := by
  have hxq : x ∉ q := fun hm => by simpa [hx] using (h.listed x (Or.inl hm)).1
  have hxr : x ∉ r := fun hm => by simpa [hx] using (h.listed x (Or.inr hm)).1
  have hpend : ∀ a b, add b = .link a → Function.update add x pc b = .link a := by grind
  have hset : ∀ y, Function.update add x pc y = .setTail ↔ add y = .setTail := by grind
  have hstart : ∀ y, Function.update add x pc y = .setHead ↔ add y = .setHead := by grind
  exact {
    headQ := h.headQ
    nodup := h.nodup
    front := (h.front.mono hpend).update_of_notMem hxq
    back := (h.back.mono hpend).update_of_notMem hxr
    start := fun y => (hstart y).trans (h.start y)
    tailR := h.tailR
    tailQ := by simpa only [hset] using h.tailQ
    last := fun y hy => h.last y ((hset y).mp hy)
    links := fun z p hz => h.links z p (by grind)
    kept := fun y hy => h.kept y (by grind)
    listed := fun y hy => by
      have hold := h.listed y hy
      grind
    claimed := h.claimed
    fresh := fun y hy => h.fresh y (by grind) }

omit [DecidableEq X] in
/-- An item that is about to be put into `tail_` is in neither list. -/
theorem Good.nodup_behind (h : Good m add removed leaving held q r) (hx : add x = .exchange) :
    (q ++ r ++ [x]).Nodup := by
  have hq : x ∉ q := fun hm => by simpa [hx, AddPc.published] using (h.listed x (Or.inl hm)).1
  have hr : x ∉ r := fun hm => by simpa [hx, AddPc.published] using (h.listed x (Or.inr hm)).1
  refine List.nodup_append.mpr ⟨h.nodup, List.nodup_singleton x, fun a ha b hb e => ?_⟩
  cases List.mem_singleton.mp hb
  subst e
  exact (List.mem_append.mp ha).elim hq hr

/-- A list that ends in `p`, with the item that is going to be linked to `p` behind it. -/
theorem linked_behind (hnext : m.next x = none) (hx : add x = .exchange) {p : X} {l : List X}
    (hl : l.getLast? = some p) (hlinked : Linked m.next (fun a b => add b = .link a) l) :
    Linked m.next (fun a b => Function.update add x (AddPc.link p) b = .link a) (l ++ [x]) := by
  have hmono : ∀ a b, add b = .link a → Function.update add x (AddPc.link p) b = .link a := by grind
  refine (hlinked.mono hmono).snoc hnext fun a ha => ?_
  cases hl.symm.trans ha
  exact Function.update_self ..

/-- The exchange of `tail_` puts the item behind the last one of the list from `head_` on. -/
theorem Good.exchange_front (h : Good m add removed leaving held q []) (hnext : m.next x = none)
    (hx : add x = .exchange) (hxr : ¬removed x) {p : X} (hpset : add p ≠ .setTail) (hql : q.getLast? = some p) :
    Good { m with tail := some x } (Function.update add x (.link p)) removed leaving held (q ++ [x]) [] := by
  have hclaim : m.claimed x = false := h.fresh x (by simp [hx, AddPc.published])
  have hset : ∀ y, Function.update add x (AddPc.link p) y = .setTail ↔ add y = .setTail := by grind
  have hstart : ∀ y, Function.update add x (AddPc.link p) y = .setHead ↔ add y = .setHead := by grind
  exact {
    headQ := by
      have hh := h.headQ
      cases q with
      | nil => cases hql
      | cons a q => exact hh
    nodup := by simpa using h.nodup_behind hx
    front := linked_behind hnext hx hql h.front
    back := trivial
    start := fun y => (hstart y).trans (h.start y)
    tailR := fun e => absurd rfl e
    tailQ := fun _ => Or.inl (by simp)
    last := fun y hy => by
      obtain hl | hl := h.last y ((hset y).mp hy)
      · cases hql.symm.trans hl
        exact absurd ((hset p).mp hy) hpset
      · exact Or.inr hl
    links := fun z a hz => by
      left
      rw [infix_snoc_iff]
      by_cases hzx : z = x
      · subst hzx
        simp only [Function.update_self, AddPc.link.injEq] at hz
        exact Or.inr ⟨hz ▸ hql, rfl⟩
      · obtain hl | hl := h.links z a (by simpa [hzx] using hz)
        · exact Or.inl hl
        · exact absurd (hl.subset List.mem_cons_self) List.not_mem_nil
    kept := fun y hy => by
      have hold := h.kept y
      grind
    listed := fun y hy => by
      have hold := h.listed y
      grind
    claimed := fun y hy hc => h.claimed y (by grind) hc
    fresh := fun y hy => h.fresh y (by grind) }

/-- The exchange of `tail_` puts the item behind the last one of the second list. -/
theorem Good.exchange_back (h : Good m add removed leaving held q r) (hnext : m.next x = none)
    (hx : add x = .exchange) (hxr : ¬removed x) {p : X} (hrn : r ≠ []) (hrl : r.getLast? = some p) :
    Good { m with tail := some x } (Function.update add x (.link p)) removed leaving held q (r ++ [x]) := by
  have hclaim : m.claimed x = false := h.fresh x (by simp [hx, AddPc.published])
  have hset : ∀ y, Function.update add x (AddPc.link p) y = .setTail ↔ add y = .setTail := by grind
  have hstart : ∀ y, Function.update add x (AddPc.link p) y = .setHead ↔ add y = .setHead := by grind
  have hmono : ∀ a b, add b = .link a → Function.update add x (AddPc.link p) b = .link a := by grind
  exact {
    headQ := h.headQ
    nodup := by simpa using h.nodup_behind hx
    front := h.front.mono hmono
    back := linked_behind hnext hx hrl h.back
    start := fun y => by
      rw [hstart y, h.start y, List.head?_append_of_ne_nil _ hrn]
    tailR := fun _ => by simp
    tailQ := fun e => by simp at e
    last := fun y hy => h.last y ((hset y).mp hy)
    links := fun z a hz => by
      rw [infix_snoc_iff]
      by_cases hzx : z = x
      · subst hzx
        simp only [Function.update_self, AddPc.link.injEq] at hz
        exact Or.inr (Or.inr ⟨hz ▸ hrl, rfl⟩)
      · exact (h.links z a (by simpa [hzx] using hz)).imp_right Or.inl
    kept := fun y hy => by
      have hold := h.kept y
      grind
    listed := fun y hy => by
      have hold := h.listed y
      grind
    claimed := fun y hy hc => h.claimed y (by grind) hc
    fresh := fun y hy => h.fresh y (by grind) }

/-- The exchange of `tail_`, when it is not null: the item is put behind the last one. -/
theorem Good.exchange_behind (h : Good m add removed leaving held q r) (hs : Shape m.head m.tail m.next add moved)
    (hx : add x = .exchange) (hxr : ¬removed x) {p : X} (hp : m.tail = some p) (hpr : ¬removed p)
    (hleave : ∀ y, leaving y → removed y) :
    ∃ q' r', Good { m with tail := some x } (Function.update add x (.link p)) removed leaving held q' r' := by
  have hnext : m.next x = none := hs.freshNext x (Or.inr hx)
  have hpset : add p ≠ .setTail := (hs.tailOpen p hp).1.2.1
  by_cases hrn : r = []
  · subst hrn
    have hql : q.getLast? = some p := by
      obtain ht | ⟨ht, -⟩ | ⟨y, ht, hy⟩ := h.tailQ rfl
      · exact ht.symm.trans hp
      · cases ht.symm.trans hp
      · cases ht.symm.trans hp
        exact absurd (hleave p hy) hpr
    exact ⟨_, _, h.exchange_front hnext hx hxr hpset hql⟩
  · exact ⟨_, _, h.exchange_back hnext hx hxr hrn ((h.tailR hrn).symm.trans hp)⟩

/-- The exchange of `tail_`, when it is null: the item starts the second list. -/
theorem Good.exchange_first (h : Good m add removed leaving held q r) (hs : Shape m.head m.tail m.next add moved)
    (hx : add x = .exchange) (hxr : ¬removed x) (ht : m.tail = none) :
    Good { m with tail := some x } (Function.update add x .setHead) removed leaving held q [x] := by
  have hnext : m.next x = none := hs.freshNext x (Or.inr hx)
  have hq : x ∉ q := fun hm => by simpa [hx, AddPc.published] using (h.listed x (Or.inl hm)).1
  have hclaim : m.claimed x = false := h.fresh x (by simp [hx, AddPc.published])
  have hset : ∀ y, Function.update add x AddPc.setHead y = .setTail ↔ add y = .setTail := by grind
  have hmono : ∀ a b, add b = .link a → Function.update add x AddPc.setHead b = .link a := by grind
  have hr : r = [] := by
    by_contra hr
    have hl := (h.tailR hr).symm.trans ht
    exact hr (List.getLast?_eq_none_iff.mp hl)
  subst hr
  have hstart := h.start
  exact {
    headQ := h.headQ
    nodup := by
      have hn := h.nodup
      rw [List.append_nil] at hn
      exact List.nodup_append.mpr ⟨hn, List.nodup_singleton x, fun a ha b hb e => by
        cases List.mem_singleton.mp hb
        exact hq (e ▸ ha)⟩
    front := h.front.mono hmono
    back := hnext
    start := fun y => by grind
    tailR := fun _ => rfl
    tailQ := nofun
    last := fun y hy => h.last y ((hset y).mp hy)
    links := fun z a hz => h.links z a (by grind) |>.imp_right fun hl => hl.trans List.nil_infix
    kept := fun y hy => by
      have hold := h.kept y
      grind
    listed := fun y hy => by
      have hold := h.listed y
      grind
    claimed := fun y hy hc => h.claimed y (by grind) hc
    fresh := fun y hy => h.fresh y (by grind) }

/-- The link from the item in front is written. -/
theorem Good.link (h : Good m add removed leaving held q r) {p : X} (hx : add x = .link p) :
    Good { m with next := Function.update m.next p (some x) }
      (Function.update add x .done) removed leaving held q r := by
  obtain ⟨hnq, hnr, hqr⟩ := List.nodup_append.mp h.nodup
  have hmono : ∀ a b, add b = .link a → a ≠ p → Function.update add x AddPc.done b = .link a := by grind
  -- the two items are neighbours in one of the lists, and not in the other
  have hlist : ∀ {l : List X}, l.Nodup → ([p, x] <:+: l ∨ p ∉ l) → Linked m.next (fun a b => add b = .link a) l →
      Linked (Function.update m.next p (some x)) (fun a b => Function.update add x AddPc.done b = .link a) l := by
    intro l hn hl hlinked
    obtain hl | hl := hl
    · exact hlinked.link hn hl hmono
    · refine (hlinked.congr (fun _ _ => rfl) fun a b hab hb => hmono a b hb ?_).update_of_notMem hl
      rintro rfl
      exact hl (hab.subset List.mem_cons_self)
  have hset : ∀ y, Function.update add x AddPc.done y = .setTail ↔ add y = .setTail := by grind
  have hstart : ∀ y, Function.update add x AddPc.done y = .setHead ↔ add y = .setHead := by grind
  have hpub : ∀ y, (Function.update add x AddPc.done y).published = (add y).published := by grind
  have hside : ([p, x] <:+: q ∨ p ∉ q) ∧ ([p, x] <:+: r ∨ p ∉ r) := by
    obtain hl | hl := h.links x p hx
    · exact ⟨Or.inl hl, Or.inr fun hm => hqr p (hl.subset List.mem_cons_self) p hm rfl⟩
    · exact ⟨Or.inr fun hm => hqr p hm p (hl.subset List.mem_cons_self) rfl, Or.inl hl⟩
  exact {
    headQ := h.headQ
    nodup := h.nodup
    front := hlist hnq hside.1 h.front
    back := hlist hnr hside.2 h.back
    start := fun y => (hstart y).trans (h.start y)
    tailR := h.tailR
    tailQ := by simpa only [hset] using h.tailQ
    last := fun y hy => h.last y ((hset y).mp hy)
    links := fun z a hz => h.links z a (by grind)
    kept := fun y hy => h.kept y (by rwa [hpub] at hy)
    listed := fun y hy => by rw [hpub]; exact h.listed y hy
    claimed := h.claimed
    fresh := fun y hy => h.fresh y (by rwa [hpub] at hy) }

/-- The first item of the second list is put into `head_`, which is null: the second list becomes the list. -/
theorem Good.setHead (h : Good m add removed leaving held q r) (hx : add x = .setHead) (hh : m.head = none) :
    Good { m with head := some x } (Function.update add x .done) removed leaving held r [] := by
  have hq : q = [] := List.head?_eq_none_iff.mp (h.headQ.symm.trans hh)
  subst hq
  have hr : r.head? = some x := (h.start x).mp hx
  have hrn : r ≠ [] := by
    rintro rfl
    cases hr
  have hmono : ∀ a b, add b = .link a → Function.update add x AddPc.done b = .link a := by grind
  have hset : ∀ y, Function.update add x AddPc.done y = .setTail ↔ add y = .setTail := by grind
  have hpub : ∀ y, (Function.update add x AddPc.done y).published = (add y).published := by grind
  have hstart := h.start
  exact {
    headQ := hr.symm
    nodup := by simpa using h.nodup
    front := h.back.mono hmono
    back := trivial
    start := fun y => by grind
    tailR := fun e => absurd rfl e
    tailQ := fun _ => Or.inl (h.tailR hrn)
    last := fun y hy => (h.last y ((hset y).mp hy)).imp_left nofun
    links := fun z a hz => (h.links z a (by grind)).symm
    kept := fun y hy => by
      obtain hy | hy := h.kept y (by rwa [hpub] at hy)
      · cases hy
      · exact hy.imp_right Or.inr
    listed := fun y hy => by rw [hpub]; exact h.listed y (hy.symm.imp_left nofun)
    claimed := fun y hy => h.claimed y (hy.symm.imp_left nofun)
    fresh := fun y hy => h.fresh y (by rwa [hpub] at hy) }

/-- `AddToHead` puts its item before the first one. -/
theorem Good.casHead (h : Good m add removed leaving held q r) (hs : Shape m.head m.tail m.next add moved)
    (hx : add x = .casHead m.head) (hxr : ¬removed x) :
    Good { m with head := some x }
      (Function.update add x (if m.head = none then .setTail else .done)) removed leaving held
      (x :: q) r := by
  have hnext : m.next x = q.head? := (hs.casHeadNext x m.head hx).trans h.headQ
  have hq : x ∉ q := fun hm => by simpa [hx, AddPc.published] using (h.listed x (Or.inl hm)).1
  have hr : x ∉ r := fun hm => by simpa [hx, AddPc.published] using (h.listed x (Or.inr hm)).1
  have hclaim : m.claimed x = false := h.fresh x (by simp [hx, AddPc.published])
  generalize hpc : (if m.head = none then AddPc.setTail else AddPc.done) = pc
  have hpcs : pc.published = true ∧ (∀ p : X, pc ≠ .link p) ∧ pc ≠ .setHead ∧ (pc = .setTail ↔ q = []) := by
    rw [← hpc, h.headQ]
    cases q <;> simp [AddPc.published]
  obtain ⟨hpub, hnl, hns, hst⟩ := hpcs
  have hmono : ∀ a b, add b = .link a → Function.update add x pc b = .link a := by grind
  have hstart := h.start
  have hlast : ∀ y, q.getLast? = some y → (x :: q).getLast? = some y := fun y hy => by
    cases q with
    | nil => cases hy
    | cons b q => exact hy
  exact {
    headQ := rfl
    nodup := List.nodup_cons.mpr ⟨fun hm => (List.mem_append.mp hm).elim hq hr, h.nodup⟩
    front := (h.front.mono hmono).cons hnext
    back := h.back.mono hmono
    start := fun y => by grind
    tailR := h.tailR
    tailQ := fun hr => by
      obtain ht | ⟨ht, y, hl, hy⟩ | ht := h.tailQ hr
      · cases q with
        | nil => exact Or.inr (Or.inl ⟨ht, x, rfl, by simpa using hst⟩)
        | cons b q => exact Or.inl ht
      · exact Or.inr (Or.inl ⟨ht, y, hlast y hl, by grind⟩)
      · exact Or.inr (Or.inr ht)
    last := fun y hy => by
      by_cases hyx : y = x
      · subst hyx
        have hq : q = [] := hst.mp (by simpa using hy)
        subst hq
        exact Or.inl rfl
      · exact (h.last y (by simpa [hyx] using hy)).imp_left (hlast y)
    links := fun z a hz => (h.links z a (by grind)).imp_left fun hl => hl.trans (List.suffix_cons x q).isInfix
    kept := fun y hy => by
      have hold := h.kept y
      grind
    listed := fun y hy => by
      have hold := h.listed y
      grind
    claimed := fun y hy hc => h.claimed y (by grind) hc
    fresh := fun y hy => h.fresh y (by grind) }

/-- `AddToHead` puts its item, when it has not been returned, into `tail_`, unless another one is there. -/
theorem Good.setTail (h : Good m add removed leaving held q r) (hx : add x = .setTail)
    (hlose : m.tail = none → removed x → leaving x) :
    Good { m with tail := if m.tail = none then some x else m.tail }
      (Function.update add x .done) removed leaving held q r := by
  have hmono : ∀ a b, add b = .link a → Function.update add x AddPc.done b = .link a := by grind
  have hset : ∀ y, Function.update add x AddPc.done y = .setTail ↔ y ≠ x ∧ add y = .setTail := by grind
  have hstart : ∀ y, Function.update add x AddPc.done y = .setHead ↔ add y = .setHead := by grind
  have hpub : ∀ y, (Function.update add x AddPc.done y).published = (add y).published := by grind
  exact {
    headQ := h.headQ
    nodup := h.nodup
    front := h.front.mono hmono
    back := h.back.mono hmono
    start := fun y => (hstart y).trans (h.start y)
    tailR := fun hr => by
      have ht := h.tailR hr
      have hne : m.tail ≠ none := fun e => hr (List.getLast?_eq_none_iff.mp (ht.symm.trans e))
      simpa [hne] using ht
    tailQ := fun hr => by
      by_cases ht : m.tail = none
      · obtain hl | hl := h.last x hx
        · exact Or.inl (by simp [ht, hl])
        · exact Or.inr (Or.inr ⟨x, by simp [ht], hlose ht hl⟩)
      · obtain hl | ⟨hl, -⟩ | hl := h.tailQ hr
        · exact Or.inl (by simpa [ht] using hl)
        · exact absurd hl ht
        · exact Or.inr (Or.inr (by simpa [ht] using hl))
    last := fun y hy => h.last y ((hset y).mp hy).2
    links := fun z a hz => h.links z a (by grind)
    kept := fun y hy => h.kept y (by rwa [hpub] at hy)
    listed := fun y hy => by rw [hpub]; exact h.listed y hy
    claimed := h.claimed
    fresh := fun y hy => h.fresh y (by rwa [hpub] at hy) }

end Producer

section Consumer

variable {m : Mem X} {add : X → AddPc X} {removed leaving held removed' leaving' held' moved : X → Prop} {q r : List X}
  {x n : X}

/-- A consumer goes on, and may have set or cleared a `claimed`. -/
theorem Good.goesOn (h : Good m add removed leaving held q r) {claimed : X → Bool} (hrem : ∀ y, removed' y ↔ removed y)
    (hleave : ∀ y, leaving y → leaving' y) (hclaim : ∀ y, claimed y = true → (m.claimed y = true → held y) → held' y)
    (hfresh : ∀ y, (add y).published = false → m.claimed y = false → claimed y = false) :
    Good { m with claimed := claimed } add removed' leaving' held' q r where
  headQ := h.headQ
  nodup := h.nodup
  front := h.front
  back := h.back
  start := h.start
  tailR := h.tailR
  tailQ hr := (h.tailQ hr).imp_right <| Or.imp_right fun ⟨y, ht, hy⟩ => ⟨y, ht, hleave y hy⟩
  last y hy := (h.last y hy).imp_right (hrem y).mpr
  links := h.links
  kept y hy := (h.kept y hy).imp_right <| Or.imp_right (hrem y).mpr
  listed y hy := ⟨(h.listed y hy).1, fun hr => (h.listed y hy).2 ((hrem y).mp hr)⟩
  claimed y hy hc := hclaim y hc (h.claimed y hy)
  fresh y hy := hfresh y hy (h.fresh y hy)

/-- A consumer removes the only item of the list. -/
theorem Good.casNull (h : Good m add removed leaving held q r) (hx : m.head = some x)
    (hlose : m.next x = none ∧ ∀ z, add z ≠ .link x) (hrem : ∀ y, removed' y ↔ removed y ∨ y = x)
    (hleave : ∀ y, leaving y ∨ y = x → leaving' y) (hheld : ∀ y, y ≠ x → held y → held' y) :
    Good { m with head := none } add removed' leaving' held' [] r := by
  obtain ⟨hnext, hlink⟩ := hlose
  have hq : q = [x] := by
    have hh := h.headQ.symm.trans hx
    have hl := h.front
    cases q with
    | nil => cases hh
    | cons a q =>
      cases hh
      obtain hq | ⟨-, b, -, hb⟩ := hl.next_head
      · rw [List.head?_eq_none_iff.mp (hq.symm.trans hnext)]
      · exact absurd hb (hlink b)
  subst hq
  have hxr : x ∉ r := (List.nodup_cons.mp h.nodup).1
  exact {
    headQ := rfl
    nodup := (List.nodup_cons.mp h.nodup).2
    front := trivial
    back := h.back
    start := h.start
    tailR := h.tailR
    tailQ := fun hr => by
      obtain ht | ⟨ht, -⟩ | ⟨y, ht, hy⟩ := h.tailQ hr
      · exact Or.inr (Or.inr ⟨x, ht, hleave x (Or.inr rfl)⟩)
      · exact Or.inl ht
      · exact Or.inr (Or.inr ⟨y, ht, hleave y (Or.inl hy)⟩)
    last := fun y hy => by
      right
      rw [hrem]
      obtain hl | hl := h.last y hy
      · exact Or.inr (Option.some.inj hl).symm
      · exact Or.inl hl
    links := fun z a hz => by
      refine (h.links z a hz).imp_left fun hl => absurd hl.length_le ?_
      simp
    kept := fun y hy => by
      obtain hy | hy | hy := h.kept y hy
      · exact Or.inr (Or.inr ((hrem y).mpr (Or.inr (List.mem_singleton.mp hy))))
      · exact Or.inr (Or.inl hy)
      · exact Or.inr (Or.inr ((hrem y).mpr (Or.inl hy)))
    listed := fun y hy => by
      have hyr := hy.resolve_left List.not_mem_nil
      obtain ⟨hpub, hn⟩ := h.listed y (Or.inr hyr)
      refine ⟨hpub, fun hr => ((hrem y).mp hr).elim hn ?_⟩
      rintro rfl
      exact hxr hyr
    claimed := fun y hy hc => by
      have hyr := hy.resolve_left List.not_mem_nil
      exact hheld y (ne_of_mem_of_not_mem hyr hxr) (h.claimed y (Or.inr hyr) hc)
    fresh := h.fresh }

/-- A consumer removes the first item of the list, and puts the second one into `head_`. -/
theorem Good.casNext (h : Good m add removed leaving held q r) (hs : Shape m.head m.tail m.next add moved)
    (hx : m.head = some x) (hn : m.next x = some n) (hrem : ∀ y, removed' y ↔ removed y ∨ y = x)
    (hleave : ∀ y, leaving y → leaving' y) (hheld : ∀ y, y ≠ x → held y → held' y) :
    ∃ q', Good { m with head := some n } add removed' leaving' held' q' r := by
  have hlink : ∀ z, add z ≠ .link x := fun z hz => by
    cases hn.symm.trans (hs.linkOpen z x hz).2.2
  have hh := h.headQ.symm.trans hx
  match q, h, hh with
  | a :: q, h, hh =>
    cases hh
    have hq : some n = q.head? := by
      obtain hq | ⟨hq, -⟩ := h.front.next_head
      · exact hn.symm.trans hq
      · cases hn.symm.trans hq
    have hlast : (x :: q).getLast? = q.getLast? := by
      cases q with
      | nil => cases hq
      | cons b q => rfl
    obtain ⟨hnot, hnodup⟩ := List.nodup_cons.mp h.nodup
    have hne : ∀ y, y ∈ q ∨ y ∈ r → y ≠ x := fun y hy => ne_of_mem_of_not_mem (List.mem_append.mpr hy) hnot
    refine ⟨q, ?_⟩
    exact {
      headQ := hq
      nodup := hnodup
      front := h.front.tail
      back := h.back
      start := h.start
      tailR := h.tailR
      tailQ := fun hr => by
        rw [← hlast]
        exact (h.tailQ hr).imp_right <| Or.imp_right fun ⟨y, ht, hy⟩ => ⟨y, ht, hleave y hy⟩
      last := fun y hy => by
        rw [← hlast]
        exact (h.last y hy).imp_right fun hl => (hrem y).mpr (Or.inl hl)
      links := fun z p hz => by
        refine (h.links z p hz).imp_left fun hl => (List.infix_cons_iff.mp hl).resolve_left fun hp => ?_
        have hpx : p = x := (List.cons_prefix_cons.mp hp).1
        exact hlink z (hpx ▸ hz)
      kept := fun y hy => by
        obtain hy | hy | hy := h.kept y hy
        · obtain rfl | hy := List.mem_cons.mp hy
          · exact Or.inr (Or.inr ((hrem y).mpr (Or.inr rfl)))
          · exact Or.inl hy
        · exact Or.inr (Or.inl hy)
        · exact Or.inr (Or.inr ((hrem y).mpr (Or.inl hy)))
      listed := fun y hy => by
        obtain ⟨hpub, hnr⟩ := h.listed y (hy.imp_left (List.mem_cons_of_mem x))
        exact ⟨hpub, fun hr => ((hrem y).mp hr).elim hnr (hne y hy)⟩
      claimed := fun y hy hc => hheld y (hne y hy) (h.claimed y (hy.imp_left (List.mem_cons_of_mem x)) hc)
      fresh := h.fresh }

/-- A consumer clears `tail_` behind the item that it returns. -/
theorem Good.clearTail [DecidableEq X] (h : Good m add removed leaving held q r) (hx : removed x)
    (hlose : m.tail = some x → m.head ≠ none → ∃ y, add y = .setTail ∧ Reaches m.next m.head y)
    (hrem : ∀ y, removed' y ↔ removed y) (hleave : ∀ y, y ≠ x → leaving y → leaving' y)
    (hheld : ∀ y, held y → held' y) :
    Good { m with tail := if m.tail = some x then none else m.tail } add removed' leaving' held' q r where
  headQ := h.headQ
  nodup := h.nodup
  front := h.front
  back := h.back
  start := h.start
  tailR hr := by
    have ht := h.tailR hr
    have hne : m.tail ≠ some x := fun e => by
      exact (h.listed x (Or.inr (List.mem_of_getLast? (ht.symm.trans e)))).2 hx
    simpa [hne] using ht
  tailQ hr := by
    by_cases htx : m.tail = some x
    · rw [if_pos htx]
      by_cases hh : m.head = none
      · have hq : q = [] := List.head?_eq_none_iff.mp (h.headQ.symm.trans hh)
        exact Or.inl (by rw [hq]; rfl)
      · obtain ⟨y, hy, hyr⟩ := hlose htx hh
        have hyq : y ∈ q := Linked.reaches_mem hyr h.front h.headQ
        exact Or.inr (Or.inl ⟨rfl, y, (h.last y hy).resolve_right (h.listed y (Or.inl hyq)).2, hy⟩)
    · rw [if_neg htx]
      refine (h.tailQ hr).imp_right <| Or.imp_right fun ⟨y, ht, hy⟩ => ⟨y, ht, hleave y ?_ hy⟩
      rintro rfl
      exact htx ht
  last y hy := (h.last y hy).imp_right (hrem y).mpr
  links := h.links
  kept y hy := (h.kept y hy).imp_right <| Or.imp_right (hrem y).mpr
  listed y hy := ⟨(h.listed y hy).1, fun hr => (h.listed y hy).2 ((hrem y).mp hr)⟩
  claimed y hy hc := hheld y (h.claimed y hy hc)
  fresh := h.fresh

end Consumer

/-! ## The steps -/

/-- The invariant of the state; no consumer has emptied the list for another one. -/
structure Keeps (s : State X C) (q r : List X) : Prop where
  good : Good s.mem s.add s.removed s.leaving s.held q r
  noHelp : ∀ c x, s.pop c ≠ some (.helpClear x)

section Steps

variable [DecidableEq X] [DecidableEq C] {s s' : State X C} {q r : List X} {moved : X → Prop} {x : X} {c : C}

omit [DecidableEq X] [DecidableEq C] in
theorem Inv.removed_moved (h : Inv s moved) (hx : s.removed x) : moved x := by
  obtain hx | ⟨c, hc⟩ := hx
  · exact h.returned x hx
  · exact (h.leaving c x hc).1

omit [DecidableEq X] [DecidableEq C] in
/-- An item that has not been published has not been removed. -/
theorem Inv.not_removed (h : Inv s moved) (hx : (s.add x).published = false) : ¬s.removed x := fun hr => by
  simpa [hx] using h.shape.movedPublished x (h.removed_moved hr)

omit [DecidableEq X] in
/-- Who is about to clear `tail_` and return the item, after an access of `c` that was not about to. -/
theorem leaving_update (hc : ∀ y, s.pop c ≠ some (.clearTail y)) {m : Mem X} {o : Option (PopPc X)}
    {l : List X} {y : X} :
    State.leaving ⟨m, s.add, Function.update s.pop c o, l⟩ y ↔ o = some (.clearTail y) ∨ s.leaving y := by
  unfold State.leaving
  rw [Function.exists_update_iff s.pop fun _ v => v = some (.clearTail y)]
  apply or_congr_right
  constructor
  · rintro ⟨d, -, hd⟩
    exact ⟨d, hd⟩
  · rintro ⟨d, hd⟩
    refine ⟨d, ?_, hd⟩
    rintro rfl
    exact hc y hd

omit [DecidableEq X] in
/-- The other consumers keep their claims. -/
theorem held_update {m : Mem X} {o : Option (PopPc X)} {l : List X} {y : X}
    (hc : ∀ pc, s.pop c = some pc → pc.holding ≠ some y) (hy : s.held y) :
    State.held ⟨m, s.add, Function.update s.pop c o, l⟩ y := by
  obtain ⟨d, pc, hd, hh⟩ := hy
  have hdc : d ≠ c := by
    rintro rfl
    exact hc pc hd hh
  exact ⟨d, pc, (Function.update_of_ne hdc _ _).trans hd, hh⟩

omit [DecidableEq X] in
/-- A consumer goes on, or returns null: it neither removes an item nor is about to return one. -/
theorem Keeps.stays (h : Keeps s q r) {claimed : X → Bool} {o : Option (PopPc X)}
    (hold : ∀ y, s.pop c ≠ some (.clearTail y)) (hnew : ∀ y, o ≠ some (.clearTail y) ∧ o ≠ some (.helpClear y))
    (hclaim : ∀ y, claimed y = true → (∃ pc, o = some pc ∧ pc.holding = some y) ∨
      s.mem.claimed y = true ∧ ∀ pc, s.pop c = some pc → pc.holding ≠ some y)
    (hfresh : ∀ y, (s.add y).published = false → s.mem.claimed y = false → claimed y = false) :
    Keeps { s with mem := { s.mem with claimed := claimed }, pop := Function.update s.pop c o } q r := by
  have hleave : ∀ y, State.leaving { s with pop := Function.update s.pop c o } y ↔ s.leaving y := fun y =>
    (leaving_update hold).trans (or_iff_right (hnew y).1)
  have hheld : ∀ y, claimed y = true → (s.mem.claimed y = true → s.held y) →
      State.held { s with pop := Function.update s.pop c o } y := by
    intro y hy hheld
    obtain ⟨pc, rfl, hpc⟩ | ⟨hy, hpc⟩ := hclaim y hy
    · exact ⟨c, pc, Function.update_self .., hpc⟩
    · exact held_update hpc (hheld hy)
  refine ⟨h.good.goesOn (fun y => or_congr_right (hleave y)) (fun y => (hleave y).mpr) hheld hfresh, fun d y hd => ?_⟩
  by_cases hdc : d = c
  · subst hdc
    exact (hnew y).2 (by simpa using hd)
  · exact h.noHelp d y (by simpa [hdc] using hd)

/-- A consumer goes on, keeping its claim; the memory does not change. -/
theorem Keeps.quiet (h : Keeps s q r) {pc pc' : PopPc X} (hp : s.pop c = some pc) {spurious : Bool}
    (hst : popStep s.mem spurious pc = (s.mem, .running pc')) (hhold : ∀ y, pc.holding = some y → pc'.holding = some y)
    (hold : ∀ y, pc ≠ .clearTail y) (hnew : ∀ y, pc' ≠ .clearTail y ∧ pc' ≠ .helpClear y) :
    ∃ q r, Keeps (s.consumer c spurious pc) q r := by
  rw [consumer_running hst]
  refine ⟨q, r, h.stays ?_ ?_ (fun y hy => ?_) fun _ _ => id⟩
  · intro y hy
    exact hold y (Option.some.inj (hp.symm.trans hy))
  · intro y
    exact ⟨fun e => (hnew y).1 (Option.some.inj e), fun e => (hnew y).2 (Option.some.inj e)⟩
  · by_cases hpy : pc.holding = some y
    · exact Or.inl ⟨pc', rfl, hhold y hpy⟩
    · right
      refine ⟨hy, fun pc₁ hc => ?_⟩
      cases hp.symm.trans hc
      exact hpy

omit [DecidableEq C] in
/-- The next access of the call that adds `x`. -/
theorem Keeps.producer (h : Keeps s q r) (hi : Inv s moved) (hok : ¬Loses s (.producer x)) :
    ∃ q r, Keeps (s.producer x) q r := by
  suffices hg : ∃ q r, Good (addStep s.mem x (s.add x)).1 (Function.update s.add x (addStep s.mem x (s.add x)).2)
      s.removed s.leaving s.held q r by
    obtain ⟨q, r, hg⟩ := hg
    exact ⟨q, r, hg, h.noHelp⟩
  have hleave : ∀ y, s.leaving y → s.removed y := fun y => Or.inr
  have hearly : (s.add x).published = false → ∀ pc : AddPc X, pc.published = false →
      Good s.mem (Function.update s.add x pc) s.removed s.leaving s.held q r := by
    intro hx pc hpc
    have hg := h.good.prepare (v := s.mem.next x) hx hpc
    rwa [Function.update_eq_self] at hg
  simp only [Loses] at hok
  cases hx : s.add x with
  | idle | done =>
    refine ⟨q, r, ?_⟩
    simpa [addStep, ← hx] using h.good
  | clearNext => exact ⟨q, r, h.good.prepare (by simp [hx, AddPc.published]) rfl⟩
  | clearClaimed =>
    have hg := hearly (by simp [hx, AddPc.published]) .exchange rfl
    have hclaim : s.mem.claimed x = false := h.good.fresh x (by simp [hx, AddPc.published])
    have hsame : Function.update s.mem.claimed x false = s.mem.claimed := by rw [← hclaim, Function.update_eq_self]
    refine ⟨q, r, ?_⟩
    simpa [addStep, hsame] using hg
  | exchange =>
    simp only [hx, not_exists, not_and] at hok
    have hxr : ¬s.removed x := hi.not_removed (by simp [hx, AddPc.published])
    cases ht : s.mem.tail with
    | none =>
      refine ⟨q, [x], ?_⟩
      simpa [addStep, ht] using h.good.exchange_first hi.shape hx hxr ht
    | some p =>
      obtain ⟨q', r', hg⟩ := h.good.exchange_behind hi.shape hx hxr ht (hok p ht) hleave
      refine ⟨q', r', ?_⟩
      simpa [addStep, ht] using hg
  | link p => exact ⟨q, r, h.good.link hx⟩
  | setHead =>
    simp only [hx, not_not] at hok
    refine ⟨r, [], ?_⟩
    simpa [addStep, hok] using h.good.setHead hx hok
  | loadHead => exact ⟨q, r, hearly (by simp [hx, AddPc.published]) _ rfl⟩
  | setNext o => exact ⟨q, r, h.good.prepare (by simp [hx, AddPc.published]) rfl⟩
  | casHead o =>
    by_cases hh : s.mem.head = o
    · subst hh
      have hxr : ¬s.removed x := hi.not_removed (by simp [hx, AddPc.published])
      refine ⟨x :: q, r, ?_⟩
      simpa [addStep] using h.good.casHead hi.shape hx hxr
    · refine ⟨q, r, ?_⟩
      simpa [addStep, hh] using hearly (by simp [hx, AddPc.published]) .loadHead rfl
  | setTail =>
    simp only [hx, not_and] at hok
    have hg := h.good.setTail hx fun ht hr => hr.resolve_left (hok ht)
    refine ⟨q, r, ?_⟩
    by_cases ht : s.mem.tail = none <;> simpa [addStep, ht] using hg

/-- `PopFromHead` claims the node that it has loaded. -/
theorem Keeps.claim (h : Keeps s q r) (hi : Inv s moved) {x : X} (hp : s.pop c = some (.claim x)) {spurious : Bool} :
    ∃ q r, Keeps (s.consumer c spurious (.claim x)) q r := by
  have hnode := fun y => hi.node c _ y hp
  have hst : popStep s.mem spurious (.claim x) = ({ s.mem with claimed := Function.update s.mem.claimed x true },
      .running (if s.mem.claimed x then .helpNext x else .loadNext x)) := rfl
  rw [consumer_running hst]
  refine ⟨q, r, h.stays (by simp [hp]) (fun y => ?_) (fun y hy => ?_) fun y hpub hy => ?_⟩
  · split_ifs <;> exact ⟨nofun, nofun⟩
  · by_cases hyx : y = x ∧ s.mem.claimed x = false
    · obtain ⟨rfl, hc⟩ := hyx
      exact Or.inl ⟨.loadNext y, by simp [hc], rfl⟩
    · right
      refine ⟨by grind, fun pc hc => ?_⟩
      cases hp.symm.trans hc
      exact nofun
  · have hyx : y ≠ x := by
      rintro rfl
      simp [hnode y rfl] at hpub
    simpa [hyx] using hy

/-- It gives the claim back. -/
theorem Keeps.unclaim (h : Keeps s q r) {x : X} (hp : s.pop c = some (.unclaim x)) {spurious : Bool} :
    ∃ q r, Keeps (s.consumer c spurious (.unclaim x)) q r := by
  have hst : popStep s.mem spurious (.unclaim x) = ({ s.mem with claimed := Function.update s.mem.claimed x false },
      .running .loadHead) := rfl
  rw [consumer_running hst]
  refine ⟨q, r, h.stays (by simp [hp]) (fun y => ⟨nofun, nofun⟩) (fun y hy => Or.inr ?_) fun y hpub hy => by grind⟩
  have hyx : y ≠ x := by
    rintro rfl
    simp at hy
  refine ⟨by simpa [hyx] using hy, fun pc hc e => ?_⟩
  cases hp.symm.trans hc
  exact hyx (Option.some.inj e).symm

/-- It takes the only node. -/
theorem Keeps.casNull (h : Keeps s q r) {x : X} (hp : s.pop c = some (.casNull x)) {spurious : Bool}
    (hok : ¬Loses s (.consumer c spurious)) (hx : s.mem.head = some x) :
    ∃ q r, Keeps (s.consumer c spurious (.casNull x)) q r := by
  simp only [Loses, hp] at hok
  have hst : popStep s.mem spurious (.casNull x) = ({ s.mem with head := none }, .running (.clearTail x)) := by
    simp [popStep, hx]
  simp only [hx, true_and, not_or, not_not, not_exists] at hok
  rw [consumer_running hst]
  let t : State X C :=
    ⟨{ s.mem with head := none }, s.add, Function.update s.pop c (some (.clearTail x)), s.returned⟩
  have hleave : ∀ y, t.leaving y ↔ y = x ∨ s.leaving y := fun y =>
    (leaving_update (by simp [hp])).trans (by simp [eq_comm])
  have hrem : ∀ y, t.removed y ↔ s.removed y ∨ y = x := fun y => by
    unfold State.removed
    rw [hleave y, or_assoc, or_comm (a := y = x)]
  have hheld : ∀ y, y ≠ x → s.held y → t.held y := fun y hy => held_update fun pc hc e => by
    cases hp.symm.trans hc
    exact hy (Option.some.inj e).symm
  refine ⟨[], r, h.good.casNull hx hok hrem (fun y hy => (hleave y).mpr hy.symm) hheld, fun d y hd => ?_⟩
  have hno := h.noHelp d y
  grind

/-- It takes the first of several nodes. -/
theorem Keeps.casNext (h : Keeps s q r) (hi : Inv s moved) {x n : X} (hp : s.pop c = some (.casNext x n))
    {spurious : Bool} (hx : s.mem.head = some x) : ∃ q r, Keeps (s.consumer c spurious (.casNext x n)) q r := by
  have hst : popStep s.mem spurious (.casNext x n) = ({ s.mem with head := some n }, .returned (some x)) := by
    simp [popStep, hx]
  rw [consumer_returned hst]
  let t : State X C := ⟨{ s.mem with head := some n }, s.add, Function.update s.pop c none, s.returned ++ [x]⟩
  have hleave : ∀ y, t.leaving y ↔ s.leaving y := fun y => (leaving_update (by simp [hp])).trans (by simp)
  have hrem : ∀ y, t.removed y ↔ s.removed y ∨ y = x := fun y => by
    unfold State.removed
    rw [hleave y, List.mem_append, List.mem_singleton, or_right_comm]
  have hheld : ∀ y, y ≠ x → s.held y → t.held y := fun y hy => held_update fun pc hc e => by
    cases hp.symm.trans hc
    exact hy (Option.some.inj e).symm
  obtain ⟨q', hg⟩ := h.good.casNext hi.shape hx (hi.reads c x n (Or.inl hp)) hrem (fun y => (hleave y).mpr) hheld
  refine ⟨q', r, hg, fun d y hd => ?_⟩
  have hno := h.noHelp d y
  grind

/-- It clears `tail_` after it has taken the only node. -/
theorem Keeps.clearTail (h : Keeps s q r) {x : X} (hp : s.pop c = some (.clearTail x)) {spurious : Bool}
    (hok : ¬Loses s (.consumer c spurious)) : ∃ q r, Keeps (s.consumer c spurious (.clearTail x)) q r := by
  simp only [Loses, hp] at hok
  have hst : popStep s.mem spurious (.clearTail x) =
      ({ s.mem with tail := if s.mem.tail = some x then none else s.mem.tail }, .returned (some x)) := by
    by_cases ht : s.mem.tail = some x <;> simp [popStep, ht]
  rw [consumer_returned hst]
  have hlose : s.mem.tail = some x → s.mem.head ≠ none → ∃ y, s.add y = .setTail ∧
    Reaches s.mem.next s.mem.head y := by
    intro ht hh
    by_contra hno
    push Not at hno
    exact hok ⟨ht, hh, hno⟩
  let t : State X C := ⟨{ s.mem with tail := if s.mem.tail = some x then none else s.mem.tail }, s.add,
    Function.update s.pop c none, s.returned ++ [x]⟩
  have hleave : ∀ y, y ≠ x → (t.leaving y ↔ s.leaving y) := by
    intro y hy
    unfold State.leaving
    rw [Function.exists_update_iff s.pop fun _ v => v = some (.clearTail y)]
    constructor
    · rintro (hd | ⟨d, -, hd⟩)
      · cases hd
      · exact ⟨d, hd⟩
    · rintro ⟨d, hd⟩
      refine Or.inr ⟨d, ?_, hd⟩
      rintro rfl
      cases hp.symm.trans hd
      exact hy rfl
  have hrem : ∀ y, t.removed y ↔ s.removed y := by
    intro y
    unfold State.removed
    by_cases hy : y = x
    · subst hy
      exact ⟨fun _ => Or.inr ⟨c, hp⟩, fun _ => Or.inl (List.mem_append_right _ List.mem_cons_self)⟩
    · rw [hleave y hy, List.mem_append, List.mem_singleton, or_iff_left hy]
  have hheld : ∀ y, s.held y → t.held y := fun y => held_update fun pc hc e => by
    cases hp.symm.trans hc
    cases e
  refine ⟨q, r, h.good.clearTail (Or.inr ⟨c, hp⟩) hlose hrem (fun y hy => (hleave y hy).mpr) hheld, fun d y hd => ?_⟩
  have hno := h.noHelp d y
  grind

/-- The next access of the `PopFromHead` of `c`. -/
theorem Keeps.consumer (h : Keeps s q r) (hi : Inv s moved) {pc : PopPc X} (hp : s.pop c = some pc) {spurious : Bool}
    (hok : ¬Loses s (.consumer c spurious)) : ∃ q r, Keeps (s.consumer c spurious pc) q r := by
  cases pc with
  | loadHead =>
    cases hh : s.mem.head with
    | none =>
      have hst : popStep s.mem spurious .loadHead = (s.mem, .running .loadTail) := by simp [popStep, hh]
      exact h.quiet hp hst (by rintro _ ⟨⟩) (by simp) (by simp)
    | some x =>
      have hst : popStep s.mem spurious .loadHead = (s.mem, .running (.claim x)) := by simp [popStep, hh]
      exact h.quiet hp hst (by rintro _ ⟨⟩) (by simp) (by simp)
  | loadTail =>
    by_cases ht : s.mem.tail = none
    · have hst : popStep s.mem spurious .loadTail = (s.mem, .returned none) := by simp [popStep, ht]
      rw [consumer_returned hst]
      have hs : Keeps { s with mem := s.mem, pop := Function.update s.pop c none } q r := by
        refine h.stays (by simp [hp]) (by simp) (fun y hy => Or.inr ⟨hy, fun pc hc => ?_⟩) fun _ _ => id
        cases hp.symm.trans hc
        rintro ⟨⟩
      exact ⟨q, r, by simpa using hs⟩
    · have hst : popStep s.mem spurious .loadTail = (s.mem, .running .loadHead) := by simp [popStep, ht]
      exact h.quiet hp hst (by rintro _ ⟨⟩) (by simp) (by simp)
  | claim x => exact h.claim hi hp
  | unclaim x => exact h.unclaim hp
  | loadNext x =>
    cases hn : s.mem.next x with
    | none =>
      have hst : popStep s.mem spurious (.loadNext x) = (s.mem, .running (.casNull x)) := by simp [popStep, hn]
      exact h.quiet hp hst (fun _ => id) (by simp) (by simp)
    | some n =>
      have hst : popStep s.mem spurious (.loadNext x) = (s.mem, .running (.casNext x n)) := by simp [popStep, hn]
      exact h.quiet hp hst (fun _ => id) (by simp) (by simp)
  | casNull x =>
    by_cases hx : s.mem.head = some x
    · exact h.casNull hp hok hx
    · have hst : popStep s.mem spurious (.casNull x) = (s.mem, .running (.unclaim x)) := by simp [popStep, hx]
      exact h.quiet hp hst (fun _ => id) (by simp) (by simp)
  | casNext x n =>
    by_cases hx : s.mem.head = some x
    · exact h.casNext hi hp hx
    · have hst : popStep s.mem spurious (.casNext x n) = (s.mem, .running (.unclaim x)) := by simp [popStep, hx]
      exact h.quiet hp hst (fun _ => id) (by simp) (by simp)
  | clearTail x => exact h.clearTail hp hok
  | helpNext x =>
    cases hn : s.mem.next x with
    | none =>
      have hst : popStep s.mem spurious (.helpNext x) = (s.mem, .running (.helpTail x)) := by simp [popStep, hn]
      exact h.quiet hp hst (by rintro _ ⟨⟩) (by simp) (by simp)
    | some n =>
      have hst : popStep s.mem spurious (.helpNext x) = (s.mem, .running (.helpCas x n)) := by simp [popStep, hn]
      exact h.quiet hp hst (by rintro _ ⟨⟩) (by simp) (by simp)
  | helpCas x n =>
    simp only [Loses, hp] at hok
    have hst : popStep s.mem spurious (.helpCas x n) = (s.mem, .running .loadHead) := by simp only [popStep, if_neg hok]
    exact h.quiet hp hst (by rintro _ ⟨⟩) (by simp) (by simp)
  | helpTail x =>
    by_cases ht : s.mem.tail = some x
    · have hst : popStep s.mem spurious (.helpTail x) = (s.mem, .running (.helpNull x)) := by simp [popStep, ht]
      exact h.quiet hp hst (by rintro _ ⟨⟩) (by simp) (by simp)
    · have hst : popStep s.mem spurious (.helpTail x) = (s.mem, .running .loadHead) := by simp [popStep, ht]
      exact h.quiet hp hst (by rintro _ ⟨⟩) (by simp) (by simp)
  | helpNull x =>
    simp only [Loses, hp] at hok
    have hst : popStep s.mem spurious (.helpNull x) = (s.mem, .running .loadHead) := by simp only [popStep, if_neg hok]
    exact h.quiet hp hst (by rintro _ ⟨⟩) (by simp) (by simp)
  | helpClear x => exact absurd hp (h.noHelp c x)

/-- **What one step preserves.** -/
theorem keeps_step {l : Label X C} (hi : ∃ moved, Inv s moved) (h : ∃ q r, Keeps s q r) (hok : ¬Loses s l)
    (hst : step s l = some s') : ∃ q r, Keeps s' q r := by
  obtain ⟨moved, hi⟩ := hi
  obtain ⟨q, r, h⟩ := h
  have hcall : ∀ (x : X) (pc : AddPc X), s.add x = .idle → pc.published = false →
      Keeps { s with add := Function.update s.add x pc } q r := by
    intro x pc hx hpc
    have hearly : (s.add x).published = false := by simp [hx, AddPc.published]
    have hg := h.good.prepare (v := s.mem.next x) hearly hpc
    rw [Function.update_eq_self] at hg
    exact ⟨hg, h.noHelp⟩
  cases l with
  | addToTail x =>
    obtain ⟨hx, hst⟩ := Option.ite_none_right_eq_some.mp hst
    cases hst
    exact ⟨q, r, hcall x .clearNext hx rfl⟩
  | addToHead x =>
    obtain ⟨hx, hst⟩ := Option.ite_none_right_eq_some.mp hst
    cases hst
    exact ⟨q, r, hcall x .loadHead hx rfl⟩
  | producer x =>
    obtain ⟨-, hst⟩ := Option.ite_none_right_eq_some.mp hst
    cases hst
    exact h.producer hi hok
  | popFromHead c =>
    obtain ⟨hc, hst⟩ := Option.ite_none_right_eq_some.mp hst
    cases hst
    exact ⟨q, r, h.stays (by simp [hc]) (fun _ => ⟨nofun, nofun⟩) (fun y hy => Or.inr ⟨hy, by simp [hc]⟩) fun _ _ => id⟩
  | consumer c spurious =>
    obtain ⟨pc, hp, rfl⟩ := Option.map_eq_some_iff.mp hst
    exact h.consumer hi hp hok

theorem keeps_reachable (hs : Reach (system X C) (fun s l => ¬Loses s l) s) : ∃ q r, Keeps s q r := by
  refine hs.invariant_of (J := fun s => ∃ moved, Inv s moved) (I := fun s => ∃ q r, Keeps s q r)
    (fun _ hr => inv_reachable hr.reachable) ?_ fun s t l hi h hok hst => keeps_step hi h hok hst
  rintro s rfl
  refine ⟨[], [], ?_, nofun⟩
  constructor <;> simp [State.empty, Mem.empty, Linked, AddPc.published]

/-! ## No operation in progress -/

/-- A `PopFromHead` running alone. -/
theorem pops_alone (hc : s.pop c = none) (hclaim : ∀ x, s.mem.head = some x → s.mem.claimed x = false)
    (htail : s.mem.head = none → s.mem.tail = none) :
    ∃ n t, exec (system X C) s (.popFromHead c :: List.replicate n (.consumer c false)) = some t ∧ t.pop c = none ∧
      t.returned = s.returned ++ s.mem.head.toList := by
  cases hh : s.mem.head with
  | none =>
    refine ⟨2, ?_⟩
    simp [List.replicate, exec, system, step, hc, State.consumer, State.popped, popStep, hh, htail hh]
  | some x =>
    have hx := hclaim x hh
    cases hn : s.mem.next x with
    | none =>
      refine ⟨5, ?_⟩
      simp [List.replicate, exec, system, step, hc, State.consumer, State.popped, popStep, hh, hx, hn]
    | some n =>
      refine ⟨4, ?_⟩
      simp [List.replicate, exec, system, step, hc, State.consumer, State.popped, popStep, hh, hx, hn]

/-- With no operation in progress, the second list is empty and the list is a path. -/
theorem Keeps.kept (h : Keeps s q r) (hq : s.quiet) : Kept s := by
  obtain ⟨hadd, hpop⟩ := hq
  have hnot : ∀ x pc, pc.running = true → s.add x ≠ pc := fun x pc hpc e => by simp [hadd x, ← e] at hpc
  have hr : r = [] := by
    cases r with
    | nil => rfl
    | cons x r => exact absurd ((h.good.start x).mpr rfl) (hnot x .setHead rfl)
  have hleave : ∀ x, ¬s.leaving x := fun x ⟨c, hc⟩ => by cases (hpop c).symm.trans hc
  have hclaim : ∀ x ∈ q, s.mem.claimed x = false := by
    intro x hx
    by_contra hc
    obtain ⟨c, pc, hp, -⟩ := h.good.claimed x (Or.inl hx) (by simpa using hc)
    cases (hpop c).symm.trans hp
  have hpath : Path s.mem.next s.mem.head q := by
    rw [h.good.headQ]
    exact h.good.front.path fun a b => hnot b (.link a) rfl
  have hends : s.mem.head = none ↔ s.mem.tail = none := by
    have ht : s.mem.tail = q.getLast? := by
      obtain ht | ⟨-, y, -, hy⟩ | ⟨y, -, hy⟩ := h.good.tailQ hr
      · exact ht
      · exact absurd hy (hnot y .setTail rfl)
      · exact absurd hy (hleave y)
    rw [h.good.headQ, ht, List.head?_eq_none_iff, List.getLast?_eq_none_iff]
  refine ⟨fun x hx => ?_, hends, fun c => pops_alone (hpop c) (fun x hx => ?_) hends.mp⟩
  · obtain hx | hx | hx := h.good.kept x (by simp [hx, AddPc.published])
    · exact Or.inr ⟨hpath.reaches_iff.mpr hx, hclaim x hx⟩
    · simp [hr] at hx
    · exact Or.inl (hx.resolve_right (hleave x))
  · exact hclaim x (List.mem_of_head? (h.good.headQ.symm.trans hx))

/-- **No item is lost** in a run with no access that loses one. -/
theorem keeps_items (hs : Reach (system X C) (fun s l => ¬Loses s l) s) (hq : s.quiet) : Kept s := by
  obtain ⟨q, r, h⟩ := keeps_reachable hs
  exact h.kept hq

end Steps

/-- Accesses that lose no item, in a run in which consumers remove the first of several items. -/
def Calm (s : State Bool Bool) : Label Bool Bool → Bool
  | .producer x => match s.add x with
    | .exchange => s.mem.tail.all fun prev => prev ∉ s.returned ∧ ∀ c, s.pop c ≠ some (.clearTail prev)
    | .setHead => s.mem.head = none
    | .setTail => x ∉ s.returned
    | _ => true
  | .consumer c _ => match s.pop c with
    | none | some .loadHead | some (.claim _) | some (.loadNext _) | some (.casNext _ _) => true
    | _ => false
  | _ => true

theorem not_loses_of_calm {s : State Bool Bool} {l : Label Bool Bool} (h : Calm s l = true) : ¬Loses s l := by
  cases l with
  | producer x =>
    simp only [Loses, Calm] at h ⊢
    cases hx : s.add x with
    | exchange =>
      simp only [hx] at h ⊢
      rintro ⟨prev, ht, hr⟩
      simp only [ht, Option.all_some, decide_eq_true_eq] at h
      exact hr.elim h.1 fun ⟨c, hc⟩ => h.2 c hc
    | setHead => simpa [hx] using h
    | setTail => simpa [hx] using fun _ : s.mem.tail = none => h
    | _ => simp
  | consumer c spurious =>
    simp only [Loses, Calm] at h ⊢
    cases hc : s.pop c with
    | none => simp
    | some pc => cases pc <;> simp_all
  | _ => exact not_false

/-- An item is added at the tail and one at the head, and the second is removed. -/
theorem keeps_items_two : ∃ s : State Bool Bool, s.returned = [true] ∧ s.mem.head = some false ∧ Kept s :=
  ⟨_, rfl, rfl, keeps_items (reach_exec (fun _ _ => not_loses_of_calm) (.init rfl) (show exec (system Bool Bool) _
    (.addToTail false :: List.replicate 4 (.producer false) ++ .addToHead true :: List.replicate 3 (.producer true) ++
      .popFromHead false :: List.replicate 4 (.consumer false false)) = some _ from rfl) (by decide))
    ⟨by decide, by decide⟩⟩

/-! ## Items lost -/

/-- `AddToTail`, when no other call acts. -/
def appended (x : Bool) : List (Label Bool Bool) := .addToTail x :: List.replicate 4 (.producer x)

/-- `n` accesses of a consumer. -/
def pop (c : Bool) (n : ℕ) : List (Label Bool Bool) := List.replicate n (.consumer c false)

/-- A consumer has claimed the only item, and is about to set `head_` to null. -/
def claimedOnly : List (Label Bool Bool) := .popFromHead false :: pop false 3

/-- For each kind of access in `Loses`, a run with it. -/
def losingRuns : List (List (Label Bool Bool)) := [
  -- a helper moves `head_` off the first of two items, which the other consumer has claimed
  [appended false, appended true, [.popFromHead false], pop false 3, [.popFromHead true], pop true 4, pop false 7,
    pop true 2].flatten,
  -- an item is linked behind the one that is taken for the only one
  [appended false, claimedOnly, appended true, pop false 2].flatten,
  -- an item is put behind one that has been removed
  [appended false, claimedOnly, pop false 1, appended true, pop false 1].flatten,
  -- `AddToTail` finds `tail_` null, and then an item of `AddToHead` in `head_`
  [[.addToTail false], List.replicate 3 (.producer false), [.addToHead true], List.replicate 4 (.producer true),
    [.producer false]].flatten,
  -- `AddToHead` puts into `tail_` an item that has been returned
  [[.addToHead false], List.replicate 3 (.producer false), claimedOnly, pop false 2, [.producer false]].flatten,
  -- `tail_` is cleared after `AddToHead` has put an item into `head_`
  [appended false, claimedOnly, pop false 1, [.addToHead true], List.replicate 4 (.producer true), pop false 1].flatten]

/-- After the run no operation is in progress, and the item is lost. -/
theorem loses {run : List (Label Bool Bool)} {s : State Bool Bool} (x : Bool)
    (hs : exec (system Bool Bool) .empty run = some s)
    (hq : s.quiet) (hx : s.add x = .done) (hret : x ∉ s.returned) (hr : ¬Reaches s.mem.next s.mem.head x) :
    ∃ s, exec (system Bool Bool) .empty run = some s ∧ s.quiet ∧ ¬Kept s :=
  ⟨s, hs, hq, fun h => (h.items x hx).elim hret fun hx => hr hx.1⟩

/-- After the run no operation is in progress, and one end of the queue is null. -/
theorem loses_end {run : List (Label Bool Bool)} {s : State Bool Bool}
    (hs : exec (system Bool Bool) .empty run = some s)
    (hq : s.quiet) (he : ¬(s.mem.head = none ↔ s.mem.tail = none)) :
    ∃ s, exec (system Bool Bool) .empty run = some s ∧ s.quiet ∧ ¬Kept s :=
  ⟨s, hs, hq, fun h => he h.ends⟩

/-- **Items lost**: after each of the runs no operation is in progress, and an item is neither returned nor in the
list, or one end of the queue is null and the other is not. -/
theorem loses_items :
    losingRuns.Forall fun run => ∃ s, exec (system Bool Bool) .empty run = some s ∧ s.quiet ∧ ¬Kept s := by
  refine ⟨?_, ?_, ?_, ?_, ?_, ?_⟩
  · exact loses false rfl ⟨by decide, by decide⟩ (by decide) (by decide) (not_reaches (by decide) (by decide))
  · exact loses true rfl ⟨by decide, by decide⟩ (by decide) (by decide) (show ¬Reaches _ none true from nofun)
  · exact loses true rfl ⟨by decide, by decide⟩ (by decide) (by decide) (show ¬Reaches _ none true from nofun)
  · exact loses false rfl ⟨by decide, by decide⟩ (by decide) (by decide) (not_reaches (by decide) (by decide))
  · exact loses_end rfl ⟨by decide, by decide⟩ (by decide)
  · exact loses_end rfl ⟨by decide, by decide⟩ (by decide)

end Cothread.Mpmc
