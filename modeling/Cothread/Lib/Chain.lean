import Mathlib.Logic.Function.Basic
import Mathlib.Data.List.Basic
import Mathlib.Data.List.Nodup
import Mathlib.Data.List.Infix

/-!
# Chains of `next` links

Items carry a `next` field, a partial function. `Path next p q`: the pointer `p` leads along `next` through the items
of `q`, in order, to null. `Linked next pend q` is the weaker statement about a list under construction: the link
between two neighbours of `q` is written, or it is still null and `pend` says that somebody is about to write it.

- `Seg next p l q`: the pointer `p` leads through the items of `l` to the pointer `q`, which splits a path
  (`Path.split`); `Reaches next p x`: the pointer `p` leads to `x`, which is to be in its path (`Path.reaches_iff`); a
  path is extended at its front (`Path.push`) and at its end (`Path.snoc`);
- a chain with no pending link is a path (`Linked.path`);
- writes outside the list (`Linked.update_of_notMem`), an item added at the end (`Linked.snoc`), the pending link
  written (`Linked.link`), and the first link (`Linked.next_head`).
-/

namespace Chain

variable {T : Type*}

/-- The pointer `p` leads along `next` through the items of the list, in order, to null. -/
def Path (next : T → Option T) : Option T → List T → Prop
  | p, [] => p = none
  | p, x :: q => p = some x ∧ Path next (next x) q

/-- The pointer `p` leads along `next` through the items of the list, in order, to the pointer `q`. -/
def Seg (next : T → Option T) : Option T → List T → Option T → Prop
  | p, [], q => p = q
  | p, x :: l, q => p = some x ∧ Seg next (next x) l q

instance Seg.decidable [DecidableEq T] (next : T → Option T) : ∀ (p : Option T) (l : List T) (q : Option T),
    Decidable (Seg next p l q)
  | p, [], q => inferInstanceAs (Decidable (p = q))
  | p, x :: l, q =>
    have : Decidable (Seg next (next x) l q) := Seg.decidable next (next x) l q
    inferInstanceAs (Decidable (p = some x ∧ Seg next (next x) l q))

/-- The pointer leads along `next` to the item. -/
inductive Reaches (next : T → Option T) : Option T → T → Prop
  | here (x : T) : Reaches next (some x) x
  | there {x y : T} : Reaches next (next y) x → Reaches next (some y) x

/-- Neighbours are linked or their link is pending; the last item links to null. -/
def Linked (next : T → Option T) (pend : T → T → Prop) : List T → Prop
  | [] => True
  | [a] => next a = none
  | a :: b :: q => (next a = some b ∨ next a = none ∧ pend a b) ∧ Linked next pend (b :: q)

variable {next : T → Option T} {pend pend' : T → T → Prop}

/-- A path starts at the head of its list. -/
theorem Path.head {p : Option T} {q : List T} (h : Path next p q) : p = q.head? := by
  cases q with
  | nil => exact h
  | cons x q => exact h.1

/-- A path depends on the links of its items only. -/
theorem Path.congr {next' : T → Option T} : ∀ {p : Option T} {q : List T}, (∀ x ∈ q, next' x = next x) →
    Path next p q → Path next' p q
  | _, [], _, h => h
  | _, x :: q, hx, h => by
    refine ⟨h.1, ?_⟩
    rw [hx x List.mem_cons_self]
    exact Path.congr (fun y hy => hx y (List.mem_cons_of_mem _ hy)) h.2

/-- A write to an item outside the path. -/
theorem Path.update_of_notMem [DecidableEq T] {x : T} {v p : Option T} {q : List T} (h : Path next p q) (hx : x ∉ q) :
    Path (Function.update next x v) p q :=
  h.congr fun _ hy => Function.update_of_ne (ne_of_mem_of_not_mem hy hx) _ _

/-- An item is put before the path. -/
theorem Path.push [DecidableEq T] {x : T} {p : Option T} {q : List T} (h : Path next p q) (hx : x ∉ q) :
    Path (Function.update next x p) (some x) (x :: q) := by
  refine ⟨rfl, ?_⟩
  rw [Function.update_self]
  exact h.update_of_notMem hx

/-- A pointer has one path. -/
theorem Path.unique : ∀ {p : Option T} {q q' : List T}, Path next p q → Path next p q' → q = q'
  | _, [], [], _, _ => rfl
  | _, [], _ :: _, h, h' => by cases h.symm.trans h'.1
  | _, _ :: _, [], h, h' => by cases h.1.symm.trans h'
  | _, x :: q, y :: q', h, h' => by
    cases h.1.symm.trans h'.1
    rw [Path.unique h.2 h'.2]

/-- A path goes on behind a segment. -/
theorem Path.split : ∀ {l q : List T} {p r : Option T}, Path next p q → Seg next p l r → ∃ t, q = l ++ t ∧ Path next r t
  | [], q, _, _, h, hs => ⟨q, rfl, hs ▸ h⟩
  | x :: l, [], _, _, h, hs => by
    cases h.symm.trans hs.1
  | x :: l, y :: q, _, _, h, hs => by
    cases h.1.symm.trans hs.1
    obtain ⟨t, rfl, ht⟩ := Path.split h.2 hs.2
    exact ⟨t, rfl, ht⟩

/-- A path splits where its list does. -/
theorem path_append : ∀ {l q : List T} {p : Option T}, Path next p (l ++ q) ↔ Seg next p l q.head? ∧ Path next q.head? q
  | [], q, _ => ⟨fun h => ⟨h.head, h.head ▸ h⟩, fun ⟨h1, h2⟩ => by rw [show _ = q.head? from h1]; exact h2⟩
  | _ :: _, _, _ => by
    rw [List.cons_append, Path, Seg, path_append, and_assoc]

/-- A segment depends on the links of its items only. -/
theorem Seg.congr {next' : T → Option T} : ∀ {l : List T} {p q : Option T}, Seg next p l q →
    (∀ x ∈ l, next' x = next x) → Seg next' p l q
  | [], _, _, h, _ => h
  | x :: l, _, _, h, hx => by
    refine ⟨h.1, ?_⟩
    rw [hx x List.mem_cons_self]
    exact Seg.congr h.2 fun y hy => hx y (List.mem_cons_of_mem x hy)

/-- A path is extended at its end: the link of the last item is written. -/
theorem Path.snoc {next' : T → Option T} {a x : T} (ha : next' a = some x) (hx : next' x = none) :
    ∀ {q : List T} {p : Option T}, q.Nodup → (∀ y ∈ q, y ≠ a → next' y = next y) → q.getLast? = some a →
      Path next p q → Path next' p (q ++ [x])
  | [], _, _, _, hl, _ => by cases hl
  | [b], _, _, _, hl, h => by
    cases hl
    exact ⟨h.1, ha, hx⟩
  | b :: c :: q, _, hnd, hy, hl, h => by
    obtain ⟨hb, hnd⟩ := List.nodup_cons.mp hnd
    have hl' : (c :: q).getLast? = some a := by simpa using hl
    have hba : b ≠ a := fun e => hb (e ▸ List.mem_of_getLast? hl')
    refine ⟨h.1, ?_⟩
    rw [hy b List.mem_cons_self hba]
    exact Path.snoc ha hx hnd (fun y hm => hy y (List.mem_cons_of_mem b hm)) hl' h.2

/-- The items that a pointer leads to are those of its path. -/
theorem Path.reaches_iff {x : T} : ∀ {q : List T} {p : Option T}, Path next p q → (Reaches next p x ↔ x ∈ q)
  | [], _, h => by
    cases h
    exact ⟨nofun, nofun⟩
  | y :: q, _, h => by
    obtain ⟨rfl, h⟩ := h
    rw [List.mem_cons, ← Path.reaches_iff h]
    constructor
    · rintro (_ | h)
      · exact Or.inl rfl
      · exact Or.inr h
    · rintro (rfl | h)
      · exact .here x
      · exact .there h

/-- An item that neither the pointer nor a link points to is not reached. -/
theorem not_reaches {p : Option T} {t : T} (hp : p ≠ some t) (hn : ∀ x, next x ≠ some t) : ¬Reaches next p t := by
  intro h
  induction h with
  | here x => exact hp rfl
  | there _ ih => exact ih (hn _) hn

theorem Linked.tail {a : T} {q : List T} (h : Linked next pend (a :: q)) : Linked next pend q := by
  cases q with
  | nil => trivial
  | cons b q => exact h.2

/-- The chain from the first item, when no link is pending. -/
theorem Linked.path (hp : ∀ a b, ¬pend a b) : ∀ {q : List T}, Linked next pend q → Path next q.head? q
  | [], _ => rfl
  | [a], h => ⟨rfl, h⟩
  | a :: b :: q, h => by
    refine ⟨rfl, ?_⟩
    rcases h.1 with h1 | ⟨_, h1⟩
    · rw [h1]; exact Linked.path hp h.2
    · exact absurd h1 (hp a b)

/-- What the first item leads to is in the chain. -/
theorem Linked.reaches_mem {p : Option T} {x : T} (h : Reaches next p x) :
    ∀ {q : List T}, Linked next pend q → p = q.head? → x ∈ q := by
  induction h with
  | here x => exact fun _ hq => List.mem_of_head? hq.symm
  | there hr ih =>
    intro q hl hq
    cases q with
    | nil => cases hq
    | cons a q =>
      cases hq
      cases q with
      | nil => exact absurd (ih (show Linked next pend [] from trivial) hl) List.not_mem_nil
      | cons b q =>
        obtain h1 | ⟨h1, -⟩ := hl.1
        · exact List.mem_cons_of_mem _ (ih hl.2 h1)
        · exact absurd (ih (show Linked next pend [] from trivial) h1) List.not_mem_nil

/-- Weakening of the pending links, and frame for the links. -/
theorem Linked.congr {next' : T → Option T} : ∀ {q : List T}, (∀ x ∈ q, next' x = next x) →
    (∀ a b, [a, b] <:+: q → pend a b → pend' a b) → Linked next pend q → Linked next' pend' q
  | [], _, _, _ => trivial
  | [a], hx, _, h => by
    simp only [Linked] at h ⊢
    rw [hx a List.mem_cons_self]; exact h
  | a :: b :: q, hx, hp, h => by
    refine ⟨?_, Linked.congr (fun x hm => hx x (List.mem_cons_of_mem _ hm))
      (fun c d hcd => hp c d (hcd.trans (List.suffix_cons _ _).isInfix)) h.2⟩
    rw [hx a List.mem_cons_self]
    exact h.1.imp_right fun h1 => ⟨h1.1, hp a b (List.prefix_append [a, b] q).isInfix h1.2⟩

/-- More links may become pending. -/
theorem Linked.mono {q : List T} (hp : ∀ a b, pend a b → pend' a b) (h : Linked next pend q) :
    Linked next pend' q := h.congr (fun _ _ => rfl) fun a b _ => hp a b

/-- A write to an item outside the list. -/
theorem Linked.update_of_notMem [DecidableEq T] {x : T} {v : Option T} {q : List T} (hx : x ∉ q)
    (h : Linked next pend q) : Linked (Function.update next x v) pend q :=
  h.congr (fun _ hy => Function.update_of_ne (ne_of_mem_of_not_mem hy hx) _ _) fun _ _ _ hp => hp

/-- The last item of a chain links to null. -/
theorem Linked.next_last : ∀ {q : List T} {a : T}, Linked next pend q → q.getLast? = some a → next a = none
  | [], _, _, h => by cases h
  | [b], a, h, hl => by
    simp only [List.getLast?_singleton, Option.some.injEq] at hl
    subst hl; exact h
  | _ :: c :: q, a, h, hl => Linked.next_last (q := c :: q) h.2 (by simpa using hl)

/-- A new first item. -/
theorem Linked.cons {x : T} {q : List T} (hx : next x = q.head?) (h : Linked next pend q) :
    Linked next pend (x :: q) := by
  cases q with
  | nil => exact hx
  | cons b q => exact ⟨Or.inl hx, h⟩

/-- A new last item, whose link from the old last item is pending. -/
theorem Linked.snoc {x : T} (hx : next x = none) : ∀ {q : List T},
    (∀ a, q.getLast? = some a → pend a x) → Linked next pend q → Linked next pend (q ++ [x])
  | [], _, _ => hx
  | [a], hp, h => ⟨Or.inr ⟨h, hp a rfl⟩, hx⟩
  | a :: b :: q, hp, h =>
    ⟨h.1, Linked.snoc (q := b :: q) hx (fun c hc => hp c (by simpa using hc)) h.2⟩

/-- In a list without duplicates an item has one successor. -/
theorem succ_unique {a b c : T} : ∀ {q : List T}, q.Nodup → [a, b] <:+: q → [a, c] <:+: q → b = c
  | [], _, h, _ => by simp at h
  | x :: q, hn, hb, hc => by
    rw [List.infix_cons_iff] at hb hc
    have hx : ∀ d, [a, d] <:+: q → a ≠ x := by
      rintro d hd rfl
      exact (List.nodup_cons.mp hn).1 (hd.subset List.mem_cons_self)
    rcases hb with hb | hb <;> rcases hc with hc | hc
    · obtain ⟨_, hb⟩ := hb
      obtain ⟨_, hc⟩ := hc
      have := hb.trans hc.symm
      simp only [List.cons_append, List.cons.injEq] at this
      exact this.2.1
    · exact absurd (List.cons_prefix_cons.mp hb).1 (hx c hc)
    · exact absurd (List.cons_prefix_cons.mp hc).1 (hx b hb)
    · exact succ_unique (List.nodup_cons.mp hn).2 hb hc

/-- The first item has no predecessor. -/
theorem not_infix_head {a b : T} {q : List T} (hn : q.Nodup) (h : q.head? = some b) : ¬[a, b] <:+: q := by
  cases q with
  | nil => cases h
  | cons x q =>
    simp only [List.head?_cons, Option.some.injEq] at h
    subst h
    intro hi
    rw [List.infix_cons_iff] at hi
    rcases hi with hi | hi
    · obtain ⟨r, hr⟩ := hi
      simp only [List.cons_append, List.nil_append, List.cons.injEq] at hr
      obtain ⟨_, rfl⟩ := hr
      simp at hn
    · exact (List.nodup_cons.mp hn).1 (hi.subset (by simp))

/-- The pending link between two neighbours is written. -/
theorem Linked.link [DecidableEq T] {a b : T} {q : List T} (hn : q.Nodup) (hab : [a, b] <:+: q)
    (hp : ∀ c d, pend c d → c ≠ a → pend' c d) (h : Linked next pend q) :
    Linked (Function.update next a (some b)) pend' q := by
  induction q with
  | nil => trivial
  | cons x q ih =>
    cases q with
    | nil =>
      have := hab.length_le
      simp at this
    | cons y q =>
      obtain ⟨hx, hn'⟩ := List.nodup_cons.mp hn
      by_cases hxa : x = a
      · subst hxa
        have hyb : y = b := succ_unique hn (List.prefix_append [x, y] q).isInfix hab
        subst hyb
        refine ⟨Or.inl (Function.update_self ..), (h.2.congr (fun z hz => ?_) fun c d hcd hc => ?_)⟩
        · exact Function.update_of_ne (ne_of_mem_of_not_mem hz hx) _ _
        · exact hp c d hc fun e => hx (e ▸ hcd.subset List.mem_cons_self)
      · refine ⟨?_, ih hn' ?_ h.2⟩
        · rw [Function.update_of_ne hxa]
          exact h.1.imp_right fun h1 => ⟨h1.1, hp x y h1.2 hxa⟩
        · rw [List.infix_cons_iff] at hab
          exact hab.resolve_left fun hpre => hxa (List.cons_prefix_cons.mp hpre).1.symm

/-- The link of the first item: to its neighbour, or still pending, or null when it is the only one. -/
theorem Linked.next_head {a : T} {q : List T} (h : Linked next pend (a :: q)) :
    next a = q.head? ∨ next a = none ∧ ∃ b, q.head? = some b ∧ pend a b := by
  cases q with
  | nil => exact Or.inl h
  | cons b q => exact h.1.imp_right fun h1 => ⟨h1.1, b, rfl, h1.2⟩

/-- Only one item, when the first is the last. -/
theorem eq_singleton {a : T} {q : List T} (hn : q.Nodup) (hh : q.head? = some a) (hl : q.getLast? = some a) :
    q = [a] := by
  match q, hn with
  | [], _ => cases hh
  | [b], _ => simpa using hh
  | b :: c :: r, hn =>
    simp only [List.head?_cons, Option.some.injEq] at hh
    subst hh
    have hm : b ∈ c :: r := List.mem_of_getLast? (by simpa using hl)
    exact absurd hm (List.nodup_cons.mp hn).1

/-- Neighbours of a list extended at the end. -/
theorem infix_snoc_iff {a b x : T} {q : List T} :
    [a, b] <:+: q ++ [x] ↔ [a, b] <:+: q ∨ q.getLast? = some a ∧ b = x := by
  have hr : [a, b] <:+: q ++ [x] ↔ [b, a] <:+: x :: q.reverse := by
    rw [← List.reverse_infix]; simp
  have hl : [b, a] <:+: q.reverse ↔ [a, b] <:+: q := by
    rw [← List.reverse_infix]; simp
  rw [hr, List.infix_cons_iff, hl]
  constructor
  · rintro (h | h)
    · obtain ⟨rfl, r, hr⟩ := List.cons_prefix_cons.mp h
      exact Or.inr ⟨by rw [← List.head?_reverse, ← hr]; rfl, rfl⟩
    · exact Or.inl h
  · rintro (h | ⟨h, rfl⟩)
    · exact Or.inr h
    · left
      refine List.cons_prefix_cons.mpr ⟨rfl, ?_⟩
      rw [← List.head?_reverse] at h
      cases hq : q.reverse with
      | nil => rw [hq] at h; cases h
      | cons y r =>
        rw [hq] at h
        simp only [List.head?_cons, Option.some.injEq] at h
        subst h
        exact List.prefix_append [y] r

end Chain
