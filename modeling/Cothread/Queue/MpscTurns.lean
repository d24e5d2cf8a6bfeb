import Cothread.Queue.Mpsc

/-!
# `MpscQueue`: accesses of several consumers that take turns

`Pop` is written for one consumer. Any number of them keep the queue a queue (`Chained`), as long as each stores
`tail_` while it still is the item that the consumer has read, with the `next` field that it has read, and exchanges
`head_` while `tail_` is that item. Every item pushes itself. The lemmas are about the accesses one by one; `claimed`
says of which items a consumer has exchanged `head_` and has not stored `tail_` yet.
-/

namespace Cothread.Mpsc

open Chain

variable {T : Type*}

/-- The list `q` is the queue from its first item to `head_`: neighbours are linked, or the second is about to link
them, and `tail_` is null, the first item, or an item that is claimed. -/
structure Chained (m : Mem T) (push : T → Option (PushPc T)) (claimed : T → Prop) (q : List T) : Prop where
  nodup : q.Nodup
  head : m.head = q.getLast?
  linked : Linked m.next (fun a x => push x = some (.link a x)) q
  clear : ∀ x y, push x = some (.clear y) → y = x ∧ x ∉ q
  exchange : ∀ x y, push x = some (.exchange y) → y = x ∧ x ∉ q ∧ m.next x = none
  link : ∀ x a y, push x = some (.link a y) → y = x ∧ [a, x] <:+: q ∧ m.next a = none
  setTail : ∀ x y, push x = some (.setTail y) → y = x ∧ q.head? = some x ∧ m.tail ≠ some x
  tail : ∀ u, m.tail = some u → q.head? = some u ∨ claimed u
  claimed : ∀ u, claimed u → u ∉ q ∧ push u = none ∧ m.next u = none

variable {m : Mem T} {push : T → Option (PushPc T)} {claimed claimed' : T → Prop} {q : List T} {a n t x : T}
  {pc : PushPc T}

/-- A new queue. -/
theorem chained_empty : Chained (Mem.empty : Mem T) (fun _ => none) (fun _ => False) [] :=
  ⟨List.nodup_nil, rfl, trivial, nofun, nofun, nofun, nofun, nofun, nofun⟩

theorem Chained.congr (h : Chained m push claimed q) (hc : ∀ u, claimed' u ↔ claimed u) : Chained m push claimed' q :=
  ⟨h.nodup, h.head, h.linked, h.clear, h.exchange, h.link, h.setTail, fun u hu => (h.tail u hu).imp_right (hc u).mpr,
    fun u hu => h.claimed u ((hc u).mp hu)⟩

/-- The `Push` of an item is the item's own. -/
theorem Chained.item (h : Chained m push claimed q) (hp : push x = some pc) : pc.item = x := by
  cases pc with
  | clear y => exact (h.clear x y hp).1
  | exchange y => exact (h.exchange x y hp).1
  | link a y => exact (h.link x a y hp).1
  | setTail y => exact (h.setTail x y hp).1

/-- The first item, when `tail_` points to it, has been pushed. -/
theorem Chained.front_pushed (h : Chained m push claimed q) (hq : q.head? = some t) (ht : m.tail = some t) :
    push t = none := by
  have hm : t ∈ q := List.mem_of_head? hq
  cases hp : push t with
  | none => rfl
  | some pc =>
    exfalso
    cases pc with
    | clear y => exact (h.clear t y hp).2 hm
    | exchange y => exact (h.exchange t y hp).2.1 hm
    | link a y => exact not_infix_head h.nodup hq (h.link t a y hp).2.1
    | setTail y => exact (h.setTail t y hp).2.2 ht

variable [DecidableEq T]

/-! ## `Push` -/

/-- What is read after a write is what has been written, or was there before. -/
theorem push_of_update {c : Option (PushPc T)} {y : T} (hy : Function.update push x c y = some pc) (hne : c ≠ some pc) :
    push y = some pc := by
  by_cases hyx : y = x
  · subst hyx
    rw [Function.update_self] at hy
    exact absurd hy hne
  · rwa [Function.update_of_ne hyx] at hy

/-- A `Push` starts. -/
theorem Chained.start (h : Chained m push claimed q) (hp : push x = none) (hx : x ∉ q) (hc : ¬claimed x) :
    Chained m (Function.update push x (some (.clear x))) claimed q := by
  refine ⟨h.nodup, h.head, h.linked.mono fun a y hy => ?_, fun y z hy => ?_,
    fun y z hy => h.exchange y z (push_of_update hy nofun), fun y a z hy => h.link y a z (push_of_update hy nofun),
    fun y z hy => h.setTail y z (push_of_update hy nofun), h.tail, fun u hu => ?_⟩
  · rwa [Function.update_of_ne]
    rintro rfl
    rw [hp] at hy
    cases hy
  · by_cases hyx : y = x
    · subst hyx
      rw [Function.update_self] at hy
      cases hy
      exact ⟨rfl, hx⟩
    · rw [Function.update_of_ne hyx] at hy
      exact h.clear y z hy
  · have hux : u ≠ x := by
      rintro rfl
      exact hc hu
    rw [Function.update_of_ne hux]
    exact h.claimed u hu

/-- `Policy::Clear(item)`. -/
theorem Chained.pushClear (h : Chained m push claimed q) (hp : push x = some (.clear x)) :
    Chained { m with next := Function.update m.next x none } (Function.update push x (some (.exchange x))) claimed
      q := by
  have hx := (h.clear x x hp).2
  have hnull : ∀ {y}, m.next y = none → Function.update m.next x none y = none := by
    intro y hy
    by_cases hyx : y = x
    · rw [hyx, Function.update_self]
    · rwa [Function.update_of_ne hyx]
  refine ⟨h.nodup, h.head, (h.linked.update_of_notMem hx).mono fun a y hy => ?_,
    fun y z hy => h.clear y z (push_of_update hy nofun), fun y z hy => ?_, fun y a z hy => ?_,
    fun y z hy => h.setTail y z (push_of_update hy nofun), h.tail, fun u hu => ?_⟩
  · rwa [Function.update_of_ne]
    rintro rfl
    rw [hp] at hy
    cases hy
  · by_cases hyx : y = x
    · subst hyx
      rw [Function.update_self] at hy
      cases hy
      exact ⟨rfl, hx, Function.update_self ..⟩
    · rw [Function.update_of_ne hyx] at hy
      obtain ⟨rfl, hyq, hnext⟩ := h.exchange y z hy
      exact ⟨rfl, hyq, hnull hnext⟩
  · obtain ⟨rfl, hi, hnext⟩ := h.link y a z (push_of_update hy nofun)
    exact ⟨rfl, hi, hnull hnext⟩
  · obtain ⟨huq, hpu, hnext⟩ := h.claimed u hu
    have hux : u ≠ x := by
      rintro rfl
      rw [hp] at hpu
      cases hpu
    exact ⟨huq, by rwa [Function.update_of_ne hux], hnull hnext⟩

/-- `prev = head_.exchange(item)`. -/
theorem Chained.pushExchange (h : Chained m push claimed q) (hp : push x = some (.exchange x)) :
    Chained (pushStep m (.exchange x)).1 (Function.update push x (pushStep m (.exchange x)).2) claimed (q ++ [x]) := by
  obtain ⟨-, hx, hnull⟩ := h.exchange x x hp
  have hother : ∀ {y : T}, y ≠ x → Function.update push x (pushStep m (.exchange x)).2 y = push y := fun hy =>
    Function.update_of_ne hy _ _
  have hself : Function.update push x (pushStep m (.exchange x)).2 x =
      some (m.head.elim (.setTail x) fun a => .link a x) := by
    rw [Function.update_self]
    cases hm : m.head <;> simp [pushStep, hm]
  have hmem : (pushStep m (.exchange x)).1 = { m with head := some x } := rfl
  have hclaimed : ∀ u, claimed u → u ≠ x := by
    rintro u hu rfl
    cases hp.symm.trans (h.claimed u hu).2.1
  rw [hmem]
  refine ⟨?_, by simp, ?_, fun y z hy => ?_, fun y z hy => ?_, fun y a z hy => ?_, fun y z hy => ?_, fun u hu => ?_,
    fun u hu => ?_⟩
  · rw [List.nodup_append]
    exact ⟨h.nodup, List.nodup_singleton x, fun a ha b hb hab => hx (List.mem_singleton.mp hb ▸ hab ▸ ha)⟩
  · refine Linked.snoc hnull (fun a ha => ?_) (h.linked.congr (fun _ _ => rfl) fun a y hay hy => ?_)
    · rw [hself, h.head, ha]
      rfl
    · rw [hother, hy]
      rintro rfl
      exact hx (hay.subset (by simp))
  · have hyx : y ≠ x := by
      rintro rfl
      rw [hself] at hy
      cases hm : m.head <;> rw [hm] at hy <;> cases hy
    rw [hother hyx] at hy
    obtain ⟨rfl, hyq⟩ := h.clear y z hy
    exact ⟨rfl, by simpa using ⟨hyq, hyx⟩⟩
  · have hyx : y ≠ x := by
      rintro rfl
      rw [hself] at hy
      cases hm : m.head <;> rw [hm] at hy <;> cases hy
    rw [hother hyx] at hy
    obtain ⟨rfl, hyq, hnext⟩ := h.exchange y z hy
    exact ⟨rfl, by simpa using ⟨hyq, hyx⟩, hnext⟩
  · by_cases hyx : y = x
    · subst hyx
      rw [hself] at hy
      cases hb : m.head with
      | some b =>
        rw [hb] at hy
        cases hy
        rw [h.head] at hb
        exact ⟨rfl, infix_snoc_iff.mpr (Or.inr ⟨hb, rfl⟩), h.linked.next_last hb⟩
      | none =>
        rw [hb] at hy
        cases hy
    · rw [hother hyx] at hy
      obtain ⟨rfl, hi, hnext⟩ := h.link y a z hy
      exact ⟨rfl, infix_snoc_iff.mpr (Or.inl hi), hnext⟩
  · by_cases hyx : y = x
    · subst hyx
      rw [hself] at hy
      cases hb : m.head with
      | some b =>
        rw [hb] at hy
        cases hy
      | none =>
        rw [hb] at hy
        cases hy
        rw [h.head, List.getLast?_eq_none_iff] at hb
        subst hb
        refine ⟨rfl, rfl, fun ht => ?_⟩
        obtain hq | hc := h.tail y ht
        · cases hq
        · exact hclaimed y hc rfl
    · rw [hother hyx] at hy
      obtain ⟨rfl, hq, ht⟩ := h.setTail y z hy
      exact ⟨rfl, by rw [List.head?_append, hq]; rfl, ht⟩
  · exact (h.tail u hu).imp_left fun hq => by rw [List.head?_append, hq]; rfl
  · obtain ⟨huq, hpu, hnext⟩ := h.claimed u hu
    exact ⟨by simpa using ⟨huq, hclaimed u hu⟩, (hother (hclaimed u hu)).trans hpu, hnext⟩

/-- `Policy::Get(prev).store(item)`. -/
theorem Chained.pushLink (h : Chained m push claimed q) (hp : push x = some (.link a x)) :
    Chained { m with next := Function.update m.next a (some x) } (Function.update push x none) claimed q := by
  obtain ⟨-, hi, -⟩ := h.link x a x hp
  have ha : a ∈ q := hi.subset (by simp)
  refine ⟨h.nodup, h.head, h.linked.link h.nodup hi fun c y hy hca => ?_, fun y z hy => ?_, fun y z hy => ?_,
    fun y c z hy => ?_, fun y z hy => h.setTail y z (push_of_update hy nofun), h.tail, fun u hu => ?_⟩
  · rwa [Function.update_of_ne]
    rintro rfl
    cases hp.symm.trans hy
    exact hca rfl
  · exact h.clear y z (push_of_update hy nofun)
  · obtain ⟨rfl, hyq, hnext⟩ := h.exchange y z (push_of_update hy nofun)
    refine ⟨rfl, hyq, (Function.update_of_ne ?_ _ _).trans hnext⟩
    rintro rfl
    exact hyq ha
  · have hpy := push_of_update hy nofun
    obtain ⟨rfl, hic, hnext⟩ := h.link y c z hpy
    refine ⟨rfl, hic, (Function.update_of_ne ?_ _ _).trans hnext⟩
    rintro rfl
    cases succ_unique h.nodup hi hic
    rw [Function.update_self] at hy
    cases hy
  · obtain ⟨huq, hpu, hnext⟩ := h.claimed u hu
    have hua : u ≠ a := by
      rintro rfl
      exact huq ha
    have hux : u ≠ x := by
      rintro rfl
      cases hp.symm.trans hpu
    exact ⟨huq, by rwa [Function.update_of_ne hux], (Function.update_of_ne hua _ _).trans hnext⟩

/-- `tail_.store(item)` of a `Push`. -/
theorem Chained.pushTail (h : Chained m push claimed q) (hp : push x = some (.setTail x)) :
    Chained { m with tail := some x } (Function.update push x none) claimed q := by
  obtain ⟨-, hq, -⟩ := h.setTail x x hp
  refine ⟨h.nodup, h.head, h.linked.mono fun a y hy => ?_, fun y z hy => h.clear y z (push_of_update hy nofun),
    fun y z hy => h.exchange y z (push_of_update hy nofun), fun y a z hy => h.link y a z (push_of_update hy nofun),
    fun y z hy => ?_, fun u hu => ?_, fun u hu => ?_⟩
  · rwa [Function.update_of_ne]
    rintro rfl
    cases hp.symm.trans hy
  · obtain ⟨rfl, hqy, -⟩ := h.setTail y z (push_of_update hy nofun)
    cases hq.symm.trans hqy
    rw [Function.update_self] at hy
    cases hy
  · cases hu
    exact Or.inl hq
  · obtain ⟨huq, hpu, hnext⟩ := h.claimed u hu
    have hux : u ≠ x := by
      rintro rfl
      cases hp.symm.trans hpu
    exact ⟨huq, by rwa [Function.update_of_ne hux], hnext⟩

/-- **An access of `Push`** puts no other item into the queue. -/
theorem Chained.pushStep (h : Chained m push claimed q) (hp : push x = some pc) :
    ∃ q', Chained (pushStep m pc).1 (Function.update push x (pushStep m pc).2) claimed q' ∧
      ∀ y ∈ q', y ∈ q ∨ y = x := by
  have hitem := h.item hp
  cases pc with
  | clear y =>
    cases hitem
    exact ⟨q, h.pushClear hp, fun _ hy => Or.inl hy⟩
  | exchange y =>
    cases hitem
    exact ⟨q ++ [y], h.pushExchange hp, fun z hz => by simpa using hz⟩
  | link a y =>
    cases hitem
    exact ⟨q, h.pushLink hp, fun _ hy => Or.inl hy⟩
  | setTail y =>
    cases hitem
    exact ⟨q, h.pushTail hp, fun _ hy => Or.inl hy⟩

/-! ## `Pop` -/

/-- **What an access of `Pop` can do**: it only looks, or it stores `tail_`, exchanges `head_` or clears the item that
it has taken out. -/
theorem popStep_cases {pc : PopPc T} {m' : Mem T} {r : PopResult T} (h : popStep m pc = (m', r)) :
    (m' = m ∧ pc.taken = [] ∧ ((∃ pc', r = .running pc' ∧ pc'.taken = []) ∨ r = .returned none)) ∨
    (∃ t x, pc = .storeTail t x ∧ m' = { m with tail := some x } ∧ r = .running (.clear t)) ∨
    (∃ t, pc = .claim t ∧ m.head = some t ∧ m' = { m with head := none } ∧ r = .running (.storeNull t)) ∨
    (∃ t, pc = .storeNull t ∧ m' = { m with tail := none } ∧ r = .running (.clear t)) ∨
    ∃ t, pc = .clear t ∧ m' = { m with next := Function.update m.next t none } ∧ r = .returned (some t) := by
  cases pc with
  | storeTail t x =>
    cases h
    exact Or.inr (Or.inl ⟨t, x, rfl, rfl, rfl⟩)
  | storeNull t =>
    cases h
    exact Or.inr (Or.inr (Or.inr (Or.inl ⟨t, rfl, rfl, rfl⟩)))
  | clear t =>
    cases h
    exact Or.inr (Or.inr (Or.inr (Or.inr ⟨t, rfl, rfl, rfl⟩)))
  | claim t =>
    simp only [popStep] at h
    split_ifs at h with hh <;> cases h
    · exact Or.inr (Or.inr (Or.inl ⟨t, rfl, hh, rfl, rfl⟩))
    · exact Or.inl ⟨rfl, rfl, Or.inl ⟨_, rfl, rfl⟩⟩
  | loadTail | loadNext t | spin t i j | recheckTail t | recheckHead t =>
    left
    simp only [popStep] at h
    repeat' split at h
    all_goals
      cases h
      refine ⟨rfl, rfl, ?_⟩
      first
        | exact Or.inr rfl
        | exact Or.inl ⟨_, rfl, rfl⟩

omit [DecidableEq T] in
/-- A consumer stores `tail_` while it is the item that it has read, with the `next` field that it has read: the item
was the first one. -/
theorem Chained.popTail (h : Chained m push claimed q) (ht : m.tail = some t) (hn : m.next t = some n) :
    t ∈ q ∧ push t = none ∧ ∃ q', Chained { m with tail := some n } push claimed q' ∧ t ∉ q' ∧ q' ⊆ q := by
  have hq : q.head? = some t := by
    refine (h.tail t ht).resolve_right fun hc => ?_
    cases hn.symm.trans (h.claimed t hc).2.2
  have hpush := h.front_pushed hq ht
  obtain ⟨q', rfl⟩ : ∃ q', q = t :: q' := by
    cases q with
    | nil => cases hq
    | cons b q' =>
      cases hq
      exact ⟨q', rfl⟩
  obtain ⟨htq, hnd⟩ := List.nodup_cons.mp h.nodup
  have hhead : q'.head? = some n := by
    obtain hnext | ⟨hnext, -⟩ := h.linked.next_head
    · exact hnext.symm.trans hn
    · cases hn.symm.trans hnext
  have hlast : (t :: q').getLast? = q'.getLast? := by
    cases q' with
    | nil => cases hhead
    | cons b r => simp
  refine ⟨List.mem_cons_self, hpush, q', ⟨hnd, h.head.trans hlast, h.linked.tail, fun y z hy => ?_, fun y z hy => ?_,
    fun y a z hy => ?_, fun y z hy => ?_, fun u hu => ?_, fun u hu => ?_⟩, htq, List.subset_cons_self t q'⟩
  · obtain ⟨rfl, hyq⟩ := h.clear y z hy
    exact ⟨rfl, fun hm => hyq (List.mem_cons_of_mem t hm)⟩
  · obtain ⟨rfl, hyq, hnext⟩ := h.exchange y z hy
    exact ⟨rfl, fun hm => hyq (List.mem_cons_of_mem t hm), hnext⟩
  · obtain ⟨rfl, hi, hnext⟩ := h.link y a z hy
    refine ⟨rfl, (List.infix_cons_iff.mp hi).resolve_left fun hpre => ?_, hnext⟩
    cases (List.cons_prefix_cons.mp hpre).1
    cases hn.symm.trans hnext
  · obtain ⟨-, hy', hty⟩ := h.setTail y z hy
    cases hy'
    exact absurd ht hty
  · cases hu
    exact Or.inl hhead
  · obtain ⟨huq, hrest⟩ := h.claimed u hu
    exact ⟨fun hm => huq (List.mem_cons_of_mem t hm), hrest⟩

omit [DecidableEq T] in
/-- A consumer exchanges `head_` while `tail_` is the item that it has read: the item was the only one. -/
theorem Chained.popClaim (h : Chained m push claimed q) (hh : m.head = some t) (ht : m.tail = some t) :
    t ∈ q ∧ push t = none ∧ Chained { m with head := none } push (fun u => u = t ∨ claimed u) [] := by
  have hlast : q.getLast? = some t := h.head.symm.trans hh
  have hq : q.head? = some t :=
    (h.tail t ht).resolve_right fun hc => (h.claimed t hc).1 (List.mem_of_getLast? hlast)
  have hpush := h.front_pushed hq ht
  obtain rfl := eq_singleton h.nodup hq hlast
  refine ⟨List.mem_singleton_self t, hpush, List.nodup_nil, rfl, trivial, fun y z hy => ?_, fun y z hy => ?_,
    fun y a z hy => ?_, fun y z hy => ?_, fun u hu => Or.inr ?_, fun u hu => ⟨List.not_mem_nil, ?_⟩⟩
  · exact ⟨(h.clear y z hy).1, List.not_mem_nil⟩
  · obtain ⟨rfl, -, hnext⟩ := h.exchange y z hy
    exact ⟨rfl, List.not_mem_nil, hnext⟩
  · have := (h.link y a z hy).2.1.length_le
    simp at this
  · obtain ⟨-, hy', hty⟩ := h.setTail y z hy
    cases hy'
    exact absurd ht hty
  · exact Or.inl (Option.some.inj (hu.symm.trans ht))
  · obtain rfl | hu := hu
    · exact ⟨hpush, h.linked⟩
    · exact (h.claimed u hu).2

omit [DecidableEq T] in
/-- `tail_.store(nullptr)` by a consumer that has claimed an item. -/
theorem Chained.popNull (h : Chained m push claimed q) (hc : ∀ u, claimed' u → claimed u) :
    Chained { m with tail := none } push claimed' q :=
  ⟨h.nodup, h.head, h.linked, h.clear, h.exchange, h.link,
    fun y z hy => ⟨(h.setTail y z hy).1, (h.setTail y z hy).2.1, nofun⟩, nofun, fun u hu => h.claimed u (hc u hu)⟩

/-- `Policy::Clear(t)` of an item that a consumer has taken out. -/
theorem Chained.popClear (h : Chained m push claimed q) (ht : t ∉ q) :
    Chained { m with next := Function.update m.next t none } push claimed q := by
  have hnull : ∀ {y}, m.next y = none → Function.update m.next t none y = none := by
    intro y hy
    by_cases hyt : y = t
    · rw [hyt, Function.update_self]
    · rwa [Function.update_of_ne hyt]
  refine ⟨h.nodup, h.head, h.linked.update_of_notMem ht, h.clear, fun y z hy => ?_, fun y a z hy => ?_, h.setTail,
    h.tail, fun u hu => ?_⟩
  · obtain ⟨rfl, hyq, hnext⟩ := h.exchange y z hy
    exact ⟨rfl, hyq, hnull hnext⟩
  · obtain ⟨rfl, hi, hnext⟩ := h.link y a z hy
    exact ⟨rfl, hi, hnull hnext⟩
  · obtain ⟨huq, hpu, hnext⟩ := h.claimed u hu
    exact ⟨huq, hpu, hnull hnext⟩

end Cothread.Mpsc
