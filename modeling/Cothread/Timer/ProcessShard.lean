import Cothread.Timer.TimerThread

/-!
# `ProcessShard` of one shard

A call of `ProcessShard` whose callbacks do not touch the shard is a loop over the heap. It ends after one turn for each
due entry and one more; it fires the due entries that are not cancelled, in the order of their deadlines, releases all
due entries, and leaves a heap of the others (`processShard_eq`). A thread that goes on alone in the interleaved model
comes to the same end (`processShard_alone`).
-/

namespace Cothread.Timer

open Run BinaryHeap

variable {E C : Type*}

/-- The shard in the course of a call, and what the call has done. -/
structure Progress (E : Type*) where
  heap : List E
  nextDeadline : Int
  fired : List E  -- the entries whose callbacks have run, in order
  released : List E  -- the entries that were given to the pool

section Code

variable (entry : E → Entry C) (now : Int)

/-- The deadline of the first entry. -/
def frontDeadline : List E → Int
  | [] => INT64_MAX
  | e :: _ => (entry e).deadline

/-- Once round the loop; `none` when it ends. -/
def turn (r : Progress E) : Option (Progress E) :=
  match r.heap with
  | [] => none
  | e :: _ =>
    let heap := pop (fun e => (entry e).deadline) r.heap
    if (entry e).deadline ≤ now then
      if (entry e).cancelled then some { r with heap := heap, released := r.released ++ [e] }
      else some ⟨heap, frontDeadline entry heap, r.fired ++ [e], r.released ++ [e]⟩
    else none

/-- The loop; `none` when it has not ended after `fuel` turns. -/
def processTurns : ℕ → Progress E → Option (Progress E)
  | 0, _ => none
  | fuel + 1, r => match turn entry now r with
    | none => some r
    | some r' => processTurns fuel r'

/-- What follows the loop: `next_deadline` of a heap that is not empty. -/
def Progress.final (r : Progress E) : Progress E :=
  match r.heap with
  | [] => r
  | e :: _ => { r with nextDeadline := (entry e).deadline }

/-- `ProcessShard`, with `now_us = now`. -/
def processShard (shard : Shard E) : Option (Progress E) :=
  (processTurns entry now (shard.heap.length + 1) ⟨shard.heap, shard.nextDeadline, [], []⟩).map fun r => r.final entry

end Code

/-! ## The loop -/

section Loop

variable {entry : E → Entry C} {now : Int} {r : Progress E} {e : E} {h l : List E}

/-- `deadline_us <= now_us`. -/
def due (entry : E → Entry C) (now : Int) (e : E) : Bool := (entry e).deadline ≤ now

/-- The callback of the entry is to run. -/
def live (entry : E → Entry C) (now : Int) (e : E) : Bool := due entry now e && !(entry e).cancelled

/-- The heap is a min-heap on the deadlines. -/
abbrev MinHeap (entry : E → Entry C) (h : List E) : Prop := Ordered (fun e => (entry e).deadline) h

/-- What the loop makes of a heap `h`: it fires the entries `fired`, releases the entries `released` and leaves the
heap `rest`. -/
structure Split (entry : E → Entry C) (now : Int) (h fired released rest : List E) : Prop where
  fired_perm : fired.Perm (h.filter (live entry now))
  sorted : fired.Pairwise fun a b => (entry a).deadline ≤ (entry b).deadline
  released_perm : released.Perm (h.filter (due entry now))
  rest_perm : rest.Perm (h.filter fun e => !due entry now e)
  ordered : MinHeap entry rest

/-- The loop ends at a heap without due entries. -/
theorem Split.stop (ho : MinHeap entry h) (hnone : ∀ e ∈ h, due entry now e = false) :
    Split entry now h [] [] h := by
  constructor
  case fired_perm =>
    refine .of_eq (List.filter_eq_nil_iff.mpr fun e he => ?_).symm
    rw [live, hnone e he]
    exact Bool.false_ne_true
  case sorted => exact .nil
  case released_perm =>
    refine .of_eq (List.filter_eq_nil_iff.mpr fun e he => ?_).symm
    rw [hnone e he]
    exact Bool.false_ne_true
  case rest_perm =>
    refine .of_eq (List.filter_eq_self.mpr fun e he => ?_).symm
    rw [hnone e he]
    rfl
  case ordered => exact ho

section Turn

variable {h' fired released rest : List E}

/-- A due entry that is cancelled is released. -/
theorem Split.reap (hs : Split entry now h' fired released rest) (hp : h'.Perm h) (hdue : due entry now e = true)
    (hc : (entry e).cancelled = true) : Split entry now (e :: h) fired (e :: released) rest := by
  have hlive : ¬live entry now e = true := by
    rw [live, hc, Bool.not_true, Bool.and_false]
    exact Bool.false_ne_true
  constructor
  case fired_perm =>
    rw [List.filter_cons_of_neg hlive]
    exact hs.fired_perm.trans (hp.filter _)
  case sorted => exact hs.sorted
  case released_perm =>
    rw [List.filter_cons_of_pos hdue]
    exact (hs.released_perm.trans (hp.filter _)).cons e
  case rest_perm =>
    rw [List.filter_cons_of_neg (by rw [hdue]; exact Bool.false_ne_true)]
    exact hs.rest_perm.trans (hp.filter _)
  case ordered => exact hs.ordered

/-- A due entry with the least deadline is fired and released. -/
theorem Split.fire (hs : Split entry now h' fired released rest) (hp : h'.Perm h) (hdue : due entry now e = true)
    (hc : (entry e).cancelled = false) (hmin : ∀ d ∈ h, (entry e).deadline ≤ (entry d).deadline) :
    Split entry now (e :: h) (e :: fired) (e :: released) rest := by
  have hlive : live entry now e = true := by rw [live, hdue, hc, Bool.not_false, Bool.and_true]
  constructor
  case fired_perm =>
    rw [List.filter_cons_of_pos hlive]
    exact (hs.fired_perm.trans (hp.filter _)).cons e
  case sorted =>
    refine List.pairwise_cons.mpr ⟨fun d hd => hmin d ?_, hs.sorted⟩
    exact hp.mem_iff.mp (List.mem_of_mem_filter (hs.fired_perm.mem_iff.mp hd))
  case released_perm =>
    rw [List.filter_cons_of_pos hdue]
    exact (hs.released_perm.trans (hp.filter _)).cons e
  case rest_perm =>
    rw [List.filter_cons_of_neg (by rw [hdue]; exact Bool.false_ne_true)]
    exact hs.rest_perm.trans (hp.filter _)
  case ordered => exact hs.ordered

end Turn

/-! ### Turns -/

theorem turn_nil (h : r.heap = []) : turn entry now r = none := by rw [turn, h]

/-- The first entry is not due. -/
theorem turn_early (h : r.heap = e :: l) (hdue : due entry now e = false) : turn entry now r = none := by
  have hlate : ¬(entry e).deadline ≤ now := of_decide_eq_false hdue
  simp only [turn, h, if_neg hlate]

/-- The first entry is due and cancelled. -/
theorem turn_reap (h : r.heap = e :: l) (hdue : due entry now e = true) (hc : (entry e).cancelled = true) :
    turn entry now r = some { r with
      heap := pop (fun e => (entry e).deadline) (e :: l)
      released := r.released ++ [e] } := by
  have hle : (entry e).deadline ≤ now := of_decide_eq_true hdue
  simp only [turn, h, if_pos hle, hc, if_true]

/-- The first entry is due, and its callback runs. -/
theorem turn_fire (h : r.heap = e :: l) (hdue : due entry now e = true) (hc : (entry e).cancelled = false) :
    turn entry now r = some ⟨pop (fun e => (entry e).deadline) (e :: l),
      frontDeadline entry (pop (fun e => (entry e).deadline) (e :: l)), r.fired ++ [e], r.released ++ [e]⟩ := by
  have hle : (entry e).deadline ≤ now := of_decide_eq_true hdue
  simp only [turn, h, if_pos hle, hc, Bool.false_eq_true, if_false]

/-- **The loop**, with fuel for all entries of the heap and one turn more. -/
theorem processTurns_eq (now : Int) {fuel : ℕ} (hfuel : r.heap.length < fuel) (ho : MinHeap entry r.heap) :
    ∃ nextDeadline fired released rest, Split entry now r.heap fired released rest ∧
      processTurns entry now fuel r = some ⟨rest, nextDeadline, r.fired ++ fired, r.released ++ released⟩ := by
  induction fuel generalizing r with
  | zero => exact absurd hfuel (Nat.not_lt_zero _)
  | succ fuel ih =>
    cases hheap : r.heap with
    | nil =>
      refine ⟨r.nextDeadline, [], [], [], .stop ordered_nil nofun, ?_⟩
      rw [processTurns, turn_nil hheap, List.append_nil, List.append_nil, ← hheap]
    | cons e h =>
      rw [hheap] at hfuel ho
      have hperm : (pop (fun e => (entry e).deadline) (e :: h)).Perm h := pop_perm e h
      have hmin : ∀ d ∈ e :: h, (entry e).deadline ≤ (entry d).deadline := fun d hd => ho.head_le rfl hd
      have hlen : (pop (fun e => (entry e).deadline) (e :: h)).length < fuel := by
        rw [hperm.length_eq]
        exact Nat.lt_of_succ_lt_succ hfuel
      cases hdue : due entry now e with
      | false =>
        -- no entry has a smaller deadline than the first one
        have hnone : ∀ d ∈ e :: h, due entry now d = false := fun d hd =>
          decide_eq_false fun hle => of_decide_eq_false hdue ((hmin d hd).trans hle)
        refine ⟨r.nextDeadline, [], [], e :: h, .stop ho hnone, ?_⟩
        rw [processTurns, turn_early hheap hdue, List.append_nil, List.append_nil, ← hheap]
      | true =>
        cases hc : (entry e).cancelled with
        | true =>
          obtain ⟨nd, f, l, rest, hsplit, hloop⟩ := ih (r := { r with
            heap := pop (fun e => (entry e).deadline) (e :: h)
            released := r.released ++ [e] }) hlen (pop_ordered ho)
          refine ⟨nd, f, e :: l, rest, hsplit.reap hperm hdue hc, ?_⟩
          rw [processTurns, turn_reap hheap hdue hc, List.append_cons r.released e l]
          exact hloop
        | false =>
          have hmin' : ∀ d ∈ h, (entry e).deadline ≤ (entry d).deadline := fun d hd =>
            hmin d (List.mem_cons_of_mem e hd)
          obtain ⟨nd, f, l, rest, hsplit, hloop⟩ := ih (r := ⟨pop (fun e => (entry e).deadline) (e :: h),
            frontDeadline entry (pop (fun e => (entry e).deadline) (e :: h)), r.fired ++ [e], r.released ++ [e]⟩)
            hlen (pop_ordered ho)
          refine ⟨nd, e :: f, e :: l, rest, hsplit.fire hperm hdue hc hmin', ?_⟩
          rw [processTurns, turn_fire hheap hdue hc, List.append_cons r.fired e f, List.append_cons r.released e l]
          exact hloop

/-- **`ProcessShard`** of a min-heap returns: it runs the callbacks of the due entries that are not cancelled, each
once and in the order of the deadlines, releases the due entries, and leaves a min-heap of the others, whose least
deadline is `next_deadline`. -/
theorem processShard_eq (entry : E → Entry C) (now : Int) (shard : Shard E) (ho : MinHeap entry shard.heap) :
    ∃ r, processShard entry now shard = some r ∧ Split entry now shard.heap r.fired r.released r.heap ∧
      (r.heap ≠ [] → (∃ e ∈ r.heap, (entry e).deadline = r.nextDeadline) ∧
        ∀ e ∈ r.heap, r.nextDeadline ≤ (entry e).deadline) := by
  obtain ⟨nextDeadline, fired, released, rest, hsplit, hloop⟩ :=
    processTurns_eq now (r := ⟨shard.heap, shard.nextDeadline, [], []⟩) (Nat.lt_succ_self _) ho
  rw [processShard, hloop]
  cases rest with
  | nil => exact ⟨_, rfl, hsplit, fun hne => absurd rfl hne⟩
  | cons e rest =>
    refine ⟨_, rfl, hsplit, fun _ => ⟨⟨e, List.mem_cons_self, rfl⟩, fun d hd => ?_⟩⟩
    exact hsplit.ordered.head_le rfl hd

/-- Timers for 5, 7 and 6, and a cancelled one for 4. -/
def fourEntries (e : ℕ) : Entry ℕ := ⟨e, [5, 7, 6, 4].getD e 0, e, e == 3⟩

def fourTimers : Shard ℕ :=
  ⟨false, [0, 1, 2, 3].foldl (fun h e => push (fun e => (fourEntries e).deadline) h e) [], 4⟩

theorem processShard_four : ∃ r, processShard fourEntries 6 fourTimers = some r ∧ r.fired.Perm [0, 2] ∧
    r.released.Perm [3, 0, 2] ∧ r.heap.Perm [1] := by
  have hordered : MinHeap fourEntries fourTimers.heap :=
    push_ordered (push_ordered (push_ordered (push_ordered ordered_nil 0) 1) 2) 3
  obtain ⟨r, hr, hsplit, -⟩ := processShard_eq fourEntries 6 fourTimers hordered
  have hlive : fourTimers.heap.filter (live fourEntries 6) = [0, 2] := by decide +kernel
  have hdue : fourTimers.heap.filter (due fourEntries 6) = [3, 0, 2] := by decide +kernel
  have hrest : (fourTimers.heap.filter fun e => !due fourEntries 6 e) = [1] := by decide +kernel
  exact ⟨r, hr, hlive ▸ hsplit.fired_perm, hdue ▸ hsplit.released_perm, hrest ▸ hsplit.rest_perm⟩

end Loop

/-! ## The call in the interleaved model -/

section Alone

variable {P : Type*} [DecidableEq P] [DecidableEq E] {n : ℕ} {s : State P E C} {p : P} {i now : Int}
  {outer : Option (Int × Int)} {pc pc' : Option (Pc E C)} {b b' : Bool} {r r' : Progress E} {e : E}

/-- The state in the course of a call by the thread `p`, from a state `s` on. -/
def State.during (s : State P E C) (p : P) (i : Int) (pc : Option (Pc E C)) (locked : Bool) (r : Progress E) :
    State P E C :=
  { s with
    shard := Function.update s.shard i ⟨locked, r.heap, r.nextDeadline⟩
    free := fun e => decide (e ∈ r.released) || s.free e
    started := fun id =>
      ((r.fired.filter fun e => (s.entry e).id = id).map fun e => ((s.entry e).callback, s.clock)).reverse ++
        s.started id
    pc := Function.update s.pc p pc }

theorem during_setShard (shard : Shard E) : (s.during p i pc b r).setShard i shard =
    s.during p i pc shard.locked { r with heap := shard.heap, nextDeadline := shard.nextDeadline } := by
  simp only [State.during, State.setShard, Function.update_idem]

theorem during_goto : (s.during p i pc b r).goto p pc' = s.during p i pc' b r := by
  simp only [State.during, State.goto, Function.update_idem]

theorem during_release :
    (s.during p i pc b r).release e = s.during p i pc b { r with released := r.released ++ [e] } := by
  have hfree : Function.update (fun d => decide (d ∈ r.released) || s.free d) e true =
      fun d => decide (d ∈ r.released ++ [e]) || s.free d := by
    funext d
    by_cases hd : d = e
    · subst hd
      rw [Function.update_self, decide_eq_true (List.mem_append_right _ List.mem_cons_self), Bool.true_or]
    · rw [Function.update_of_ne hd]
      simp [hd]
  simp only [State.during, State.release, hfree]

theorem during_call (s : State P E C) (p : P) (i : Int) (pc : Option (Pc E C)) (b : Bool) (r : Progress E) (e : E) :
    { s.during p i pc b r with
      started := Function.update (s.during p i pc b r).started (s.entry e).id
        (((s.entry e).callback, s.clock) :: (s.during p i pc b r).started (s.entry e).id) } =
    s.during p i pc b { r with fired := r.fired ++ [e] } := by
  have hstarted : Function.update (s.during p i pc b r).started (s.entry e).id
      (((s.entry e).callback, s.clock) :: (s.during p i pc b r).started (s.entry e).id) =
      (s.during p i pc b { r with fired := r.fired ++ [e] }).started := by
    funext id
    by_cases hid : id = (s.entry e).id
    · subst hid
      rw [Function.update_self]
      simp [State.during]
    · rw [Function.update_of_ne hid]
      simp [State.during, Ne.symm hid]
  rw [hstarted]
  rfl

theorem during_start : (s.setShard i { s.shard i with locked := true }).goto p pc =
    s.during p i pc true ⟨(s.shard i).heap, (s.shard i).nextDeadline, [], []⟩ := by
  simp [State.during, State.setShard, State.goto]

/-- The thread goes on. -/
theorem thread_during (c : Pc E C) : (timers n P E C).step (s.during p i (some c) b r) (.thread p) =
    (s.during p i (some c) b r).access n p c := by
  show ((s.during p i (some c) b r).pc p).bind _ = _
  rw [show (s.during p i (some c) b r).pc p = some c from Function.update_self ..]
  rfl

theorem shard_during : (s.during p i pc b r).shard i = ⟨b, r.heap, r.nextDeadline⟩ := Function.update_self ..

omit [DecidableEq P] [DecidableEq E] in
theorem front_eq (s : State P E C) (h : List E) : s.front h = frontDeadline s.entry h := by
  cases h <;> rfl

/-- The place in the loop. -/
abbrev inLoop (i : Int) (outer : Option (Int × Int)) (now : Int) : Option (Pc E C) :=
  some (.process i outer (.loop now))

/-- The callback runs. -/
theorem step_call : (timers n P E C).step
      (s.during p i (some (.process i outer (.call now (s.entry e).id (s.entry e).callback))) b r) (.thread p) =
    some (s.during p i (some (.process i outer (.lock now))) b { r with fired := r.fired ++ [e] }) := by
  have hcall := during_call s p i (some (.process i outer (.call now (s.entry e).id (s.entry e).callback))) b r e
  have hgoto := congrArg (fun t => State.goto t p (some (.process i outer (.lock now)))) hcall
  rw [during_goto] at hgoto
  rw [thread_during]
  exact congrArg some hgoto

/-- The mutex is taken again. -/
theorem step_lock : (timers n P E C).step (s.during p i (some (.process i outer (.lock now))) false r) (.thread p) =
    some (s.during p i (inLoop i outer now) true r) := by
  rw [thread_during]
  simp only [State.access, State.processStep, shard_during, Bool.false_eq_true, if_false, during_setShard, during_goto]

/-- **The end of the loop**. -/
theorem exec_end (hturn : turn s.entry now r = none) :
    (timers n P E C).step (s.during p i (inLoop i outer now) true r) (.thread p) =
      some (s.during p i (outer.map fun o => .mainReload i o.1 o.2) false (r.final s.entry)) := by
  rw [thread_during]
  show some (State.processLoop _ p i outer now) = _
  unfold State.processLoop
  rw [shard_during]
  cases hheap : r.heap with
  | nil =>
    have hfinal : r.final s.entry = r := by rw [Progress.final, hheap]
    simp only [State.processed, during_setShard, during_goto, hfinal, ← hheap]
  | cons e h =>
    have hlate : ¬(s.entry e).deadline ≤ now := by
      intro hle
      simp only [turn, hheap, if_pos hle] at hturn
      split at hturn <;> cases hturn
    have hfinal : r.final s.entry = { r with nextDeadline := (s.entry e).deadline } := by
      rw [Progress.final, hheap]
    have hdeadline : (s.during p i (inLoop i outer now) true r).deadline e = (s.entry e).deadline := rfl
    simp only [hdeadline, if_neg hlate, State.processed, during_setShard, during_goto, hfinal, ← hheap]

/-- **Once round the loop**. -/
theorem exec_turn (n : ℕ) (p : P) (i : Int) (outer : Option (Int × Int)) (hturn : turn s.entry now r = some r') :
    ∃ k, exec (timers n P E C) (s.during p i (inLoop i outer now) true r) (List.replicate k (.thread p)) =
      some (s.during p i (inLoop i outer now) true r') := by
  cases hheap : r.heap with
  | nil =>
    rw [turn_nil hheap] at hturn
    cases hturn
  | cons e h =>
    cases hdue : due s.entry now e with
    | false =>
      rw [turn_early hheap hdue] at hturn
      cases hturn
    | true =>
      have hle : (s.during p i (inLoop i outer now) true r).deadline e ≤ now := of_decide_eq_true hdue
      have hloop : (timers n P E C).step (s.during p i (inLoop i outer now) true r) (.thread p) =
          some ((s.during p i (inLoop i outer now) true r).processLoop p i outer now) := thread_during _
      cases hc : (s.entry e).cancelled with
      | true =>
        rw [turn_reap hheap hdue hc] at hturn
        cases hturn
        refine ⟨1, ?_⟩
        rw [List.replicate_one, exec_cons, hloop]
        have hc' : ((s.during p i (inLoop i outer now) true r).entry e).cancelled = true := hc
        simp only [State.processLoop, shard_during, hheap, if_pos hle, hc', if_true, during_setShard, during_release]
        rfl
      | false =>
        rw [turn_fire hheap hdue hc] at hturn
        cases hturn
        refine ⟨3, ?_⟩
        have hc' : ((s.during p i (inLoop i outer now) true r).entry e).cancelled = false := hc
        -- the entry is taken off the heap; its callback runs; the mutex is taken again
        have hfire : (s.during p i (inLoop i outer now) true r).processLoop p i outer now =
            s.during p i (some (.process i outer (.call now (s.entry e).id (s.entry e).callback))) false
              { r with
                heap := pop (fun e => (s.entry e).deadline) (e :: h)
                nextDeadline := frontDeadline s.entry (pop (fun e => (s.entry e).deadline) (e :: h))
                released := r.released ++ [e] } := by
          simp only [State.processLoop, shard_during, hheap, if_pos hle, hc', Bool.false_eq_true, if_false,
            during_setShard, during_release, during_goto, front_eq]
          rfl
        rw [List.replicate_succ, exec_cons, hloop, hfire, Option.bind_some, List.replicate_succ, exec_cons, step_call,
          Option.bind_some, List.replicate_one, exec_cons, step_lock]
        rfl

/-- The loop to its end. -/
theorem exec_turns (n : ℕ) (p : P) (i : Int) (outer : Option (Int × Int)) {fuel : ℕ}
    (h : processTurns s.entry now fuel r = some r') :
    ∃ k, exec (timers n P E C) (s.during p i (inLoop i outer now) true r) (List.replicate k (.thread p)) =
      some (s.during p i (outer.map fun o => .mainReload i o.1 o.2) false (r'.final s.entry)) := by
  induction fuel generalizing r with
  | zero => cases h
  | succ fuel ih =>
    rw [processTurns] at h
    cases hturn : turn s.entry now r with
    | none =>
      rw [hturn] at h
      cases h
      refine ⟨1, ?_⟩
      rw [List.replicate_one, exec_cons, exec_end hturn]
      rfl
    | some r₁ =>
      rw [hturn] at h
      obtain ⟨k, hk⟩ := exec_turn n p i outer hturn
      obtain ⟨k', hk'⟩ := ih h
      refine ⟨k + k', ?_⟩
      rw [List.replicate_add]
      exact exec_trans hk hk'

/-- **`ProcessShard` by a thread alone** comes to what `processShard` says, and starts the callbacks that it says. -/
theorem processShard_alone (hpc : s.pc p = some (.process i outer (.lock now))) (hlock : (s.shard i).locked = false)
    (h : processShard s.entry now (s.shard i) = some r) :
    ∃ k, exec (timers n P E C) s (List.replicate k (.thread p)) =
      some (s.during p i (outer.map fun o => .mainReload i o.1 o.2) false r) := by
  obtain ⟨r₁, hturns, rfl⟩ := Option.map_eq_some_iff.mp h
  obtain ⟨k, hk⟩ := exec_turns n p i outer hturns
  refine ⟨k + 1, ?_⟩
  have hstep : (timers n P E C).step s (.thread p) =
      some (s.during p i (inLoop i outer now) true ⟨(s.shard i).heap, (s.shard i).nextDeadline, [], []⟩) := by
    show (s.pc p).bind _ = _
    rw [hpc, ← during_start]
    simp only [Option.bind_some, State.access, State.processStep, hlock, Bool.false_eq_true, if_false]
  rw [List.replicate_succ, exec_cons, hstep]
  exact hk

end Alone

end Cothread.Timer
