import Cothread.Timer.ProcessShard

/-!
# The heap and the cached deadline of a shard

One shard, under any sequence of the critical sections of `Schedule`, `Cancel` and `ProcessShard`, by any threads and
with any deadlines and ids. `Schedule` writes the fields of its entry before it takes the mutex, when the entry is in no
heap. `ProcessShard` takes the mutex, goes round its loop, and gives it back for a callback or at its end; it comes back
after the callback with the same `now_us`. So the other sections come between any two of its own, and a step of a
`ProcessShard` that has the mutex is one turn. The heap stays a min-heap of the entries that are in the shard, and
`next_deadline` is at most the deadline of each (`shard_sound`): it is not written when a cancelled entry is reaped, and
does not have to be, since the other deadlines are not smaller.
-/

namespace Cothread.Timer.OneShard

open Run BinaryHeap

structure State (E C : Type*) where
  entry : E → Entry C
  shard : Shard E
  now : Int  -- `now_us` of the `ProcessShard` that has the mutex
  scheduled : List E  -- the entries that a `Schedule` has inserted
  gone : List E  -- those that were taken for execution or reaped

inductive Label (E C : Type*)
  | write (e : E) (x : Entry C)  -- the fields of an entry that is not in the shard
  | schedule (e : E)
  | cancel (id : Int)
  | lock (now : Int)  -- `ProcessShard` takes the mutex
  | turn  -- and goes once round its loop, or ends

variable {E C : Type*}

/-- An empty shard. -/
def State.start (entry : E → Entry C) : State E C := ⟨entry, ⟨false, [], INT64_MAX⟩, 0, [], []⟩

def State.deadline (s : State E C) (e : E) : Int := (s.entry e).deadline

/-- The critical section of `Schedule`. -/
def State.insert (s : State E C) (e : E) : State E C :=
  { s with
    shard := { s.shard with
      heap := push s.deadline s.shard.heap e
      nextDeadline := if s.deadline e < s.shard.nextDeadline then s.deadline e else s.shard.nextDeadline }
    scheduled := e :: s.scheduled }

/-- A turn of `ProcessShard`: the mutex is given back when an entry has been taken for execution, or the loop ends. -/
def State.process (s : State E C) : State E C :=
  let r : Progress E := ⟨s.shard.heap, s.shard.nextDeadline, [], []⟩
  match turn s.entry s.now r with
  | some r' => { s with
    shard := ⟨r'.fired.isEmpty, r'.heap, r'.nextDeadline⟩
    gone := r'.released ++ s.gone }
  | none => { s with shard := ⟨false, (r.final s.entry).heap, (r.final s.entry).nextDeadline⟩ }

section Code

variable [DecidableEq E]

def State.write (s : State E C) (e : E) (x : Entry C) : State E C :=
  { s with entry := Function.update s.entry e x }

/-- The critical section of `Cancel`: the first entry with the id is marked. -/
def State.cancel (s : State E C) (id : Int) : State E C :=
  match s.shard.heap.find? fun e => (s.entry e).id = id with
  | some e => s.write e { s.entry e with cancelled := true }
  | none => s

def step (s : State E C) : Label E C → Option (State E C)
  | .write e x => if e ∈ s.shard.heap then none else some (s.write e x)
  | .schedule e => if s.shard.locked = false ∧ e ∉ s.shard.heap then some (s.insert e) else none
  | .cancel id => if s.shard.locked then none else some (s.cancel id)
  | .lock now => if s.shard.locked then none else some { s with shard := { s.shard with locked := true }, now := now }
  | .turn => if s.shard.locked then some s.process else none

/-- Any critical sections. -/
def system (E C : Type*) [DecidableEq E] : System (State E C) (Label E C) where
  init s := ∃ entry, s = .start entry
  step := step

end Code

/-- **What is expected of a shard**: its heap is a min-heap of what was scheduled and not taken or reaped, and the scan
of `TimerThreadMain` does not miss any of it. -/
structure Sound (s : State E C) : Prop where
  ordered : MinHeap s.entry s.shard.heap
  nodup : s.shard.heap.Nodup
  entries : s.scheduled.Perm (s.shard.heap ++ s.gone)
  cached : ∀ e ∈ s.shard.heap, s.shard.nextDeadline ≤ (s.entry e).deadline

variable {s t : State E C}

theorem sound_start (entry : E → Entry C) : Sound (.start entry) :=
  ⟨ordered_nil, List.nodup_nil, .refl _, nofun⟩

/-! ## The sections -/

/-- A write that changes no deadline in the heap. -/
theorem Sound.write [DecidableEq E] (h : Sound s) {e : E} {x : Entry C}
    (hx : e ∈ s.shard.heap → x.deadline = s.deadline e) : Sound (s.write e x) := by
  have hdeadline : ∀ d ∈ s.shard.heap, (Function.update s.entry e x d).deadline = (s.entry d).deadline := by
    intro d hd
    by_cases hde : d = e
    · subst hde
      rw [Function.update_self]
      exact hx hd
    · rw [Function.update_of_ne hde]
  constructor
  case ordered => exact h.ordered.congr hdeadline
  case nodup => exact h.nodup
  case entries => exact h.entries
  case cached =>
    intro d hd
    exact (h.cached d hd).trans_eq (hdeadline d hd).symm

/-- **`Schedule`**. -/
theorem Sound.insert (h : Sound s) {e : E} (he : e ∉ s.shard.heap) : Sound (s.insert e) := by
  have hperm : (s.insert e).shard.heap.Perm (e :: s.shard.heap) := push_perm s.shard.heap e
  constructor
  case ordered => exact push_ordered h.ordered e
  case nodup => exact hperm.nodup_iff.mpr (List.nodup_cons.mpr ⟨he, h.nodup⟩)
  case entries => exact (h.entries.cons e).trans (hperm.symm.append_right s.gone)
  case cached =>
    intro d hd
    show (if s.deadline e < s.shard.nextDeadline then s.deadline e else s.shard.nextDeadline) ≤ s.deadline d
    obtain rfl | hd := List.mem_cons.mp (hperm.mem_iff.mp hd)
    · split <;> omega
    · have hle : s.shard.nextDeadline ≤ s.deadline d := h.cached d hd
      split <;> omega

/-- **`Cancel`**. -/
theorem Sound.cancel [DecidableEq E] (h : Sound s) (id : Int) : Sound (s.cancel id) := by
  unfold State.cancel
  split
  · exact h.write fun _ => rfl
  · exact h

/-- The first entry leaves the heap; what is then cached is at most the other deadlines. -/
theorem Sound.pop {e : E} {heap : List E} (h : Sound s) (hheap : s.shard.heap = e :: heap) (locked : Bool) {d : Int}
    (hd : ∀ a ∈ pop (fun e => (s.entry e).deadline) (e :: heap), d ≤ (s.entry a).deadline) :
    Sound { s with
      shard := ⟨locked, BinaryHeap.pop (fun e => (s.entry e).deadline) (e :: heap), d⟩
      gone := e :: s.gone } := by
  have hperm : (BinaryHeap.pop (fun e => (s.entry e).deadline) (e :: heap)).Perm heap := pop_perm e heap
  have hordered := h.ordered
  have hnodup := h.nodup
  have hentries := h.entries
  rw [hheap] at hordered hnodup hentries
  constructor
  case ordered => exact pop_ordered hordered
  case nodup => exact hperm.nodup_iff.mpr (List.nodup_cons.mp hnodup).2
  case entries => exact hentries.trans (List.perm_middle.symm.trans (hperm.symm.append_right (e :: s.gone)))
  case cached => exact hd

/-- The first deadline is the least. -/
theorem frontDeadline_le {entry : E → Entry C} {heap : List E} (ho : MinHeap entry heap) {a : E} (ha : a ∈ heap) :
    frontDeadline entry heap ≤ (entry a).deadline := by
  cases heap with
  | nil => cases ha
  | cons e heap => exact ho.head_le rfl ha

section Turn

variable {e : E} {heap : List E}

/-- A turn writes to no entry. -/
theorem process_frame (s : State E C) : s.process.entry = s.entry ∧ s.process.now = s.now := by
  unfold State.process
  dsimp only
  split <;> exact ⟨rfl, rfl⟩

/-- The loop ends at an empty heap, and `next_deadline` stays as it is. -/
theorem process_nil (hheap : s.shard.heap = []) :
    s.process = { s with shard := ⟨false, [], s.shard.nextDeadline⟩ } := by
  simp only [State.process, hheap, turn, Progress.final]

/-- It ends at an entry that is not due. -/
theorem process_early (hheap : s.shard.heap = e :: heap) (hdue : due s.entry s.now e = false) :
    s.process = { s with shard := ⟨false, e :: heap, (s.entry e).deadline⟩ } := by
  simp only [State.process, hheap, turn_early (r := ⟨e :: heap, _, _, _⟩) rfl hdue, Progress.final]

/-- A cancelled entry is reaped. -/
theorem process_reap (hheap : s.shard.heap = e :: heap) (hdue : due s.entry s.now e = true)
    (hc : (s.entry e).cancelled = true) : s.process = { s with
      shard := ⟨true, pop (fun e => (s.entry e).deadline) (e :: heap), s.shard.nextDeadline⟩
      gone := e :: s.gone } := by
  simp only [State.process, hheap, turn_reap (r := ⟨e :: heap, _, _, _⟩) rfl hdue hc, List.isEmpty_nil, List.nil_append,
    List.singleton_append]

/-- An entry is taken for execution. -/
theorem process_take (hheap : s.shard.heap = e :: heap) (hdue : due s.entry s.now e = true)
    (hc : (s.entry e).cancelled = false) : s.process = { s with
      shard := ⟨false, pop (fun e => (s.entry e).deadline) (e :: heap),
        frontDeadline s.entry (pop (fun e => (s.entry e).deadline) (e :: heap))⟩
      gone := e :: s.gone } := by
  simp only [State.process, hheap, turn_fire (r := ⟨e :: heap, _, _, _⟩) rfl hdue hc, List.nil_append,
    List.singleton_append, List.isEmpty_cons]

end Turn

/-- **`ProcessShard`**, one turn. -/
theorem Sound.process (h : Sound s) : Sound s.process := by
  cases hheap : s.shard.heap with
  | nil =>
    rw [process_nil hheap]
    exact ⟨ordered_nil, List.nodup_nil, hheap ▸ h.entries, nofun⟩
  | cons e heap =>
    have hordered := hheap ▸ h.ordered
    cases hdue : due s.entry s.now e with
    | false =>
      rw [process_early hheap hdue]
      exact ⟨hordered, hheap ▸ h.nodup, hheap ▸ h.entries, fun d hd => hordered.head_le rfl hd⟩
    | true =>
      cases hc : (s.entry e).cancelled with
      | true =>
        rw [process_reap hheap hdue hc]
        refine h.pop hheap true fun a ha => h.cached a ?_
        rw [hheap]
        exact List.mem_cons_of_mem e ((pop_perm e heap).mem_iff.mp ha)
      | false =>
        rw [process_take hheap hdue hc]
        exact h.pop hheap false fun a ha => frontDeadline_le (pop_ordered hordered) ha

/-- **One step**. -/
theorem Sound.step [DecidableEq E] {l : Label E C} (h : Sound s) (hst : step s l = some t) : Sound t := by
  cases l with
  | write e x =>
    obtain ⟨he, hst⟩ := Option.ite_none_left_eq_some.mp hst
    cases hst
    exact h.write fun hin => absurd hin he
  | schedule e =>
    obtain ⟨⟨-, he⟩, hst⟩ := Option.ite_none_right_eq_some.mp hst
    cases hst
    exact h.insert he
  | cancel id =>
    obtain ⟨-, hst⟩ := Option.ite_none_left_eq_some.mp hst
    cases hst
    exact h.cancel id
  | lock now =>
    obtain ⟨-, hst⟩ := Option.ite_none_left_eq_some.mp hst
    cases hst
    exact ⟨h.ordered, h.nodup, h.entries, h.cached⟩
  | turn =>
    obtain ⟨-, hst⟩ := Option.ite_none_right_eq_some.mp hst
    cases hst
    exact h.process

theorem sound_reachable [DecidableEq E] (hr : Reachable (system E C) s) : Sound s := by
  refine hr.invariant ?_ fun _ _ _ h _ hst => h.step hst
  rintro _ ⟨entry, rfl⟩
  exact sound_start entry

/-- **A shard stays sound**: whenever the mutex is free, and between the turns of `ProcessShard` also when it is not. So
a shard with an entry that is due is one that the scan finds. -/
theorem shard_sound [DecidableEq E] (hr : Reachable (system E C) s) :
    Sound s ∧ ∀ now, ∀ e ∈ s.shard.heap, s.deadline e ≤ now → s.shard.nextDeadline ≤ now := by
  have hsound := sound_reachable hr
  exact ⟨hsound, fun now e he hdue => (hsound.cached e he).trans hdue⟩

/-- Timers for 5, 3 and 4, of which the one for 3 is cancelled: `ProcessShard` reaps it at 4, and takes the one for 4. A
timer for 1 comes during the callback, in the same entry. -/
theorem shard_sound_three : ∃ s : State ℕ Unit, Sound s ∧ s.shard.locked = false ∧ s.shard.nextDeadline = 1 ∧
    s.shard.heap = [2, 0] := by
  have hinit : (system ℕ Unit).init (.start fun _ => ⟨(), 0, 0, false⟩) := ⟨_, rfl⟩
  have hrun : (exec (system ℕ Unit) (.start fun _ => ⟨(), 0, 0, false⟩)
      [.write 0 ⟨(), 5, 10, false⟩, .schedule 0, .write 1 ⟨(), 3, 11, false⟩, .schedule 1,
        .write 2 ⟨(), 4, 12, false⟩, .schedule 2, .cancel 11, .lock 4, .turn, .turn,
        .write 2 ⟨(), 1, 13, false⟩, .schedule 2]).any
      (fun s => decide (s.shard.locked = false ∧ s.shard.nextDeadline = 1 ∧ s.shard.heap = [2, 0])) = true := by
    decide +kernel
  obtain ⟨s, hs, hend⟩ := of_exec_any hrun
  exact ⟨s, (shard_sound (reachable_exec (.init hinit) hs)).1, hend⟩

end Cothread.Timer.OneShard
