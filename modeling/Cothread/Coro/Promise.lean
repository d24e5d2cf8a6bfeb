import Cothread.Coro.Await
import Mathlib.Logic.Function.Basic

/-!
# Promises, results and the meaning of a coroutine

`Error` and `Result`, the promises of `Task` and `SafeTask`, which keep how a body has ended, and `get`, which moves the
result out. A body is what a coroutine does: it suspends itself, awaits a coroutine and goes on with what it gets, or
ends. Its meaning (`Ends`) needs no scheduler: an awaited coroutine is run to its end first, and the n-th `co_await` of
it gets what the promise has after n moves. It is a partial function (`Ends.unique`).
-/

namespace Cothread.Coro

/-- `Error`. -/
structure Error where
  code : Int
  message : String
  deriving DecidableEq

/-- `Result<T>`. -/
inductive Result (T : Type*)
  | value (v : T)
  | error (e : Error)
  deriving DecidableEq

/-- `Result()`. -/
def Result.uninitialized {T : Type*} : Result T := .error ⟨-1, "uninitialized"⟩

/-- What can be thrown: a `std::exception`, or anything else. -/
inductive Exn
  | std (what : String)
  | other
  deriving DecidableEq

/-- `Task<T>` or `SafeTask<T>`. -/
inductive TaskKind
  | task
  | safeTask
  deriving DecidableEq

/-- How a body ends: `co_return` of a value, `co_return` of an `Error`, which only a `SafeTask` has, or a throw. -/
inductive Ending (T : Type*) : TaskKind → Type _
  | value {k : TaskKind} (v : T) : Ending T k
  | error (e : Error) : Ending T .safeTask
  | throws {k : TaskKind} (x : Exn) : Ending T k

/-- What `co_await` gives: the value or a throw of a `Task`, the `Result` of a `SafeTask`. -/
inductive Received (T : Type*) : TaskKind → Type _
  | value (v : T) : Received T .task
  | throws (x : Exn) : Received T .task
  | result (r : Result T) : Received T .safeTask

/-- `TaskPromise<T>`: `result_` and `exception_`; `SafeTaskPromise<T>`: `result_`. -/
inductive Promise (T : Type*) : TaskKind → Type _
  | task (result : T) (exn : Option Exn) : Promise T .task
  | safeTask (result : Result T) : Promise T .safeTask

/-- What is left of a value, and of the message of an error, that has been moved from. -/
structure Moved (T : Type*) where
  value : T → T
  message : String → String

namespace Promise

variable {T : Type*}

/-- The members of a new promise. -/
def fresh [Inhabited T] : (k : TaskKind) → Promise T k
  | .task => .task default none
  | .safeTask => .safeTask .uninitialized

/-- `return_value` and `unhandled_exception`. -/
def finish : {k : TaskKind} → Promise T k → Ending T k → Promise T k
  | _, .task _ exn, .value v => .task v exn
  | _, .task result _, .throws x => .task result (some x)
  | _, .safeTask _, .value v => .safeTask (.value v)
  | _, .safeTask _, .error e => .safeTask (.error e)
  | _, .safeTask _, .throws (.std what) => .safeTask (.error ⟨-3, what⟩)
  | _, .safeTask _, .throws .other => .safeTask (.error ⟨-4, "unknown exception"⟩)

/-- `get_result()`, and the promise after it. -/
def getResult (moved : Moved T) : {k : TaskKind} → Promise T k → Received T k × Promise T k
  | _, .task result (some x) => (.throws x, .task result (some x))
  | _, .task result none => (.value result, .task (moved.value result) none)
  | _, .safeTask (.value v) => (.result (.value v), .safeTask (.value (moved.value v)))
  | _, .safeTask (.error e) => (.result (.error e), .safeTask (.error ⟨e.code, moved.message e.message⟩))

/-- `get()`; `done` says whether the coroutine is done, when there is a handle. -/
def get (moved : Moved T) (done : Option Bool) : {k : TaskKind} → Promise T k → Received T k × Promise T k
  | .task, p => match done with
    | none => (.throws (.std "Task has no handle"), p)
    | some false => (.throws (.std "Task not completed"), p)
    | some true => p.getResult moved
  | .safeTask, p => match done with
    | none => (.result (.error ⟨-1, "Task has no handle"⟩), p)
    | some false => (.result (.error ⟨-2, "Task not completed"⟩), p)
    | some true => p.getResult moved

theorem get_done (moved : Moved T) {k : TaskKind} (p : Promise T k) : p.get moved (some true) = p.getResult moved := by
  cases k with
  | task => rfl
  | safeTask => rfl

/-- The promise of a body that has ended, after `n` calls of `get_result`. -/
def after [Inhabited T] (moved : Moved T) {k : TaskKind} (e : Ending T k) : ℕ → Promise T k
  | 0 => (fresh k).finish e
  | n + 1 => ((after moved e n).getResult moved).2

end Promise

/-! ## Bodies -/

section Meaning

variable {C : Type*} (kind : C → TaskKind) (T : C → Type*)

/-- The body of the coroutine `x`, or what is left of it. -/
inductive Body (x : C)
  | ends (e : Ending (T x) (kind x))
  | suspend (k : Kind) (rest : Body x)
  | await (c : C) (rest : Received (T c) (kind c) → Body x)

variable {kind T} [DecidableEq C] [∀ c, Inhabited (T c)] (moved : ∀ c, Moved (T c)) (body : ∀ x, Body kind T x)

/-- **The meaning of a body**: how what is left of it ends, when it has awaited each coroutine `n c` times before. -/
inductive Ends : (x : C) → Body kind T x → (n : C → ℕ) → Ending (T x) (kind x) → Prop
  | ends {x : C} {n : C → ℕ} (e : Ending (T x) (kind x)) : Ends x (.ends e) n e
  | suspend {x : C} {n : C → ℕ} {k : Kind} {rest : Body kind T x} {e : Ending (T x) (kind x)} (h : Ends x rest n e) :
    Ends x (.suspend k rest) n e
  | await {x c : C} {n : C → ℕ} {rest : Received (T c) (kind c) → Body kind T x} {e' : Ending (T c) (kind c)}
    {e : Ending (T x) (kind x)} (hc : Ends c (body c) (fun _ => 0) e')
    (h : Ends x (rest ((Promise.after (moved c) e' (n c)).getResult (moved c)).1) (Function.update n c (n c + 1)) e) :
    Ends x (.await c rest) n e

/-- **The meaning is unique.** -/
theorem Ends.unique {x : C} {b : Body kind T x} {n : C → ℕ} {e₁ e₂ : Ending (T x) (kind x)}
    (h₁ : Ends moved body x b n e₁) (h₂ : Ends moved body x b n e₂) : e₁ = e₂ := by
  induction h₁ with
  | ends e =>
    cases h₂
    rfl
  | suspend h ih =>
    cases h₂ with
    | suspend h' => exact ih h'
  | await hc h ihc ih =>
    cases h₂ with
    | await hc' h' =>
      cases ihc hc'
      exact ih h'

end Meaning

end Cothread.Coro
