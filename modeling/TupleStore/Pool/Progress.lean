import TupleStore.Pool.Store

/-!
# Operations in steps

An operation on pages can have to wait in many places: for a lock, for a frame that others use, and
again for the next page. So it is a state with a step: the step finishes, moves on to another state,
or is blocked in a state from which it is to be taken up again.

* `Progress` : what one step comes to;
* `advance` : steps, until the operation finishes or is blocked.
-/

namespace TupleStore

set_option autoImplicit false

/-- What one step of an operation comes to. -/
inductive Progress (σ α : Type) where
  | finished (result : α)
  | moved (next : σ)
  /-- The operation has to wait, and goes on from this state. -/
  | blocked (state : σ)

namespace Progress

/-- The progress of an operation that is part of another. -/
def map {σ τ α β : Type} (onState : σ → τ) (onResult : α → β) : Progress σ α → Progress τ β
  | finished a => finished (onResult a)
  | moved s => moved (onState s)
  | blocked s => blocked (onState s)

end Progress

/-- How far an operation came: to its result, or to a state in which it waits. -/
inductive Advance (σ α : Type) where
  | done (result : α)
  | waiting (state : σ)

namespace Action

/-- Takes steps until the operation finishes or is blocked, but no more than so many. -/
def advance {σ α : Type} (step : σ → Action (Progress σ α)) : Nat → σ → Action (Advance σ α)
  | 0, s => pure (.waiting s)
  | n + 1, s => do
    match ← step s with
    | .finished a => pure (.done a)
    | .moved s' => advance step n s'
    | .blocked s' => pure (.waiting s')

end Action

end TupleStore
