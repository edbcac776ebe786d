import Queueing.Simulation.Event

/-!
# Runs

A system that dispatches events goes through steps: it rests because no event is
pending, it moves on after an event, or it fails. A run repeats steps until the first
rest or failure. The number of steps is bounded by a count that the caller derives from
the system; a run that used it up is marked as unfinished, and never mistaken for one
that came to rest.
-/

namespace Queueing

/-- One step of a system with states in `σ` and failures in `ε`. -/
inductive Step (α σ ε : Type) where
  /-- No event is pending. -/
  | rest
  /-- An event was dispatched. -/
  | moved (event : Event α) (state : σ)
  /-- Dispatching failed, after an event had been taken if one is given. -/
  | failed (event : Option (Event α)) (cause : ε) (state : σ)

/-- How a run ended. -/
inductive Ending (ε : Type) where
  | rested
  | failed (cause : ε)
  | unfinished
deriving DecidableEq, Repr

/-- What a run leaves behind: the state, the events dispatched with the latest first,
and how it ended. -/
structure Run (α σ ε : Type) where
  state : σ
  trace : List (Event α)
  ending : Ending ε

/-- Run at most `bound` events from a state, after the events in `trace`. -/
def Run.go {α σ ε : Type} (step : σ → Step α σ ε) : Nat → List (Event α) → σ → Run α σ ε
  | bound, trace, state =>
    match step state with
    | .rest => ⟨state, trace, .rested⟩
    | .failed event cause state => ⟨state, event.toList ++ trace, .failed cause⟩
    | .moved event next =>
      match bound with
      | 0 => ⟨state, trace, .unfinished⟩
      | bound + 1 => go step bound (event :: trace) next

/-- Run a system until it rests or fails, at most for `bound` events. -/
def Run.of {α σ ε : Type} (step : σ → Step α σ ε) (bound : Nat) (state : σ) : Run α σ ε :=
  Run.go step bound [] state

/-- The events dispatched in a run, the earliest first. -/
def Run.events {α σ ε : Type} (r : Run α σ ε) : List (Event α) := r.trace.reverse

end Queueing
