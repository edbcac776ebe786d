import Queueing.Decimal.Layout
import Queueing.Simulation.Event

/-!
# What can go wrong

An error is kept as its cause; `SimulationError.message` is the one place that words
it. Errors come in two kinds: bad input, and breaches of the invariants of the engine
itself. A broken precondition (`Precondition`) is neither: it stops a caller that
asked for something it had to check before.
-/

namespace Queueing

/-- Why a parameter is refused. -/
inductive Refusal (α : Type) where
  | belowOne
  | notRate (got : α)
  | notStable (arrival got : α)
  | stated (reason : String)
deriving DecidableEq, Repr

/-- How an agent broke the rules of its life. -/
inductive Breach where
  | cannotResume (agent : String) (phase : Phase)
  | wokenEmptyHanded
  | unregistered (agent : AgentId)
  | stated (detail : String)
deriving DecidableEq, Repr

/-- The errors of configuring and running a simulation. -/
inductive SimulationError (α : Type) where
  /-- A setting lies outside its domain. -/
  | invalidParameter (name : String) (refusal : Refusal α)
  /-- A delay is negative, infinite or undefined. -/
  | invalidDelay (delay : α)
  /-- Something was to happen before the current time. -/
  | timeReversal (now target : α)
  /-- An agent was resumed when it could not be. -/
  | agentInvariant (breach : Breach)
  /-- Too few valid results for an interval. -/
  | insufficientSamples (valid required : Nat)
  /-- The workers could not be started. -/
  | workerPool (detail : String)
  /-- A configuration file could not be read. -/
  | unreadableConfig (detail : String)
  /-- A configuration is not a document of the right form. -/
  | malformedConfig (detail : String)
deriving DecidableEq, Repr

/-- Preconditions that a caller must check. -/
inductive Precondition where
  | startTime
  | exponentialRate
deriving DecidableEq, Repr

/-- How an action can fail: with an error, or by a broken precondition. -/
inductive Failure (α : Type) where
  | error (cause : SimulationError α)
  | precondition (broken : Precondition)
deriving DecidableEq, Repr

/-- The error is a breach of the engine and not bad input. -/
def SimulationError.isInvariantViolation {α : Type} : SimulationError α → Bool
  | .invalidDelay _ | .timeReversal _ _ | .agentInvariant _ => true
  | _ => false

/-! ## Wording -/

def Precondition.message : Precondition → String
  | .startTime => "start time must be finite and non-negative"
  | .exponentialRate => "exponential rate must be positive and finite"

def Refusal.message : Refusal Binary64 → String
  | .belowOne => "must be at least 1"
  | .notRate got => "must be positive and finite, got " ++ got.text
  | .notStable arrival got =>
    "must exceed arrival rate " ++ arrival.text ++ " for a stable queue, got " ++ got.text
  | .stated reason => reason

def Breach.message : Breach → String
  | .cannotResume agent phase => agent ++ " process resumed while " ++ phase.name
  | .wokenEmptyHanded => "service process woken without a delivered record"
  | .unregistered agent => "event for unregistered " ++ agent.text
  | .stated detail => detail

def SimulationError.message : SimulationError Binary64 → String
  | .invalidParameter name refusal => "Invalid parameter '" ++ name ++ "': " ++ refusal.message
  | .invalidDelay delay =>
    "Invalid delay " ++ delay.text ++ ": delays must be finite and non-negative"
  | .timeReversal now target =>
    "Scheduler invariant violated: target time " ++ target.text ++ " is before current time "
      ++ now.text
  | .agentInvariant breach => "Process invariant violated: " ++ breach.message
  | .insufficientSamples valid required =>
    "Insufficient samples: " ++ toString valid ++ " valid trial results, at least "
      ++ toString required ++ " required"
  | .workerPool detail => "Worker pool error: " ++ detail
  | .unreadableConfig detail => "Config I/O error: " ++ detail
  | .malformedConfig detail => "Config serialization error: " ++ detail

def Failure.message : Failure Binary64 → String
  | .error cause => cause.message
  | .precondition broken => broken.message

end Queueing
