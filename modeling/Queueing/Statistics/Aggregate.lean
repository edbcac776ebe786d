import Queueing.Simulation.Error
import Queueing.Statistics.Sojourns

/-!
# Aggregating trials

The results of independent trials are reduced to a mean with a 95% confidence interval
by the normal approximation. Degenerate results are left out first, and fewer than two
valid results give an error instead of an interval without width.
-/

namespace Queueing

/-- A point estimate and its confidence interval. -/
structure Aggregate (α : Type) where
  /-- The number of valid results. -/
  n : Nat
  mean : α
  stdDev : α
  /-- The standard error of the mean. -/
  stdError : α
  lower : α
  upper : α
  min : α
  max : α
deriving DecidableEq, Repr

def requiredSamples : Nat := 2

section

variable {α : Type} [Arithmetic α]

/-- The quantile of the standard normal distribution for a two-sided 95% interval,
`1.96`. -/
def normalQuantile (α : Type) [Arithmetic α] : α := ((49 : Nat) : α) / ((25 : Nat) : α)

namespace Aggregate

def halfWidth (a : Aggregate α) : α := normalQuantile α * a.stdError

def contains (value : α) (a : Aggregate α) : Bool := a.lower ≤ value && value ≤ a.upper

end Aggregate

def aggregate (results : List (TrialResult α)) : Except (SimulationError α) (Aggregate α) :=
  let summary := Summary.ofList (results.filterMap TrialResult.value?)
  match summary.mean?, summary.stdDev?, summary.min, summary.max with
  | some mean, some stdDev, some min, some max =>
    let stdError := stdDev / Roots.sqrt ((summary.count : Nat) : α)
    let halfWidth := normalQuantile α * stdError
    .ok { n := summary.count, mean, stdDev, stdError, min, max
          lower := mean - halfWidth, upper := mean + halfWidth }
  | _, _, _, _ => .error (.insufficientSamples summary.count requiredSamples)

/-- The mean time in system of a stable queue with one server, `1 / (μ - λ)`. -/
def expectedTimeInSystem (arrivalRate serviceRate : α) : Except (SimulationError α) α :=
  if isRate arrivalRate then
    if Arithmetic.isFinite serviceRate ∧ arrivalRate < serviceRate then
      .ok (1 / (serviceRate - arrivalRate))
    else .error (.invalidParameter "service_rate" (.notStable arrivalRate serviceRate))
  else .error (.invalidParameter "arrival_rate" (.notRate arrivalRate))

end

end Queueing
