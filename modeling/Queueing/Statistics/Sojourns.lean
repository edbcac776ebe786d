import Queueing.Statistics.Summary

/-!
# Sojourn times of one trial

The times in system of the customers that completed service, and the scalar to which a
trial is reduced: their mean, unless nobody completed or the mean is no usable time.
-/

namespace Queueing

/-- The scalar outcome of a trial. -/
inductive TrialResult (α : Type) where
  /-- The mean time in system. -/
  | mean (value : α)
  /-- No usable statistic; never to be counted as a time of zero. -/
  | degenerate
deriving DecidableEq, Repr

namespace TrialResult

variable {α : Type}

/-- A mean is valid when it is finite and strictly positive. -/
def ofMean [Arithmetic α] (mean : α) : TrialResult α :=
  if Arithmetic.isFinite mean ∧ 0 < mean then .mean mean else .degenerate

def value? : TrialResult α → Option α
  | .mean value => some value
  | .degenerate => none

def isDegenerate : TrialResult α → Bool
  | .mean _ => false
  | .degenerate => true

end TrialResult

/-- The sum, the number and the summary of the sojourn times recorded so far. -/
structure Sojourns (α : Type) where
  sum : α
  completed : Nat
  summary : Summary α
deriving DecidableEq, Repr

namespace Sojourns

variable {α : Type} [Arithmetic α]

def empty : Sojourns α := ⟨0, 0, Summary.empty⟩

def record (sojourn : α) (s : Sojourns α) : Sojourns α :=
  ⟨s.sum + sojourn, s.completed + 1, s.summary.add sojourn⟩

def mean? (s : Sojourns α) : Option α :=
  if 0 < s.completed then some (s.sum / ((s.completed : Nat) : α)) else none

def result (s : Sojourns α) : TrialResult α :=
  match s.mean? with
  | some mean => TrialResult.ofMean mean
  | none => .degenerate

end Sojourns

end Queueing
