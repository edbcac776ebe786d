import Queueing.Experiment.Config

/-!
# Reports of experiments

The final estimate of an experiment is a mean with its confidence interval, or, when
fewer than two trials gave a valid result, what is left to say. A report is written as
one line or as a document.
-/

namespace Queueing

open Json

/-- The final estimate. -/
inductive Estimate (α : Type) where
  | interval (a : Aggregate α)
  /-- Fewer than two valid trials; the mean is that of the only one. -/
  | insufficient (valid : Nat) (mean : Option α)
deriving DecidableEq, Repr

namespace Estimate

variable {α : Type}

def mean? : Estimate α → Option α
  | .interval a => some a.mean
  | .insufficient _ mean => mean

def interval? : Estimate α → Option (Aggregate α)
  | .interval a => some a
  | .insufficient _ _ => none

def isInsufficient : Estimate α → Bool
  | .interval _ => false
  | .insufficient _ _ => true

end Estimate

/-- The outcome of an experiment. -/
structure ExperimentReport (α : Type) where
  config : ExperimentConfig α
  /-- The fingerprint of the configuration. -/
  configHash : String
  /-- The number of workers that were used. -/
  workers : UInt64
  /-- The trials in the order of their indices. -/
  trials : List (TrialReport α)
  /-- How many trials were degenerate. -/
  degenerate : Nat
  /-- The mean time in system that the formula gives. -/
  expected : α
  estimate : Estimate α
deriving DecidableEq, Repr

def ExperimentReport.results {α : Type} (r : ExperimentReport α) : List (TrialResult α) :=
  r.trials.map (·.result)

/-! ## The report line -/

def Estimate.line (expected : Binary64) (trials : UInt64) : Estimate Binary64 → String
  | .interval a =>
    "Average time in system: " ++ a.mean.text ++ " (n " ++ toString a.n ++ ", conf int "
      ++ a.lower.text ++ " - " ++ a.upper.text ++ ", expected: " ++ expected.text ++ ")"
  | .insufficient valid mean =>
    "Average time in system: "
      ++ (match mean with | some m => m.text | none => "unavailable")
      ++ ", expected: " ++ expected.text
      ++ (if 1 < trials then
        " (insufficient data: " ++ toString valid ++ " valid of " ++ toString trials.toNat
          ++ " trials, no confidence interval)"
      else "")

def ExperimentReport.line (r : ExperimentReport Binary64) : String :=
  r.estimate.line r.expected r.config.trials

/-! ## The documents -/

variable {α : Type} [Form α]

instance : Form (Estimate α) where
  shape := .tagged "internally tagged enum Estimate" "kind"
    [("interval", Aggregate.record α),
      ("insufficient", .plain "struct variant Estimate::Insufficient"
        [.required "valid" sizeShape, .optional "mean" (shapeOf α)])]
  write
    | .interval a => .object (("kind", .string "interval") :: a.members)
    | .insufficient valid mean => .object
      [("kind", .string "insufficient"), ("valid", Form.write valid), ("mean", Form.write mean)]
  ofValue? v := do
    match ← field? "kind" v with
    | "interval" => (Form.ofValue? v).map Estimate.interval
    | _ => pure (.insufficient (← field? "valid" v) (← field? "mean" v))

instance [Arithmetic α] : Form (ExperimentReport α) where
  shape := .record (.plain "struct ExperimentReport"
    [.required "config" (shapeOf (ExperimentConfig α)), .required "config_hash" (shapeOf String),
      .required "workers" sizeShape, .required "trials" (shapeOf (List (TrialReport α))),
      .required "degenerate" sizeShape, .required "expected" (shapeOf α),
      .required "estimate" (shapeOf (Estimate α))])
  write r := .object
    [("config", Form.write r.config), ("config_hash", Form.write r.configHash),
      ("workers", Form.write r.workers), ("trials", Form.write r.trials),
      ("degenerate", Form.write r.degenerate), ("expected", Form.write r.expected),
      ("estimate", Form.write r.estimate)]
  ofValue? v := do
    pure ⟨← field? "config" v, ← field? "config_hash" v, ← field? "workers" v,
      ← field? "trials" v, ← field? "degenerate" v, ← field? "expected" v,
      ← field? "estimate" v⟩

end Queueing
