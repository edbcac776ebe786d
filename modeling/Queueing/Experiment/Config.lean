import Queueing.Forms.Simulation

/-!
# Configuration of an experiment

An experiment repeats a trial with seeds derived from one master seed. A configuration
document may leave out any setting, which then takes its default, but a setting that is
not known is refused.
-/

namespace Queueing

open Json

/-- The settings of an experiment. -/
structure ExperimentConfig (α : Type) where
  /-- Customers in each trial. -/
  customers : UInt64
  arrivalRate : α
  serviceRate : α
  /-- The number of independent trials. -/
  trials : UInt64
  /-- The master seed. -/
  seed : UInt64
  /-- How many workers run the trials; without a number the machine decides. -/
  workers : Option UInt64
deriving DecidableEq, Repr

namespace ExperimentConfig

variable {α : Type} [Arithmetic α]

/-- A hundred trials of a million customers, at nine tenths of the capacity. -/
def default : ExperimentConfig α where
  customers := 1000000
  arrivalRate := ((9 : Nat) : α) / ((10 : Nat) : α)
  serviceRate := 1
  trials := 100
  seed := defaultSeed
  workers := none

/-- Check every setting before any trial starts. The queue must be stable, since the
outcome is compared with the formula for a stable queue. -/
def validate (c : ExperimentConfig α) : Except (SimulationError α) Unit := do
  checkCount "customers" c.customers
  checkCount "trials" c.trials
  match c.workers with
  | none => pure ()
  | some workers => checkCount "workers" workers
  checkRate "arrival_rate" c.arrivalRate
  checkRate "service_rate" c.serviceRate
  let _ ← expectedTimeInSystem c.arrivalRate c.serviceRate

def expected (c : ExperimentConfig α) : Except (SimulationError α) α :=
  expectedTimeInSystem c.arrivalRate c.serviceRate

omit [Arithmetic α] in
def trialConfig (c : ExperimentConfig α) (index : UInt64) : TrialConfig α :=
  ⟨c.customers, c.arrivalRate, c.serviceRate, deriveSeed c.seed "trial" index⟩

omit [Arithmetic α] in
def workerCount (processors : UInt64) (c : ExperimentConfig α) : UInt64 :=
  c.workers.getD processors

end ExperimentConfig

/-! ## The document -/

instance {α : Type} [Arithmetic α] [Form α] : Form (ExperimentConfig α) where
  shape :=
    let d : ExperimentConfig α := .default
    .record (.mk "struct ExperimentConfig" true true
      [.defaulting "customers" (shapeOf UInt64) (Form.write d.customers),
        .defaulting "arrival_rate" (shapeOf α) (Form.write d.arrivalRate),
        .defaulting "service_rate" (shapeOf α) (Form.write d.serviceRate),
        .defaulting "trials" sizeShape (Form.write d.trials),
        .defaulting "rng_seed" (shapeOf UInt64) (Form.write d.seed),
        .optional "workers" sizeShape])
  write c := .object
    [("customers", Form.write c.customers), ("arrival_rate", Form.write c.arrivalRate),
      ("service_rate", Form.write c.serviceRate), ("trials", Form.write c.trials),
      ("rng_seed", Form.write c.seed), ("workers", Form.write c.workers)]
  ofValue? v := do
    pure ⟨← field? "customers" v, ← field? "arrival_rate" v, ← field? "service_rate" v,
      ← field? "trials" v, ← field? "rng_seed" v, ← field? "workers" v⟩

namespace ExperimentConfig

variable {α : Type} [Arithmetic α] [Form α]

def ofText (text : String) : Except (SimulationError α) (ExperimentConfig α) :=
  match read (ExperimentConfig α) text with
  | .ok c => .ok c
  | .error e => .error (.malformedConfig ("Invalid experiment config: " ++ e.message))

def toText (c : ExperimentConfig α) : String := pretty c

/-- The text whose digest is the fingerprint: the canonical document of the settings that
have an influence on results, which the number of workers has not. -/
def fingerprintText (c : ExperimentConfig α) : String :=
  (Form.write { c with workers := none }).canonical.compact

def fingerprint (c : ExperimentConfig α) : String := Sha256.hexOfText c.fingerprintText

end ExperimentConfig

end Queueing
