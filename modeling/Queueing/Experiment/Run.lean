import Queueing.Experiment.Report

/-!
# Running experiments

An experiment runs its trials, each from the seed of its index and independently of the
others, and aggregates their results. Workers may finish the trials in any order; their
reports are put back into the order of the indices. Too few valid results are no error of
an experiment: its report then says so. It is an error if the workers cannot be started.

Once they are, a single worker can do all the work. It walks the indices upwards and begins
no trial after one that failed, so that a failing experiment ends early however many trials
it asks for. Its outcome is the one for the order of the indices (`runExperiment_eq`).
-/

namespace Queueing

open Json

variable {α : Type} [Arithmetic α]

namespace ExperimentConfig

def runTrialAt (c : ExperimentConfig α) (index : Nat) : Except (Failure α) (TrialReport α) :=
  runTrial (c.trialConfig (UInt64.ofNat index))

/-- The reports of trials in the order of their indices, when the trials finish in the
given order. The first trial to fail ends it all. -/
def runTrialsIn (order : List Nat) (c : ExperimentConfig α) :
    Except (Failure α) (List (TrialReport α)) := do
  let finished ← order.mapM fun index => (c.runTrialAt index).map fun report => (index, report)
  pure ((finished.mergeSort fun a b => a.1 ≤ b.1).map (·.2))

def indices (c : ExperimentConfig α) : List Nat := List.range c.trials.toNat

/-- The reports finished so far and those of so many more trials from an index on, taken
one after the other. -/
def runTrialsFrom (c : ExperimentConfig α) (index : Nat) :
    Nat → Array (TrialReport α) → Except (Failure α) (List (TrialReport α))
  | 0, finished => .ok finished.toList
  | more + 1, finished =>
    match c.runTrialAt index with
    | .ok report => c.runTrialsFrom (index + 1) more (finished.push report)
    | .error cause => .error cause

def runTrials (c : ExperimentConfig α) : Except (Failure α) (List (TrialReport α)) :=
  c.runTrialsFrom 0 c.trials.toNat #[]

theorem runTrialsFrom_eq (c : ExperimentConfig α) (more index : Nat)
    (finished : Array (TrialReport α)) :
    c.runTrialsFrom index more finished
      = ((List.range' index more).mapM c.runTrialAt).map (finished.toList ++ ·) := by
  induction more generalizing index finished with
  | zero => simp [runTrialsFrom, Except.map, pure, Except.pure]
  | succ more ih =>
    rw [runTrialsFrom, List.range'_succ, List.mapM_cons]
    cases c.runTrialAt index with
    | error cause => rfl
    | ok report =>
      simp only [ih, bind, Except.bind]
      cases (List.range' (index + 1) more).mapM c.runTrialAt <;>
        simp [Except.map, pure, Except.pure]

theorem mapM_indexed (c : ExperimentConfig α) (order : List Nat) :
    (order.mapM fun index => (c.runTrialAt index).map fun report => (index, report))
      = (order.mapM c.runTrialAt).map (order.zip ·) := by
  induction order with
  | nil => rfl
  | cons index order ih =>
    rw [List.mapM_cons, List.mapM_cons, ih]
    cases c.runTrialAt index <;> cases order.mapM c.runTrialAt <;> rfl

theorem length_of_mapM_runTrialAt (c : ExperimentConfig α) {order : List Nat}
    {reports : List (TrialReport α)} (h : order.mapM c.runTrialAt = .ok reports) :
    reports.length = order.length := by
  induction order generalizing reports with
  | nil => cases h; rfl
  | cons index order ih =>
    rw [List.mapM_cons] at h
    cases first : c.runTrialAt index with
    | error => rw [first] at h; cases h
    | ok report =>
      cases rest : order.mapM c.runTrialAt with
      | error => rw [first, rest] at h; cases h
      | ok others =>
        rw [first, rest] at h
        cases h
        simp [ih rest]

/-- Trials that finish in the order of their indices need no sorting. -/
theorem runTrialsIn_eq_mapM (c : ExperimentConfig α) {order : List Nat}
    (sorted : order.Pairwise (· ≤ ·)) : c.runTrialsIn order = order.mapM c.runTrialAt := by
  rw [runTrialsIn, mapM_indexed]
  cases h : order.mapM c.runTrialAt with
  | error cause => rfl
  | ok reports =>
    have length := c.length_of_mapM_runTrialAt h
    have placed : (order.zip reports).Pairwise fun a b => decide (a.1 ≤ b.1) = true := by
      rw [← List.map_fst_zip (Nat.le_of_eq length.symm), List.pairwise_map] at sorted
      exact sorted.imp decide_eq_true
    simp only [Except.map, bind, Except.bind, pure, Except.pure]
    rw [List.mergeSort_of_pairwise placed, List.map_snd_zip (Nat.le_of_eq length)]

theorem runTrials_eq (c : ExperimentConfig α) : c.runTrials = c.runTrialsIn c.indices := by
  rw [runTrials, runTrialsFrom_eq, indices, List.range_eq_range', runTrialsIn_eq_mapM]
  · cases (List.range' 0 c.trials.toNat).mapM c.runTrialAt <;> rfl
  · exact List.pairwise_le_range'

end ExperimentConfig

def Estimate.ofResults (results : List (TrialResult α)) :
    Except (SimulationError α) (Estimate α) :=
  match aggregate results with
  | .ok a => .ok (.interval a)
  | .error (.insufficientSamples valid _) =>
    .ok (.insufficient valid (results.findSome? TrialResult.value?))
  | .error e => .error e

/-- How a machine starts so many workers. It may not be able to, and then says why. -/
abbrev Staffing := UInt64 → Except String Unit

def Staffing.unlimited : Staffing := fun _ => .ok ()

/-- Run an experiment on a machine with the given number of processors, where the trials are run
as given. The workers are started once the settings are found in order, and before any trial. -/
def runExperimentWith [Form α]
    (run : ExperimentConfig α → Except (Failure α) (List (TrialReport α)))
    (processors : UInt64) (staffing : Staffing) (c : ExperimentConfig α) :
    Except (Failure α) (ExperimentReport α) := do
  c.validate.mapError .error
  let expected ← c.expected.mapError .error
  let workers := c.workerCount processors
  (staffing workers).mapError fun detail => .error (.workerPool detail)
  let trials ← run c
  let results := trials.map (·.result)
  let estimate ← (Estimate.ofResults results).mapError .error
  pure
    { config := c
      configHash := c.fingerprint
      workers
      trials
      degenerate := results.countP TrialResult.isDegenerate
      expected
      estimate }

def runExperimentIn [Form α] (order : List Nat) (processors : UInt64) (staffing : Staffing)
    (c : ExperimentConfig α) : Except (Failure α) (ExperimentReport α) :=
  runExperimentWith (fun c => c.runTrialsIn order) processors staffing c

/-- Run an experiment with a single worker, which takes the trials one after the other. -/
def runExperiment [Form α] (processors : UInt64) (c : ExperimentConfig α)
    (staffing : Staffing := .unlimited) : Except (Failure α) (ExperimentReport α) :=
  runExperimentWith ExperimentConfig.runTrials processors staffing c

/-- A single worker finishes the trials in the order of their indices. -/
theorem runExperiment_eq [Form α] (processors : UInt64) (staffing : Staffing)
    (c : ExperimentConfig α) :
    runExperiment processors c staffing = runExperimentIn c.indices processors staffing c := by
  simp only [runExperiment, runExperimentIn, runExperimentWith, c.runTrials_eq]

end Queueing
