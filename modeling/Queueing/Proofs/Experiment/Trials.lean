import Mathlib.Data.List.Sort
import Queueing.Experiment.Run
import Queueing.Proofs.Actions

/-!
# Trials that finish in any order

The workers of an experiment may finish its trials in any order. When all of them succeed, the
reports stand in the order of the indices, each where its index says (`forall₂_of_runTrialsIn`);
otherwise the failure is that of one of the trials (`exists_of_runTrialsIn_error`). No more is
asked of workers in `ExperimentConfig.Collected`, so that what holds of all that they may hand in
holds in whatever order they finish (`ExperimentConfig.Outcome.gathered`).
-/

namespace Queueing

/-! ## The order of the reports -/

theorem pairwise_mergeSort_fst {β : Type} (xs : List (Nat × β)) :
    (xs.mergeSort fun a b => a.1 ≤ b.1).Pairwise fun a b => a.1 ≤ b.1 := by
  refine (List.pairwise_mergeSort ?_ ?_ xs).imp of_decide_eq_true
  · intro a b c hab hbc
    exact decide_eq_true (Nat.le_trans (of_decide_eq_true hab) (of_decide_eq_true hbc))
  · intro a b
    rw [Bool.or_eq_true, decide_eq_true_eq, decide_eq_true_eq]
    exact Nat.le_total _ _

variable {α : Type} [Arithmetic α]

namespace ExperimentConfig

variable {c : ExperimentConfig α} {order : List Nat}

/-- **Sorting puts every report at its index**, whatever the order in which trials finish. -/
theorem forall₂_of_runTrialsIn {reports : List (TrialReport α)} (horder : order.Perm c.indices)
    (h : c.runTrialsIn order = .ok reports) :
    List.Forall₂ (fun i report => c.runTrialAt i = .ok report) c.indices reports := by
  rw [runTrialsIn, mapM_indexed] at h
  cases hfinished : order.mapM c.runTrialAt with
  | error cause =>
      rw [hfinished] at h
      cases h
  | ok finished =>
      rw [hfinished] at h
      cases h
      obtain ⟨hlength, hzip⟩ := List.forall₂_iff_zip.mp (mapM_eq_ok_iff.mp hfinished)
      have hperm := List.mergeSort_perm (order.zip finished) fun a b => decide (a.1 ≤ b.1)
      have hsorted := pairwise_mergeSort_fst (order.zip finished)
      generalize (order.zip finished).mergeSort _ = placed at hperm hsorted ⊢
      -- sorted indices that are a permutation of all indices are all indices in their order
      have hindices : placed.map (·.1) = c.indices := by
        refine List.Perm.eq_of_pairwise' (r := (· ≤ ·)) ?_ ?_ ?_
        · rw [List.pairwise_map]
          exact hsorted
        · rw [indices, List.range_eq_range']
          exact List.pairwise_le_range'
        · refine (hperm.map _).trans ?_
          rwa [List.map_fst_zip (Nat.le_of_eq hlength)]
      rw [← hindices, List.forall₂_map_left_iff, List.forall₂_map_right_iff, List.forall₂_same]
      intro placedReport hmem
      exact hzip (hperm.mem_iff.mp hmem)

theorem exists_of_runTrialsIn_error {cause : Failure α} (h : c.runTrialsIn order = .error cause) :
    ∃ i ∈ order, c.runTrialAt i = .error cause := by
  rw [runTrialsIn, mapM_indexed] at h
  cases hfinished : order.mapM c.runTrialAt with
  | error first =>
      rw [hfinished] at h
      cases h
      exact exists_of_mapM_error hfinished
  | ok finished =>
      rw [hfinished] at h
      cases h

end ExperimentConfig

/-! ## The outcomes -/

/-- What workers may hand in: the reports of all trials, in the order of the indices, or the
failure of some trial that fails, which need not be the first one to do so. -/
inductive ExperimentConfig.Collected (c : ExperimentConfig α) :
    Except (Failure α) (List (TrialReport α)) → Prop where
  | reports {reports : List (TrialReport α)}
      (h : List.Forall₂ (fun i report => c.runTrialAt i = .ok report) c.indices reports) :
      c.Collected (.ok reports)
  | failure {i : Nat} {cause : Failure α} (hi : i ∈ c.indices)
      (h : c.runTrialAt i = .error cause) : c.Collected (.error cause)

section

variable [Json.Form α]

/-- What an experiment may come to: its trials are taken one after the other, or workers finish
them in some order. -/
inductive ExperimentConfig.Outcome (processors : UInt64) (staffing : Staffing)
    (c : ExperimentConfig α) : Except (Failure α) (ExperimentReport α) → Prop where
  | alone : c.Outcome processors staffing (runExperiment processors c staffing)
  | shared {order : List Nat} (h : order.Perm c.indices) :
      c.Outcome processors staffing (runExperimentIn order processors staffing c)

/-- What an experiment may come to when workers hand in its trials. -/
inductive ExperimentConfig.Gathered (processors : UInt64) (staffing : Staffing)
    (c : ExperimentConfig α) : Except (Failure α) (ExperimentReport α) → Prop where
  | intro {trials : Except (Failure α) (List (TrialReport α))} (h : c.Collected trials) :
      c.Gathered processors staffing
        (runExperimentWith (fun _ => trials) processors staffing c)

/-- The machine starts as many workers as the experiment asks for. -/
def ExperimentConfig.Staffed (processors : UInt64) (staffing : Staffing)
    (c : ExperimentConfig α) : Prop :=
  staffing (c.workerCount processors) = .ok ()

namespace ExperimentConfig

variable {c : ExperimentConfig α} {order : List Nat} {processors : UInt64} {staffing : Staffing}

omit [Json.Form α] in
theorem collected_of_perm (h : order.Perm c.indices) : c.Collected (c.runTrialsIn order) := by
  cases htrials : c.runTrialsIn order with
  | ok reports => exact .reports (forall₂_of_runTrialsIn h htrials)
  | error cause =>
      obtain ⟨i, hi, hfailed⟩ := exists_of_runTrialsIn_error htrials
      exact .failure (h.mem_iff.mp hi) hfailed

/-- **Trials that are run in an order are gathered from workers**, the single worker being no
exception. -/
theorem Outcome.gathered {outcome : Except (Failure α) (ExperimentReport α)}
    (h : c.Outcome processors staffing outcome) : c.Gathered processors staffing outcome := by
  obtain ⟨order, horder, rfl⟩ : ∃ order, order.Perm c.indices ∧
      outcome = runExperimentIn order processors staffing c := by
    cases h with
    | alone => exact ⟨c.indices, List.Perm.refl _, runExperiment_eq processors staffing c⟩
    | shared h => exact ⟨_, h, rfl⟩
  have hgathered : runExperimentIn order processors staffing c =
      runExperimentWith (fun _ => c.runTrialsIn order) processors staffing c := by
    simp only [runExperimentIn, runExperimentWith]
  rw [hgathered]
  exact .intro (collected_of_perm horder)

end ExperimentConfig

end

end Queueing
