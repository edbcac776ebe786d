import Queueing.Proofs.Statistics.Summary
import Queueing.Statistics.Aggregate

/-!
# When there is an aggregate

The valid results decide alone: two of them or more have an aggregate, which counts them, and
fewer have none (`aggregate_cases`). The results that are left out are the degenerate ones.
-/

namespace Queueing

namespace TrialResult

variable {α : Type}

/-- A result has a value or is degenerate, and never both. -/
theorem length_values (results : List (TrialResult α)) :
    (results.filterMap value?).length + results.countP isDegenerate = results.length := by
  induction results with
  | nil => rfl
  | cons result results ih =>
      cases result with
      | mean value =>
          have hvalue : value? (mean value) = some value := rfl
          have hvalid : ¬ (mean value).isDegenerate = true := Bool.false_ne_true
          rw [List.filterMap_cons_some hvalue, List.countP_cons_of_neg hvalid, List.length_cons,
            List.length_cons, ← ih]
          omega
      | degenerate =>
          have hvalue : value? (degenerate : TrialResult α) = none := rfl
          have hvalid : (degenerate : TrialResult α).isDegenerate = true := rfl
          rw [List.filterMap_cons_none hvalue, List.countP_cons_of_pos hvalid, List.length_cons,
            ← ih]
          rfl

theorem exists_of_values_eq {results : List (TrialResult α)} {m : α}
    (h : results.filterMap value? = [m]) :
    ∃ i, ∀ (j : Nat) (x : α), results[j]? = some (mean x) ↔ j = i ∧ x = m := by
  induction results with
  | nil => cases h
  | cons result results ih =>
      cases result with
      | mean value =>
          have hvalue : value? (mean value) = some value := rfl
          rw [List.filterMap_cons_some hvalue] at h
          obtain ⟨rfl, hothers⟩ := List.cons.inj h
          refine ⟨0, ?_⟩
          intro j x
          cases j with
          | zero =>
              rw [List.getElem?_cons_zero, Option.some.injEq, mean.injEq]
              exact ⟨fun heq => ⟨rfl, heq.symm⟩, fun heq => heq.2.symm⟩
          | succ j =>
              rw [List.getElem?_cons_succ]
              constructor
              · intro hj
                have hmem : x ∈ results.filterMap value? :=
                  List.mem_filterMap.mpr ⟨mean x, List.mem_of_getElem? hj, rfl⟩
                rw [hothers] at hmem
                cases hmem
              · rintro ⟨hj, -⟩
                cases hj
      | degenerate =>
          have hvalue : value? (degenerate : TrialResult α) = none := rfl
          rw [List.filterMap_cons_none hvalue] at h
          obtain ⟨i, hi⟩ := ih h
          refine ⟨i + 1, ?_⟩
          intro j x
          cases j with
          | zero =>
              rw [List.getElem?_cons_zero]
              constructor
              · intro heq
                cases heq
              · rintro ⟨heq, -⟩
                cases heq
          | succ j =>
              rw [List.getElem?_cons_succ, hi, Nat.succ.injEq]

end TrialResult

variable {α : Type} [Arithmetic α]

/-- **Two valid results are needed for an aggregate, and enough.** -/
theorem aggregate_cases (results : List (TrialResult α)) :
    (2 ≤ (results.filterMap TrialResult.value?).length ∧
      ∃ a, aggregate results = .ok a ∧ a.n = (results.filterMap TrialResult.value?).length) ∨
    ((results.filterMap TrialResult.value?).length < 2 ∧
      aggregate results = .error
        (.insufficientSamples (results.filterMap TrialResult.value?).length requiredSamples)) := by
  unfold aggregate
  generalize results.filterMap TrialResult.value? = values
  have hcount : (Summary.ofList values).count = values.length := Summary.count_ofList values
  by_cases henough : 2 ≤ values.length
  · left
    have hne : values ≠ [] := by
      rintro rfl
      cases henough
    obtain ⟨least, greatest, hmin, hmax⟩ := Summary.exists_extremes hne
    obtain ⟨stdDev, hdev⟩ := Summary.stdDev?_of_lt (s := Summary.ofList values)
      (hcount ▸ henough)
    have hmean : (Summary.ofList values).mean? = some (Summary.ofList values).m1 :=
      if_pos (hcount ▸ Nat.lt_of_lt_of_le Nat.zero_lt_two henough)
    simp only [hmin, hmax, hdev, hmean]
    exact ⟨henough, _, rfl, hcount⟩
  · right
    have hdev : (Summary.ofList values).stdDev? = none :=
      Summary.stdDev?_of_not_lt (hcount ▸ henough)
    refine ⟨Nat.lt_of_not_le henough, ?_⟩
    simp only [hdev, hcount]
    cases (Summary.ofList values).mean? <;> rfl

/-- An aggregate is read from the summary of the valid results. -/
structure Aggregate.ReadFrom (a : Aggregate α) (s : Summary α) : Prop where
  n_eq : a.n = s.count
  mean_eq : s.mean? = some a.mean
  stdDev_eq : s.stdDev? = some a.stdDev
  min_eq : s.min = some a.min
  max_eq : s.max = some a.max
  stdError_eq : a.stdError = a.stdDev / Roots.sqrt ((a.n : Nat) : α)
  lower_eq : a.lower = a.mean - a.halfWidth
  upper_eq : a.upper = a.mean + a.halfWidth

theorem readFrom_of_aggregate {results : List (TrialResult α)} {a : Aggregate α}
    (h : aggregate results = .ok a) :
    a.ReadFrom (Summary.ofList (results.filterMap TrialResult.value?)) := by
  simp only [aggregate] at h
  split at h
  next hmean hdev hmin hmax =>
    cases h
    exact ⟨rfl, hmean, hdev, hmin, hmax, rfl, rfl, rfl⟩
  next => cases h

end Queueing
