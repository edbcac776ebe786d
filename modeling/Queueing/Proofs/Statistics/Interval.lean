import Mathlib.Algebra.Order.BigOperators.Group.List
import Queueing.Proofs.Statistics.Rearranged
import Queueing.Proofs.Statistics.Shape

/-!
# The interval around a mean

In exact real arithmetic an aggregate says of the valid results what its fields promise
(`aggregate_estimates`): the mean lies between the extremes and in the middle of its interval, the
deviation is that of the sample, and the interval has no width only if the results are all equal.
-/

namespace Queueing

/-! ## The mean lies between the extremes -/

namespace Samples

variable {K : Type} [Field K] [LinearOrder K] [IsStrictOrderedRing K] {xs : List K} {b : K}

theorem le_mean (hne : xs ≠ []) (h : ∀ x ∈ xs, b ≤ x) : b ≤ mean xs := by
  have hn : (0 : K) < xs.length := Nat.cast_pos.mpr (List.length_pos_iff.mpr hne)
  have hsum := List.card_nsmul_le_sum xs b h
  rw [nsmul_eq_mul] at hsum
  rwa [mean, le_div_iff₀ hn, mul_comm]

theorem mean_le (hne : xs ≠ []) (h : ∀ x ∈ xs, x ≤ b) : mean xs ≤ b := by
  have hn : (0 : K) < xs.length := Nat.cast_pos.mpr (List.length_pos_iff.mpr hne)
  have hsum := List.sum_le_card_nsmul xs b h
  rw [nsmul_eq_mul] at hsum
  rwa [mean, div_le_iff₀ hn, mul_comm]

end Samples

/-! ## Real aggregates -/

/-- The arithmetic of the real numbers, with their square root, their powers and their
logarithm. -/
noncomputable abbrev realArithmetic : Arithmetic ℝ :=
  exactArithmetic Roots.sqrt Roots.threeHalves Real.log

namespace Aggregate

/-- What an aggregate of real numbers says of the values. -/
structure Estimates (a : Aggregate ℝ) (values : List ℝ) : Prop where
  n_eq : a.n = values.length
  mean_eq : a.mean = values.sum / a.n
  least : a.min ∈ values ∧ ∀ x ∈ values, a.min ≤ x
  greatest : a.max ∈ values ∧ ∀ x ∈ values, x ≤ a.max
  min_le_mean : a.min ≤ a.mean
  mean_le_max : a.mean ≤ a.max
  stdDev_nonneg : 0 ≤ a.stdDev
  stdDev_sq : a.stdDev ^ 2 = (values.map fun x => (x - a.mean) ^ 2).sum / (a.n - 1)
  lower_le_mean : a.lower ≤ a.mean
  mean_le_upper : a.mean ≤ a.upper
  below : a.mean - a.lower = @halfWidth ℝ realArithmetic a
  above : a.upper - a.mean = @halfWidth ℝ realArithmetic a
  halfWidth_eq : @halfWidth ℝ realArithmetic a = 1.96 * a.stdDev / √a.n
  /-- The interval holds what is no farther from the mean than half its width. -/
  contains_iff : ∀ v, @contains ℝ realArithmetic v a = true ↔
    |v - a.mean| ≤ @halfWidth ℝ realArithmetic a
  width_eq_zero_iff : a.upper - a.lower = 0 ↔ ∀ x ∈ values, ∀ y ∈ values, x = y

variable {a : Aggregate ℝ} {values : List ℝ}

theorem halfWidth_real (a : Aggregate ℝ) : @halfWidth ℝ realArithmetic a = 1.96 * a.stdError := by
  show ((49 : ℕ) : ℝ) / ((25 : ℕ) : ℝ) * a.stdError = _
  norm_num

theorem contains_real_iff (a : Aggregate ℝ) (v : ℝ) :
    @contains ℝ realArithmetic v a = true ↔ a.lower ≤ v ∧ v ≤ a.upper := by
  simp only [contains, Bool.and_eq_true, decide_eq_true_eq]

theorem estimates_of_readFrom (hlen : 2 ≤ values.length) :
    letI := realArithmetic
    a.ReadFrom (Summary.ofList values) → a.Estimates values := by
  let _ := realArithmetic
  intro h
  have hs := Summary.describes_ofList values
  have hn : a.n = values.length := h.n_eq.trans hs.count_eq
  obtain ⟨hne, hmean⟩ := hs.mean?_eq_some_iff.mp h.mean_eq
  obtain ⟨v, hv, hroot⟩ := Option.map_eq_some_iff.mp h.stdDev_eq
  obtain ⟨-, hvariance⟩ := hs.variance?_eq_some_iff.mp hv
  obtain ⟨hv0, hspread⟩ := Summary.spread_of_variance hs hv
  have hmin := hs.min
  rw [h.min_eq] at hmin
  have hmax := hs.max
  rw [h.max_eq] at hmax
  have hdev : a.stdDev = √v := hroot.symm
  have hpos : 0 < √(a.n : ℝ) := by
    rw [Real.sqrt_pos, Nat.cast_pos, hn]
    omega
  have herror : a.stdError = a.stdDev / √a.n := h.stdError_eq
  have hlower : a.lower = a.mean - halfWidth a := h.lower_eq
  have hupper : a.upper = a.mean + halfWidth a := h.upper_eq
  have hhalf : halfWidth a = 1.96 * a.stdDev / √a.n := by
    rw [halfWidth_real, herror, mul_div_assoc]
  have hhalf0 : 0 ≤ halfWidth a := by
    rw [hhalf, hdev]
    positivity
  refine
    { n_eq := hn
      mean_eq := by rw [hmean, hn, Samples.mean]
      least := hmin
      greatest := hmax
      min_le_mean := hmean ▸ Samples.le_mean hne hmin.2
      mean_le_max := hmean ▸ Samples.mean_le hne hmax.2
      stdDev_nonneg := hdev ▸ Real.sqrt_nonneg v
      stdDev_sq := ?_
      lower_le_mean := ?_
      mean_le_upper := ?_
      below := ?_
      above := ?_
      halfWidth_eq := hhalf
      contains_iff := ?_
      width_eq_zero_iff := ?_ }
  · rw [hdev, Real.sq_sqrt hv0, hvariance, hn, hmean]
    rfl
  · linarith
  · linarith
  · linarith
  · linarith
  · intro u
    rw [contains_real_iff, hlower, hupper, abs_le]
    constructor
    · rintro ⟨hlow, hhigh⟩
      constructor <;> linarith
    · rintro ⟨hlow, hhigh⟩
      constructor <;> linarith
  · rw [← hspread, hupper, hlower, ← Real.sqrt_eq_zero hv0, ← hdev, hhalf]
    constructor
    · intro hwidth
      have hzero : 1.96 * a.stdDev / √a.n = 0 := by linarith
      rw [div_eq_zero_iff, or_iff_left hpos.ne'] at hzero
      linarith
    · intro hzero
      rw [hzero]
      ring

end Aggregate

/-- **An aggregate of two valid results or more estimates them**, in exact real arithmetic. -/
theorem aggregate_estimates (results : List (TrialResult ℝ)) :
    letI := realArithmetic
    2 ≤ (results.filterMap TrialResult.value?).length →
      ∃ a, aggregate results = .ok a ∧ a.Estimates (results.filterMap TrialResult.value?) := by
  let _ := realArithmetic
  intro henough
  rcases aggregate_cases results with ⟨-, a, ha, -⟩ | ⟨hfew, -⟩
  · exact ⟨a, ha, Aggregate.estimates_of_readFrom henough (readFrom_of_aggregate ha)⟩
  · exact absurd henough (Nat.not_le_of_lt hfew)

theorem aggregate_estimates_pair :
    letI := realArithmetic
    letI results : List (TrialResult ℝ) := [.mean 9, .degenerate, .mean 11]
    2 ≤ (results.filterMap TrialResult.value?).length ∧
      ∃ a, aggregate results = .ok a ∧ a.Estimates [9, 11] ∧ a.mean = 10 ∧ a.stdDev ^ 2 = 2 ∧
        a.upper - a.lower ≠ 0 := by
  let _ := realArithmetic
  let results : List (TrialResult ℝ) := [.mean 9, .degenerate, .mean 11]
  have henough : 2 ≤ (results.filterMap TrialResult.value?).length := Nat.le_refl 2
  obtain ⟨a, ha, hestimates⟩ := aggregate_estimates results henough
  have hvalues : a.Estimates [9, 11] := hestimates
  have hmean : a.mean = 10 := by
    rw [hvalues.mean_eq, hvalues.n_eq]
    norm_num
  refine ⟨henough, a, ha, hvalues, hmean, ?_, ?_⟩
  · rw [hvalues.stdDev_sq, hmean, hvalues.n_eq]
    norm_num
  · rw [Ne, hvalues.width_eq_zero_iff]
    norm_num

end Queueing
