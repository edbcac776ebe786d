import Mathlib.Analysis.SpecialFunctions.Pow.Real
import Queueing.Proofs.Statistics.Moments

/-!
# The shape of samples

Skewness and kurtosis are read from a summary through moments that are not corrected for the size
of the sample, and a correction that is applied afterwards. In exact real arithmetic they are what
the samples define as a whole: sums of powers of the deviations in units of the standard
deviation, over what the size of the sample leaves of it (`shape_exact`). Samples that are moved
and stretched have deviations that are stretched (`Samples.deviations_map`), so neither number
depends on where the samples lie or on their unit.
-/

namespace Queueing

/-- The powers that statistics need, in exact real arithmetic. -/
noncomputable instance : Roots ℝ where
  sqrt := Real.sqrt
  threeHalves x := x ^ (3 / 2 : ℝ)

/-! ## Samples that are moved and stretched -/

namespace Samples

section Field

variable {K : Type} [Field K]

theorem sum_map_affine (a c : K) (xs : List K) :
    (xs.map fun x => a * x + c).sum = a * xs.sum + xs.length * c := by
  induction xs with
  | nil => simp
  | cons x xs ih =>
      rw [List.map_cons, List.sum_cons, List.sum_cons, ih, List.length_cons, Nat.cast_succ]
      ring

theorem mean_map [CharZero K] (a c : K) {xs : List K} (hne : xs ≠ []) :
    mean (xs.map fun x => a * x + c) = a * mean xs + c := by
  have hn : (xs.length : K) ≠ 0 := Nat.cast_ne_zero.mpr (List.length_pos_iff.mpr hne).ne'
  rw [mean, mean, sum_map_affine, List.length_map]
  field_simp

/-- **Deviations are stretched with the samples**, and not moved. -/
theorem deviations_map [CharZero K] (k : ℕ) (a c : K) (xs : List K) :
    deviations k (xs.map fun x => a * x + c) = a ^ k * deviations k xs := by
  rcases eq_or_ne xs [] with rfl | hne
  · simp [deviations]
  · rw [deviations, mean_map a c hne, powerSum, List.map_map, deviations, powerSum,
      ← List.sum_map_mul_left]
    congr 1
    refine List.map_congr_left ?_
    intro x _
    show (a * x + c - (a * mean xs + c)) ^ k = a ^ k * (x - mean xs) ^ k
    rw [← mul_pow]
    ring

theorem sum_deviations_div (k : ℕ) (s : K) (xs : List K) :
    (xs.map fun x => ((x - mean xs) / s) ^ k).sum = deviations k xs / s ^ k := by
  simp only [div_eq_mul_inv, mul_pow, inv_pow, List.sum_map_mul_right, deviations, powerSum]

end Field

/-! ## Spread -/

noncomputable def stdDev (xs : List ℝ) : ℝ := √(deviations 2 xs / (xs.length - 1))

theorem stdDev_spec {xs : List ℝ} (hspread : ∃ x ∈ xs, ∃ y ∈ xs, x ≠ y) :
    2 ≤ xs.length ∧ 0 < deviations 2 xs ∧ 0 < stdDev xs ∧
      stdDev xs ^ 2 * (xs.length - 1) = deviations 2 xs := by
  have hlen : 2 ≤ xs.length := by
    obtain ⟨x, hx, y, hy, hne⟩ := hspread
    match xs, hx, hy with
    | [z], hx, hy =>
        exact absurd ((List.mem_singleton.mp hx).trans (List.mem_singleton.mp hy).symm) hne
    | z :: z' :: zs, _, _ => simp
  have hn : (0 : ℝ) < xs.length - 1 := by
    rw [sub_pos]
    exact_mod_cast hlen
  have hpos : 0 < deviations 2 xs := by
    refine lt_of_le_of_ne (powerSum_two_nonneg _ _) ?_
    intro hzero
    obtain ⟨x, hx, y, hy, hne⟩ := hspread
    exact hne (deviations_two_eq_zero_iff.mp hzero.symm x hx y hy)
  refine ⟨hlen, hpos, Real.sqrt_pos.mpr (div_pos hpos hn), ?_⟩
  rw [stdDev, Real.sq_sqrt (div_pos hpos hn).le, div_mul_cancel₀ _ hn.ne']

end Samples

namespace Summary

open Samples

/-! ## Powers -/

theorem sqrt_eq (x : ℝ) : Roots.sqrt x = √x := rfl

theorem threeHalves_eq (x : ℝ) : Roots.threeHalves x = x ^ (3 / 2 : ℝ) := rfl

theorem threeHalves_sq_mul (a : ℝ) {x : ℝ} (hx : 0 ≤ x) :
    Roots.threeHalves (a ^ 2 * x) = |a| ^ 3 * Roots.threeHalves x := by
  rw [threeHalves_eq, threeHalves_eq, Real.mul_rpow (sq_nonneg a) hx, ← sq_abs,
    ← Real.rpow_natCast_mul (abs_nonneg a), ← Real.rpow_natCast]
  norm_num

/-! ## The two forms of the corrections -/

theorem skewness?_of_le {s : Summary ℝ} (hcount : 3 ≤ s.count) (hm2 : s.m2 ≠ 0) :
    s.skewness? = some (√(s.count * (s.count - 1)) *
      (√s.count * s.m3 / Roots.threeHalves s.m2) / (s.count - 2)) := by
  rw [skewness?, if_neg (Nat.not_lt.mpr hcount), if_neg (by simpa using hm2)]
  simp only [Nat.cast_ofNat, sqrt_eq]

theorem kurtosis?_of_le {s : Summary ℝ} (hcount : 4 ≤ s.count) (hm2 : s.m2 ≠ 0) :
    s.kurtosis? = some ((s.count - 1) / ((s.count - 2) * (s.count - 3)) *
      ((s.count + 1) * (s.count * s.m4 / (s.m2 * s.m2) - 3) + 6)) := by
  rw [kurtosis?, if_neg (Nat.not_lt.mpr hcount), if_neg (by simpa using hm2)]
  simp only [Nat.cast_ofNat]

variable {s t : Summary ℝ} {xs : List ℝ}

/-- **The corrected skewness is the sum of the cubes of standardized deviations.** -/
theorem Describes.skewness?_eq (h : s.Describes xs) (hspread : ∃ x ∈ xs, ∃ y ∈ xs, x ≠ y)
    (hlen : 3 ≤ xs.length) :
    s.skewness? = some ((xs.length : ℝ) / ((xs.length - 1) * (xs.length - 2)) *
      (xs.map fun x => ((x - mean xs) / stdDev xs) ^ 3).sum) := by
  obtain ⟨-, hm2, hdev, hsq⟩ := stdDev_spec hspread
  rw [sum_deviations_div, skewness?_of_le (h.count_eq ▸ hlen) (h.m2_eq ▸ hm2.ne'), h.count_eq,
    h.m2_eq, h.m3_eq]
  have hn : (3 : ℝ) ≤ xs.length := by exact_mod_cast hlen
  generalize (xs.length : ℝ) = n at hn hsq ⊢
  generalize stdDev xs = d at hdev hsq ⊢
  have hroot : 0 < √(n - 1) := Real.sqrt_pos.mpr (by linarith)
  have hroot_sq : √(n - 1) ^ 2 = n - 1 := Real.sq_sqrt (by linarith)
  -- the power of the moment is a power of the two roots of which it is the product
  have hpower : Roots.threeHalves (deviations 2 xs) = d ^ 3 * √(n - 1) ^ 3 := by
    have hone : Roots.threeHalves (1 : ℝ) = 1 := Real.one_rpow _
    have hsquare : deviations 2 xs = (d * √(n - 1)) ^ 2 * 1 := by
      rw [mul_pow, hroot_sq, hsq, mul_one]
    rw [hsquare, threeHalves_sq_mul _ zero_le_one, hone, mul_one,
      abs_of_pos (mul_pos hdev hroot), mul_pow]
  have hfactor : √(n * (n - 1)) * √n = n * √(n - 1) := by
    rw [Real.sqrt_mul (by linarith), mul_right_comm, Real.mul_self_sqrt (by linarith)]
  have hleft : √(n * (n - 1)) * (√n * deviations 3 xs / (d ^ 3 * √(n - 1) ^ 3)) / (n - 2) =
      √(n * (n - 1)) * √n * deviations 3 xs / (d ^ 3 * √(n - 1) ^ 3) / (n - 2) := by
    ring
  have hn2 : n - 2 ≠ 0 := by linarith
  have hn1 : n - 1 ≠ 0 := by linarith
  rw [hpower, hleft, hfactor, show √(n - 1) ^ 3 = √(n - 1) * (n - 1) by rw [pow_succ', hroot_sq]]
  field_simp

/-- **The corrected kurtosis is the sum of the fourth powers of standardized deviations**, less
what a normal distribution has. -/
theorem Describes.kurtosis?_eq (h : s.Describes xs) (hspread : ∃ x ∈ xs, ∃ y ∈ xs, x ≠ y)
    (hlen : 4 ≤ xs.length) :
    s.kurtosis? = some ((xs.length : ℝ) * (xs.length + 1) /
        ((xs.length - 1) * (xs.length - 2) * (xs.length - 3)) *
        (xs.map fun x => ((x - mean xs) / stdDev xs) ^ 4).sum -
      3 * (xs.length - 1) ^ 2 / ((xs.length - 2) * (xs.length - 3))) := by
  obtain ⟨-, hm2, hdev, hsq⟩ := stdDev_spec hspread
  rw [sum_deviations_div, kurtosis?_of_le (h.count_eq ▸ hlen) (h.m2_eq ▸ hm2.ne'), h.count_eq,
    h.m2_eq, h.m4_eq]
  have hn : (4 : ℝ) ≤ xs.length := by exact_mod_cast hlen
  generalize (xs.length : ℝ) = n at hn hsq ⊢
  generalize stdDev xs = d at hdev hsq ⊢
  have hn1 : n - 1 ≠ 0 := by linarith
  have hn2 : n - 2 ≠ 0 := by linarith
  have hn3 : n - 3 ≠ 0 := by linarith
  rw [← hsq]
  congr 1
  field_simp
  ring

/-! ## Samples in another place and another unit -/

/-- The moments of a summary are those of another one in another unit. -/
structure Stretched (a : ℝ) (s t : Summary ℝ) : Prop where
  count_eq : t.count = s.count
  m2_eq : t.m2 = a ^ 2 * s.m2
  m3_eq : t.m3 = a ^ 3 * s.m3
  m4_eq : t.m4 = a ^ 4 * s.m4

theorem stretched_ofList (a c : ℝ) (xs : List ℝ) :
    Stretched a (ofList xs) (ofList (xs.map fun x => a * x + c)) := by
  have h := describes_ofList xs
  have h' := describes_ofList (xs.map fun x => a * x + c)
  refine ⟨?_, ?_, ?_, ?_⟩
  · rw [h.count_eq, h'.count_eq, List.length_map]
  · rw [h.m2_eq, h'.m2_eq, deviations_map]
  · rw [h.m3_eq, h'.m3_eq, deviations_map]
  · rw [h.m4_eq, h'.m4_eq, deviations_map]

/-- Another unit does not change the skewness, and its sign does. -/
theorem Stretched.skewness? {a : ℝ} (h : Stretched a s t) (ha : a ≠ 0) (hm2 : 0 ≤ s.m2) :
    t.skewness? = s.skewness?.map (a / |a| * ·) := by
  have habs : |a| ≠ 0 := abs_ne_zero.mpr ha
  have hzero : t.m2 = 0 ↔ s.m2 = 0 := by
    rw [h.m2_eq, mul_eq_zero, or_iff_right (pow_ne_zero 2 ha)]
  have hcube : a ^ 3 / |a| ^ 3 = a / |a| := by
    rw [pow_succ, pow_succ |a|, sq_abs]
    field_simp
  rw [Summary.skewness?, Summary.skewness?, h.count_eq, h.m3_eq]
  simp only [beq_iff_eq, hzero]
  split_ifs
  · rfl
  · rw [Option.map_some, mul_zero]
  · rw [h.m2_eq, threeHalves_sq_mul a hm2, Option.map_some, ← hcube]
    congr 1
    ring

theorem Stretched.kurtosis? {a : ℝ} (h : Stretched a s t) (ha : a ≠ 0) :
    t.kurtosis? = s.kurtosis? := by
  have hzero : t.m2 = 0 ↔ s.m2 = 0 := by
    rw [h.m2_eq, mul_eq_zero, or_iff_right (pow_ne_zero 2 ha)]
  rw [Summary.kurtosis?, Summary.kurtosis?, h.count_eq, h.m4_eq]
  simp only [beq_iff_eq, hzero]
  split_ifs with hfew hnone
  · rfl
  · rfl
  · rw [h.m2_eq]
    congr 4
    field_simp

/-! ## The shape -/

/-- **Skewness and kurtosis are those of the samples as a whole**, in exact real arithmetic, if
they are not all equal. They depend neither on the place of the samples nor on their unit, and of
samples with the opposite sign the skewness has the opposite sign. -/
theorem shape_exact (xs : List ℝ) :
    ((∃ x ∈ xs, ∃ y ∈ xs, x ≠ y) → ∃ s, 0 < s ∧ (ofList xs).mean? = some (mean xs) ∧
      (ofList xs).stdDev? = some s ∧ (ofList xs).variance? = some (s ^ 2) ∧
      (3 ≤ xs.length → (ofList xs).skewness? =
        some ((xs.length : ℝ) / ((xs.length - 1) * (xs.length - 2)) *
          (xs.map fun x => ((x - mean xs) / s) ^ 3).sum)) ∧
      (4 ≤ xs.length → (ofList xs).kurtosis? =
        some ((xs.length : ℝ) * (xs.length + 1) /
            ((xs.length - 1) * (xs.length - 2) * (xs.length - 3)) *
            (xs.map fun x => ((x - mean xs) / s) ^ 4).sum -
          3 * (xs.length - 1) ^ 2 / ((xs.length - 2) * (xs.length - 3))))) ∧
    (∀ c, (ofList (xs.map (· + c))).skewness? = (ofList xs).skewness? ∧
      (ofList (xs.map (· + c))).kurtosis? = (ofList xs).kurtosis?) ∧
    (∀ a, 0 < a → (ofList (xs.map (a * ·))).skewness? = (ofList xs).skewness? ∧
      (ofList (xs.map (a * ·))).kurtosis? = (ofList xs).kurtosis?) ∧
    (ofList (xs.map (- ·))).skewness? = (ofList xs).skewness?.map (- ·) ∧
    (ofList (xs.map (- ·))).kurtosis? = (ofList xs).kurtosis? := by
  have h := describes_ofList xs
  have hm2 : 0 ≤ (ofList xs).m2 := h.m2_eq ▸ powerSum_two_nonneg _ _
  refine ⟨?_, ?_, ?_, ?_⟩
  · intro hspread
    obtain ⟨hlen, -, hdev, hsq⟩ := stdDev_spec hspread
    have hvariance : (ofList xs).variance? = some (deviations 2 xs / (xs.length - 1)) :=
      h.variance?_eq_some_iff.mpr ⟨hlen, rfl⟩
    have hsquare : stdDev xs ^ 2 = deviations 2 xs / (xs.length - 1) := by
      have hn : (xs.length : ℝ) - 1 ≠ 0 := by
        rw [sub_ne_zero]
        exact_mod_cast (Nat.lt_of_succ_le hlen).ne'
      rw [← hsq, mul_div_cancel_right₀ _ hn]
    refine ⟨Samples.stdDev xs, hdev, ?_, ?_, ?_, h.skewness?_eq hspread, h.kurtosis?_eq hspread⟩
    · refine h.mean?_eq_some_iff.mpr ⟨?_, rfl⟩
      rintro rfl
      cases hlen
    · rw [stdDev?, hvariance]
      rfl
    · rw [hvariance, hsquare]
  · intro c
    have hmoved := stretched_ofList 1 c xs
    simp only [one_mul] at hmoved
    refine ⟨(hmoved.skewness? one_ne_zero hm2).trans ?_, hmoved.kurtosis? one_ne_zero⟩
    simp
  · intro a ha
    have hscaled := stretched_ofList a 0 xs
    simp only [add_zero] at hscaled
    refine ⟨(hscaled.skewness? ha.ne' hm2).trans ?_, hscaled.kurtosis? ha.ne'⟩
    simp [abs_of_pos ha, ha.ne']
  · have hnegated := stretched_ofList (-1) 0 xs
    simp only [neg_one_mul, add_zero] at hnegated
    have hne : (-1 : ℝ) ≠ 0 := neg_ne_zero.mpr one_ne_zero
    refine ⟨(hnegated.skewness? hne hm2).trans ?_, hnegated.kurtosis? hne⟩
    simp

/-- Three samples at zero and one at four: their mean is one, and their standard deviation two. -/
theorem shape_exact_lopsided :
    (∃ x ∈ [0, 0, 0, (4 : ℝ)], ∃ y ∈ [0, 0, 0, (4 : ℝ)], x ≠ y) ∧
      (ofList [0, 0, 0, (4 : ℝ)]).skewness? = some 2 ∧
      (ofList [0, 0, 0, (4 : ℝ)]).kurtosis? = some 4 ∧
      (ofList ([0, 0, 0, (4 : ℝ)].map (- ·))).skewness? = some (-2) := by
  have hspread : ∃ x ∈ [0, 0, 0, (4 : ℝ)], ∃ y ∈ [0, 0, 0, (4 : ℝ)], x ≠ y :=
    ⟨0, by simp, 4, by simp, by norm_num⟩
  obtain ⟨hshape, -, -, hnegated, -⟩ := shape_exact [0, 0, 0, (4 : ℝ)]
  obtain ⟨s, hpos, -, -, hvariance, hskewness, hkurtosis⟩ := hshape hspread
  have hmean : mean [0, 0, 0, (4 : ℝ)] = 1 := by norm_num [mean]
  have hs : s = 2 := by
    obtain ⟨-, hsq⟩ := (describes_ofList [0, 0, 0, (4 : ℝ)]).variance?_eq_some_iff.mp hvariance
    norm_num [deviations, hmean] at hsq
    nlinarith
  have hthree : (ofList [0, 0, 0, (4 : ℝ)]).skewness? = some 2 := by
    rw [hskewness (by decide), hmean, hs]
    norm_num
  refine ⟨hspread, hthree, ?_, ?_⟩
  · rw [hkurtosis (by decide), hmean, hs]
    norm_num
  · rw [hnegated, hthree]
    rfl

end Summary

end Queueing
