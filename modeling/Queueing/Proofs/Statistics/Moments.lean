import Mathlib.Algebra.Order.Field.Rat
import Queueing.Proofs.Statistics.Samples
import Queueing.Proofs.Statistics.Summary

/-!
# A summary holds the moments of its samples

A summary is built in one pass, each moment from lower ones that were updated before. In exact
arithmetic it holds what the samples define as a whole (`Summary.Describes`): their number, the
least and the greatest one, the mean, and the sums of the second to fourth powers of the
deviations from it. One more sample keeps this, and so does merging; both are read off the
deviations of two samples taken together (`Samples.deviations_append`).
-/

namespace Queueing.Summary

open Samples

/-! ## Extremes -/

/-- The extreme of samples in an order: one of them that stands before all of them. -/
def Extreme {K : Type} (r : K → K → Prop) (xs : List K) : Option K → Prop
  | none => xs = []
  | some m => m ∈ xs ∧ ∀ x ∈ xs, r m x

section Extreme

variable {K : Type} {r : K → K → Prop}

theorem Extreme.singleton {y : K} (hrefl : r y y) : Extreme r [y] (some y) := by
  refine ⟨List.mem_singleton_self y, ?_⟩
  intro x hx
  rwa [List.mem_singleton.mp hx]

theorem Extreme.merge {xs ys : List K} {m m' : Option K} (h : Extreme r xs m)
    (h' : Extreme r ys m') {pick : K → K → K} (hpick : ∀ x y, pick x y = x ∨ pick x y = y)
    (htrans : ∀ x y z, r x y → r y z → r x z) (hleft : ∀ x y, r (pick x y) x)
    (hright : ∀ x y, r (pick x y) y) : Extreme r (xs ++ ys) (mergeExtreme pick m m') := by
  cases m with
  | none =>
      obtain rfl : xs = [] := h
      cases m' <;> exact h'
  | some m =>
      cases m' with
      | none =>
          obtain rfl : ys = [] := h'
          rw [List.append_nil]
          exact h
      | some m' =>
          refine ⟨?_, ?_⟩
          · rcases hpick m m' with hm | hm
            · rw [hm]
              exact List.mem_append_left _ h.1
            · rw [hm]
              exact List.mem_append_right _ h'.1
          · intro x hx
            rcases List.mem_append.mp hx with hx | hx
            · exact htrans _ _ _ (hleft m m') (h.2 x hx)
            · exact htrans _ _ _ (hright m m') (h'.2 x hx)

theorem Extreme.unique (hanti : ∀ {x y}, r x y → r y x → x = y) {xs ys : List K}
    (hperm : xs.Perm ys) {m m' : Option K} (h : Extreme r xs m) (h' : Extreme r ys m') :
    m = m' := by
  cases m with
  | none =>
      obtain rfl : xs = [] := h
      cases m' with
      | none => rfl
      | some m' => exact absurd (hperm.mem_iff.mpr h'.1) List.not_mem_nil
  | some m =>
      cases m' with
      | none =>
          obtain rfl : ys = [] := h'
          exact absurd (hperm.mem_iff.mp h.1) List.not_mem_nil
      | some m' =>
          have hle := h.2 m' (hperm.mem_iff.mpr h'.1)
          have hge := h'.2 m (hperm.mem_iff.mp h.1)
          exact congrArg some (hanti hle hge)

end Extreme

/-! ## What a summary says of samples -/

variable {K : Type} [Field K] [LinearOrder K]

/-- A summary holds the number, the extremes and the moments of these samples. -/
structure Describes (s : Summary K) (xs : List K) : Prop where
  count_eq : s.count = xs.length
  min : Extreme (· ≤ ·) xs s.min
  max : Extreme (· ≥ ·) xs s.max
  m1_eq : s.m1 = mean xs
  m2_eq : s.m2 = deviations 2 xs
  m3_eq : s.m3 = deviations 3 xs
  m4_eq : s.m4 = deviations 4 xs

theorem describes_empty : (empty : Summary K).Describes [] := by
  refine ⟨rfl, rfl, rfl, ?_, rfl, rfl, rfl⟩
  rw [mean, List.sum_nil, zero_div]
  rfl

variable {s t : Summary K} {xs ys : List K}

theorem Describes.unique (h : s.Describes xs)
    (h' : t.Describes ys) (hperm : xs.Perm ys) : s = t := by
  have hcount : s.count = t.count := by
    rw [h.count_eq, h'.count_eq, hperm.length_eq]
  have hmin : s.min = t.min := h.min.unique le_antisymm hperm h'.min
  have hmax : s.max = t.max := h.max.unique (fun hxy hyx => le_antisymm hyx hxy) hperm h'.max
  have hm1 : s.m1 = t.m1 := by
    rw [h.m1_eq, h'.m1_eq, mean_perm hperm]
  have hm2 : s.m2 = t.m2 := by
    rw [h.m2_eq, h'.m2_eq, deviations_perm hperm]
  have hm3 : s.m3 = t.m3 := by
    rw [h.m3_eq, h'.m3_eq, deviations_perm hperm]
  have hm4 : s.m4 = t.m4 := by
    rw [h.m4_eq, h'.m4_eq, deviations_perm hperm]
  exact Summary.mk.injEq .. ▸ ⟨hcount, hmin, hmax, hm1, hm2, hm3, hm4⟩

/-! ## What is read from a summary -/

theorem Describes.mean?_eq_some_iff (h : s.Describes xs) {m : K} :
    s.mean? = some m ↔ xs ≠ [] ∧ m = mean xs := by
  rw [mean?, h.count_eq, h.m1_eq, ← List.length_pos_iff, Option.ite_none_right_eq_some,
    Option.some_inj, eq_comm (a := m)]

theorem Describes.variance?_eq_some_iff (h : s.Describes xs) {v : K} :
    s.variance? = some v ↔ 2 ≤ xs.length ∧ v = deviations 2 xs / (xs.length - 1) := by
  rw [variance?, h.count_eq, h.m2_eq, Option.ite_none_right_eq_some, Option.some_inj,
    eq_comm (a := v)]
  refine and_congr_right ?_
  intro hlt
  rw [Nat.cast_sub hlt.le, Nat.cast_one]

/-! ## One pass, and merging -/

section Exact

variable [IsStrictOrderedRing K]

omit [Field K] [IsStrictOrderedRing K] in
theorem min_merge {m m' : Option K} (h : Extreme (· ≤ ·) xs m) (h' : Extreme (· ≤ ·) ys m') :
    Extreme (· ≤ ·) (xs ++ ys) (mergeExtreme Min.min m m') :=
  h.merge h' min_choice (fun _ _ _ => le_trans) min_le_left min_le_right

omit [Field K] [IsStrictOrderedRing K] in
theorem max_merge {m m' : Option K} (h : Extreme (· ≥ ·) xs m) (h' : Extreme (· ≥ ·) ys m') :
    Extreme (· ≥ ·) (xs ++ ys) (mergeExtreme Max.max m m') :=
  h.merge h' max_choice (fun _ _ _ hxy hyz => le_trans hyz hxy) le_max_left le_max_right

theorem Describes.add (h : s.Describes xs) (y : K) : (s.add y).Describes (xs ++ [y]) := by
  have hn : (xs.length : K) + ([y].length : K) ≠ 0 := by
    simpa using xs.length.cast_add_one_ne_zero (R := K)
  -- the sample that is added has no deviations of its own
  have hnone : ∀ {k : ℕ}, k ≠ 0 → deviations k [y] = 0 := fun hk => deviations_singleton hk y
  refine ⟨?_, ?_, ?_, ?_, ?_, ?_, ?_⟩
  · simp only [Summary.add, h.count_eq, List.length_append, List.length_singleton]
  · have hmin := min_merge h.min (Extreme.singleton (le_refl y))
    unfold Summary.add
    cases hs : s.min <;> rw [hs] at hmin <;> exact hmin
  · have hmax := max_merge h.max (Extreme.singleton (le_refl y))
    unfold Summary.add
    cases hs : s.max <;> rw [hs] at hmax <;> exact hmax
  · rw [(mean_append hn).1, drift, mean_singleton, List.length_singleton]
    simp only [Summary.add, h.count_eq, h.m1_eq, Nat.cast_add, Nat.cast_one, one_mul]
  · rw [deviations_two_append hn, hnone two_ne_zero, drift, mean_singleton,
      List.length_singleton]
    simp only [Summary.add, h.count_eq, h.m1_eq, h.m2_eq, Nat.cast_add, Nat.cast_one]
    field_simp
    ring
  · rw [deviations_three_append hn, hnone two_ne_zero, hnone three_ne_zero, drift, mean_singleton,
      List.length_singleton]
    simp only [Summary.add, h.count_eq, h.m1_eq, h.m2_eq, h.m3_eq, Nat.cast_add, Nat.cast_one,
      Nat.cast_ofNat]
    field_simp
    ring
  · rw [deviations_four_append hn, hnone two_ne_zero, hnone three_ne_zero, hnone four_ne_zero,
      drift, mean_singleton, List.length_singleton]
    simp only [Summary.add, h.count_eq, h.m1_eq, h.m2_eq, h.m3_eq, h.m4_eq, Nat.cast_add,
      Nat.cast_one, Nat.cast_ofNat]
    field_simp
    ring

theorem Describes.merge (h : s.Describes xs) (h' : t.Describes ys) :
    (s.merge t).Describes (xs ++ ys) := by
  unfold Summary.merge
  split
  · next hnone =>
    obtain rfl : ys = [] := List.eq_nil_of_length_eq_zero (h'.count_eq.symm.trans hnone)
    rw [List.append_nil]
    exact h
  · next hsome =>
    split
    · next hnone =>
      obtain rfl : xs = [] := List.eq_nil_of_length_eq_zero (h.count_eq.symm.trans hnone)
      exact h'
    · have hn : (xs.length + ys.length : K) ≠ 0 := by
        rw [← Nat.cast_add, Nat.cast_ne_zero, ← h.count_eq, ← h'.count_eq]
        omega
      refine ⟨?_, min_merge h.min h'.min, max_merge h.max h'.max, ?_, ?_, ?_, ?_⟩
      · simp only [h.count_eq, h'.count_eq, List.length_append]
      · rw [(mean_append hn).1, drift]
        simp only [h.count_eq, h'.count_eq, h.m1_eq, h'.m1_eq, Nat.cast_add]
      · rw [deviations_two_append hn, drift]
        simp only [h.count_eq, h'.count_eq, h.m1_eq, h'.m1_eq, h.m2_eq, h'.m2_eq, Nat.cast_add]
        field_simp
      · rw [deviations_three_append hn, drift]
        simp only [h.count_eq, h'.count_eq, h.m1_eq, h'.m1_eq, h.m2_eq, h'.m2_eq, h.m3_eq,
          h'.m3_eq, Nat.cast_add, Nat.cast_ofNat]
        field_simp
        ring
      · rw [deviations_four_append hn, drift]
        simp only [h.count_eq, h'.count_eq, h.m1_eq, h'.m1_eq, h.m2_eq, h'.m2_eq, h.m3_eq,
          h'.m3_eq, h.m4_eq, h'.m4_eq, Nat.cast_add, Nat.cast_ofNat]
        field_simp
        ring

theorem Describes.extend (h : s.Describes xs) (ys : List K) :
    (s.extend ys).Describes (xs ++ ys) := by
  induction ys generalizing s xs with
  | nil =>
      rw [List.append_nil]
      exact h
  | cons y ys ih =>
      rw [extend_cons, List.append_cons]
      exact ih (h.add y)

theorem describes_ofList (xs : List K) : (ofList xs).Describes xs := describes_empty.extend xs

theorem spread_of_variance {v : K} (h : s.Describes xs) (hv : s.variance? = some v) :
    0 ≤ v ∧ (v = 0 ↔ ∀ x ∈ xs, ∀ y ∈ xs, x = y) := by
  obtain ⟨hlen, rfl⟩ := h.variance?_eq_some_iff.mp hv
  have hpos : (0 : K) < xs.length - 1 := by
    rw [sub_pos]
    exact_mod_cast hlen
  refine ⟨div_nonneg (powerSum_two_nonneg _ _) hpos.le, ?_⟩
  rw [div_eq_zero_iff, or_iff_left hpos.ne', deviations_two_eq_zero_iff]

/-- **A summary that was built in one pass holds the moments of its samples**, in exact
arithmetic. Its variance, which there is from two samples on, is zero only if they are all
equal. -/
theorem ofList_exact (xs : List K) :
    (ofList xs).Describes xs ∧
      (∀ m, (ofList xs).mean? = some m ↔ xs ≠ [] ∧ m = mean xs) ∧
      (∀ v, (ofList xs).variance? = some v ↔
        2 ≤ xs.length ∧ v = deviations 2 xs / (xs.length - 1)) ∧
      ∀ v, (ofList xs).variance? = some v → 0 ≤ v ∧ (v = 0 ↔ ∀ x ∈ xs, ∀ y ∈ xs, x = y) := by
  have h := describes_ofList xs
  exact ⟨h, fun _ => h.mean?_eq_some_iff, fun _ => h.variance?_eq_some_iff,
    fun _ hv => spread_of_variance h hv⟩

end Exact

theorem ofList_exact_triple :
    (ofList [1, 2, 9] : Summary ℚ) = ⟨3, some 1, some 9, 4, 38, 90, 722⟩ ∧
      (ofList [1, 2, 9] : Summary ℚ).Describes [1, 2, 9] ∧
      (ofList [1, 2, 9] : Summary ℚ).variance? = some 19 ∧
      ((19 : ℚ) = 0 ↔ ∀ x ∈ [1, 2, (9 : ℚ)], ∀ y ∈ [1, 2, (9 : ℚ)], x = y) := by
  obtain ⟨hdescribes, -, -, hspread⟩ := ofList_exact [1, 2, (9 : ℚ)]
  have hvariance : (ofList [1, 2, 9] : Summary ℚ).variance? = some 19 := by decide +kernel
  exact ⟨by decide +kernel, hdescribes, hvariance, (hspread 19 hvariance).2⟩

end Queueing.Summary
