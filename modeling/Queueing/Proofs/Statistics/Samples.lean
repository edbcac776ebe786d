import Mathlib.Algebra.BigOperators.Group.List.Basic
import Mathlib.Algebra.Order.Field.Basic
import Mathlib.Data.Nat.Choose.Sum
import Mathlib.Tactic.FieldSimp
import Mathlib.Tactic.Ring

/-!
# Moments of samples

The mean of samples and the sums of the powers of their deviations from it, as they are defined
for a whole list in exact arithmetic. The center of such a sum is moved by the binomial theorem
(`powerSum_add`), and a deviation from the mean adds up to nothing; so the deviations of two
samples taken together are told by those of each one and by how far their means lie apart
(`deviations_append`).
-/

namespace Queueing.Samples

section Field

variable {K : Type} [Field K]

/-- The arithmetic mean, which is zero if there are no samples. -/
def mean (xs : List K) : K := xs.sum / xs.length

/-- The sum of the powers of the distances from a center. -/
def powerSum (k : ℕ) (center : K) (xs : List K) : K := (xs.map fun x => (x - center) ^ k).sum

def deviations (k : ℕ) (xs : List K) : K := powerSum k (mean xs) xs

/-! ## Power sums -/

@[simp] theorem powerSum_nil (k : ℕ) (c : K) : powerSum k c [] = 0 := rfl

@[simp] theorem powerSum_cons (k : ℕ) (c x : K) (xs : List K) :
    powerSum k c (x :: xs) = (x - c) ^ k + powerSum k c xs := by
  rw [powerSum, List.map_cons, List.sum_cons]
  rfl

theorem powerSum_append (k : ℕ) (c : K) (xs ys : List K) :
    powerSum k c (xs ++ ys) = powerSum k c xs + powerSum k c ys := by
  rw [powerSum, List.map_append, List.sum_append]
  rfl

theorem powerSum_zero (c : K) (xs : List K) : powerSum 0 c xs = xs.length := by
  simp [powerSum]

theorem powerSum_one (c : K) (xs : List K) : powerSum 1 c xs = xs.sum - xs.length * c := by
  induction xs with
  | nil => simp
  | cons x xs ih =>
      rw [powerSum_cons, ih, List.sum_cons, List.length_cons, Nat.cast_succ]
      ring

/-- **The center of a power sum is moved by the binomial theorem.** -/
theorem powerSum_add (k : ℕ) (c d : K) (xs : List K) : powerSum k (c + d) xs =
    ∑ j ∈ Finset.range (k + 1), powerSum j c xs * (-d) ^ (k - j) * k.choose j := by
  induction xs with
  | nil => simp
  | cons x xs ih =>
      rw [powerSum_cons, ih, show x - (c + d) = (x - c) + -d by ring, add_pow,
        ← Finset.sum_add_distrib]
      refine Finset.sum_congr rfl ?_
      intro j _
      rw [powerSum_cons]
      ring

/-! ## A single sample, and samples rearranged -/

theorem mean_singleton (y : K) : mean [y] = y := by simp [mean]

theorem deviations_singleton {k : ℕ} (hk : k ≠ 0) (y : K) : deviations k [y] = 0 := by
  simp [deviations, mean_singleton, hk]

variable {xs ys : List K}

theorem mean_perm (h : xs.Perm ys) : mean xs = mean ys := by
  rw [mean, mean, h.sum_eq, h.length_eq]

theorem deviations_perm (h : xs.Perm ys) (k : ℕ) : deviations k xs = deviations k ys := by
  rw [deviations, deviations, mean_perm h]
  exact (h.map _).sum_eq

/-! ## Around the mean -/

section Mean

variable [CharZero K]

theorem length_mul_mean (xs : List K) : xs.length * mean xs = xs.sum := by
  cases xs with
  | nil => simp
  | cons x xs =>
      have hn : ((x :: xs).length : K) ≠ 0 := Nat.cast_ne_zero.mpr (Nat.succ_ne_zero _)
      rw [mean]
      field_simp

theorem powerSum_one_mean (xs : List K) : powerSum 1 (mean xs) xs = 0 := by
  rw [powerSum_one, length_mul_mean, sub_self]

theorem powerSum_two_mean_add (d : K) (xs : List K) :
    powerSum 2 (mean xs + d) xs = deviations 2 xs + xs.length * d ^ 2 := by
  simp only [powerSum_add, Finset.sum_range_succ, Finset.sum_range_zero, powerSum_zero,
    powerSum_one_mean, deviations, Nat.choose]
  push_cast
  ring

theorem powerSum_three_mean_add (d : K) (xs : List K) : powerSum 3 (mean xs + d) xs =
    deviations 3 xs - 3 * d * deviations 2 xs - xs.length * d ^ 3 := by
  simp only [powerSum_add, Finset.sum_range_succ, Finset.sum_range_zero, powerSum_zero,
    powerSum_one_mean, deviations, Nat.choose]
  push_cast
  ring

theorem powerSum_four_mean_add (d : K) (xs : List K) : powerSum 4 (mean xs + d) xs =
    deviations 4 xs - 4 * d * deviations 3 xs + 6 * d ^ 2 * deviations 2 xs +
      xs.length * d ^ 4 := by
  simp only [powerSum_add, Finset.sum_range_succ, Finset.sum_range_zero, powerSum_zero,
    powerSum_one_mean, deviations, Nat.choose]
  push_cast
  ring

/-! ## Two samples together -/

/-- How far the mean of both samples lies from the mean of the first, for each sample of the
second. -/
def drift (xs ys : List K) : K := (mean ys - mean xs) / (xs.length + ys.length)

theorem mean_append (h : (xs.length + ys.length : K) ≠ 0) :
    mean (xs ++ ys) = mean xs + ys.length * drift xs ys ∧
      mean (xs ++ ys) = mean ys + -(xs.length * drift xs ys) := by
  have hmean : mean (xs ++ ys) =
      (xs.length * mean xs + ys.length * mean ys) / (xs.length + ys.length) := by
    rw [mean, List.sum_append, length_mul_mean, length_mul_mean, List.length_append, Nat.cast_add]
  constructor
  · rw [hmean, drift]
    field_simp
    ring
  · rw [hmean, drift]
    field_simp
    ring

/-- **The deviations of two samples together** are those of each one from a mean that is moved
towards the other. -/
theorem deviations_append (h : (xs.length + ys.length : K) ≠ 0) (k : ℕ) :
    deviations k (xs ++ ys) = powerSum k (mean xs + ys.length * drift xs ys) xs +
      powerSum k (mean ys + -(xs.length * drift xs ys)) ys := by
  obtain ⟨hxs, hys⟩ := mean_append h
  rw [deviations, powerSum_append, ← hxs, ← hys]

theorem deviations_two_append (h : (xs.length + ys.length : K) ≠ 0) :
    deviations 2 (xs ++ ys) = deviations 2 xs + deviations 2 ys +
      xs.length * ys.length * (xs.length + ys.length) * drift xs ys ^ 2 := by
  rw [deviations_append h, powerSum_two_mean_add, powerSum_two_mean_add]
  ring

theorem deviations_three_append (h : (xs.length + ys.length : K) ≠ 0) :
    deviations 3 (xs ++ ys) = deviations 3 xs + deviations 3 ys +
      xs.length * ys.length * (xs.length ^ 2 - ys.length ^ 2) * drift xs ys ^ 3 +
      3 * (xs.length * deviations 2 ys - ys.length * deviations 2 xs) * drift xs ys := by
  rw [deviations_append h, powerSum_three_mean_add, powerSum_three_mean_add]
  ring

theorem deviations_four_append (h : (xs.length + ys.length : K) ≠ 0) :
    deviations 4 (xs ++ ys) = deviations 4 xs + deviations 4 ys +
      xs.length * ys.length * (xs.length ^ 3 + ys.length ^ 3) * drift xs ys ^ 4 +
      6 * (xs.length ^ 2 * deviations 2 ys + ys.length ^ 2 * deviations 2 xs) *
        drift xs ys ^ 2 +
      4 * (xs.length * deviations 3 ys - ys.length * deviations 3 xs) * drift xs ys := by
  rw [deviations_append h, powerSum_four_mean_add, powerSum_four_mean_add]
  ring

end Mean

end Field

/-! ## Spread -/

section Spread

variable {K : Type} [Field K] [LinearOrder K] [IsStrictOrderedRing K]

theorem powerSum_two_nonneg (c : K) (xs : List K) : 0 ≤ powerSum 2 c xs := by
  induction xs with
  | nil => exact le_rfl
  | cons x xs ih =>
      rw [powerSum_cons]
      exact add_nonneg (sq_nonneg _) ih

theorem powerSum_two_eq_zero_iff {c : K} {xs : List K} :
    powerSum 2 c xs = 0 ↔ ∀ x ∈ xs, x = c := by
  induction xs with
  | nil => simp
  | cons x xs ih =>
      rw [powerSum_cons, add_eq_zero_iff_of_nonneg (sq_nonneg _) (powerSum_two_nonneg c xs), ih,
        sq_eq_zero_iff, sub_eq_zero, List.forall_mem_cons]

theorem mean_of_forall_eq {xs : List K} {c : K} (hne : xs ≠ []) (h : ∀ x ∈ xs, x = c) :
    mean xs = c := by
  have hn : (xs.length : K) ≠ 0 := Nat.cast_ne_zero.mpr (List.length_pos_iff.mpr hne).ne'
  rw [mean, List.eq_replicate_of_mem h, List.sum_replicate, List.length_replicate, nsmul_eq_mul]
  field_simp

/-- **Samples have no spread exactly if they are all equal.** -/
theorem deviations_two_eq_zero_iff {xs : List K} :
    deviations 2 xs = 0 ↔ ∀ x ∈ xs, ∀ y ∈ xs, x = y := by
  rw [deviations, powerSum_two_eq_zero_iff]
  constructor
  · intro h x hx y hy
    exact (h x hx).trans (h y hy).symm
  · intro h x hx
    exact (mean_of_forall_eq (List.ne_nil_of_mem hx) fun y hy => h y hy x hx).symm

end Spread

end Queueing.Samples
