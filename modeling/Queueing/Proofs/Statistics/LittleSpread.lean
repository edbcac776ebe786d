import Queueing.Proofs.Statistics.Spread

/-!
# Shapes of samples with little spread

Skewness and kurtosis divide by the power `3/2` and by the square of the sum of squares. Only a sum
of squares that is zero is set apart, so that a sample with a very small one is divided by a power
that is rounded to zero (`shape_lost`). Nothing else goes wrong: whatever the samples between `-1`
and `1`, the third and the fourth moment are small beside these powers, since no sample is farther
from the mean than the sum of squares tells (`Modest.add`), and both values are finite exactly when
their divisors are not lost (`shape_finite_iff`).
-/

namespace Queueing

namespace Binary64

/-! ## Powers -/

/-- A power `3/2` that is right to within a factor of two, as far as the numbers reach. -/
structure LawfulPower (threeHalves : Binary64 → Binary64) : Prop where
  ge : ∀ {x y : Binary64} {q r : ℚ}, x.Measures q → y.Measures r → 4 * r ^ 2 ≤ q ^ 3 →
    y ≤ threeHalves x
  le : ∀ {x y : Binary64} {q r : ℚ}, x.Measures q → y.Measures r → 4 * q ^ 3 ≤ r ^ 2 →
    threeHalves x ≤ y

variable {x y : Binary64} {q r : ℚ}

theorem two_zpow_two_mul (k : ℤ) : (2 : ℚ) ^ (2 * k) = (2 ^ k) ^ 2 := by
  rw [mul_comm, zpow_mul, zpow_ofNat]

theorem exists_power_four (hq : 0 < q) : ∃ j : ℤ, 2 ^ (2 * j - 2) ≤ q ∧ q < 2 ^ (2 * j) := by
  obtain ⟨n, hn, hn'⟩ := exists_mem_Ico_zpow hq (one_lt_two (α := ℚ))
  refine ⟨n / 2 + 1, ?_, ?_⟩
  · exact (zpow_le_zpow_right₀ one_le_two (by omega)).trans hn
  · exact hn'.trans_le (zpow_le_zpow_right₀ one_le_two (by omega))

theorem Measures.least_le (hx : x.Measures q) (h0 : 0 < q) : 2 ^ (-1074 : ℤ) ≤ q := by
  have h := least_le_sub (x := x) (y := 0)
  rw [hx.toRat_eq, Measures.zero.toRat_eq, sub_zero] at h
  exact h h0

theorem Measures.exponent_bounds (hx : x.Measures q) {j k : ℤ} (h0 : 0 < q) (hqk : q ≤ 2 ^ k)
    (hlow : 2 ^ (2 * j - 2) ≤ q) (hhigh : q < 2 ^ (2 * j)) : -1074 < 2 * j ∧ 2 * j - 2 ≤ k :=
  ⟨(zpow_lt_zpow_iff_right₀ one_lt_two).mp ((hx.least_le h0).trans_lt hhigh),
    (zpow_le_zpow_iff_right₀ one_lt_two).mp (hlow.trans hqk)⟩

theorem Measures.sqrt_bounds (hx : x.Measures q) {j : ℤ} (h0 : 0 < q)
    (hlow : 2 ^ (2 * j - 2) ≤ q) (hhigh : q < 2 ^ (2 * j)) :
    ∃ w, x.sqrt.Measures w ∧ 2 ^ (j - 1) ≤ w ∧ w ≤ 2 ^ j := by
  obtain ⟨hj, hj'⟩ := hx.exponent_bounds h0 hx.lt_top.le hlow hhigh
  obtain ⟨u, hu⟩ := exists_measures_two_pow (k := j - 1) (by omega) (by omega)
  obtain ⟨v, hv⟩ := exists_measures_two_pow (k := j) (by omega) (by omega)
  have hsquare : ((2 : ℚ) ^ (j - 1)) ^ 2 ≤ q := by
    rw [← two_zpow_two_mul, mul_sub, mul_one]
    exact hlow
  obtain ⟨hfin, hle⟩ := hx.sqrt_le hv (by rw [← two_zpow_two_mul]; exact hhigh.le)
  obtain ⟨w, hw, hwv⟩ := exists_measures_le hfin hx.sqrt_nonneg hv hle
  exact ⟨w, hw, (hu.le_iff hw).mp (hx.le_sqrt hu hsquare), hwv⟩

theorem lawfulPower_sqrt_mul : LawfulPower fun x => x.sqrt * x := by
  constructor
  · intro x y q r hx hy hqr
    rcases hx.nonneg.eq_or_lt with rfl | hpos
    · have hr : r = 0 := by
        rw [zero_pow three_ne_zero] at hqr
        exact (pow_eq_zero_iff two_ne_zero).mp (by linarith [sq_nonneg r])
      exact (hx.sqrt_zero.mul hx).ge_of_ge hy (by rw [hr, mul_zero])
    · obtain ⟨j, hlow, hhigh⟩ := exists_power_four hpos
      obtain ⟨w, hw, hjw, -⟩ := hx.sqrt_bounds hpos hlow hhigh
      have hquarter : q ≤ 4 * (2 ^ (j - 1)) ^ 2 := by
        rw [two_zpow_two_mul] at hhigh
        rw [zpow_sub_one₀ two_ne_zero]
        linarith
      have hproduct : r ≤ 2 ^ (j - 1) * q := by
        refine le_of_sq_le_sq ?_ (mul_pos (zpow_pos two_pos _) hpos).le
        have hcube : q ^ 2 * q ≤ q ^ 2 * (4 * (2 ^ (j - 1)) ^ 2) :=
          mul_le_mul_of_nonneg_left hquarter (sq_nonneg q)
        linarith
      exact (hw.mul hx).ge_of_ge hy
        (hproduct.trans (mul_le_mul_of_nonneg_right hjw hpos.le))
  · intro x y q r hx hy hqr
    rcases hx.nonneg.eq_or_lt with rfl | hpos
    · exact ((hx.sqrt_zero.mul hx).le_of_le hy (by rw [mul_zero]; exact hy.nonneg)).2
    · obtain ⟨j, hlow, hhigh⟩ := exists_power_four hpos
      obtain ⟨w, hw, -, hwj⟩ := hx.sqrt_bounds hpos hlow hhigh
      have hquarter : (2 ^ j) ^ 2 ≤ 4 * q := by
        rw [← two_zpow_two_mul]
        rw [zpow_sub₀ two_ne_zero] at hlow
        linarith
      have hproduct : 2 ^ j * q ≤ r := by
        refine le_of_sq_le_sq ?_ hy.nonneg
        have hcube : q ^ 2 * (2 ^ j) ^ 2 ≤ q ^ 2 * (4 * q) :=
          mul_le_mul_of_nonneg_left hquarter (sq_nonneg q)
        linarith
      exact ((hw.mul hx).le_of_le hy
        ((mul_le_mul_of_nonneg_right hwj hpos.le).trans hproduct)).2

theorem exists_measures_between (h0 : 0 ≤ x) (hy : y.Measures q) (hle : x ≤ y) :
    ∃ p, x.Measures p ∧ p ≤ q := by
  have hpos := (Binary64.le_iff.mp hle).2.2
  have hlt := (isFinite_iff y).mp hy.finite
  rw [position_of_sign (sign_of_nonneg h0), hy.position] at hpos
  exact exists_measures_le ((isFinite_iff x).mpr (by omega)) h0 hy hle

theorem beq_zero (hx : x.isNaN = false) : (x == 0) = x.isZero := by
  show (!x.isNaN && !(0 : Binary64).isNaN && (x.bits == (0 : Binary64).bits ||
    x.isZero && (0 : Binary64).isZero)) = x.isZero
  rw [hx, show (0 : Binary64).isNaN = false from rfl, show (0 : Binary64).isZero = true from rfl,
    Bool.and_true, Bool.eq_iff_iff]
  simp only [Bool.not_false, Bool.and_self, Bool.true_and, Bool.or_eq_true, beq_iff_eq,
    or_iff_right_iff_imp]
  intro hbits
  rw [Binary64.isZero_iff, toNat_magnitude, hbits]
  rfl

theorem Measures.least_le_of_not_isZero (hx : x.Measures q) (h : ¬ x.isZero = true) :
    2 ^ (-1074 : ℤ) ≤ q :=
  hx.least_le (lt_of_le_of_ne hx.nonneg fun h0 => h (hx.isZero_iff.mpr h0.symm))

/-- The exponent of a bound for third moments, while the sum of squares is below `2 ^ (2 * j)`. -/
def cubeExponent (j : ℤ) : ℤ := max (3 * j + 4) (-1074)

end Binary64

/-! ## Moments beside the sum of squares -/

namespace Summary

open Binary64

def thirdPart (d dn m2 : Binary64) : Binary64 :=
  d * (d * d - dn * dn) - ((3 : ℕ) : Binary64) * dn * m2

def fourthPart (d dn m2 m3 : Binary64) : Binary64 :=
  d * (d * (d * d) - dn * dn * dn) - ((6 : ℕ) : Binary64) * (dn * dn) * m2 -
    ((4 : ℕ) : Binary64) * dn * m3

theorem moments_step (s : Summary Binary64) (y : Binary64) :
    ∃ d dn, d = y - s.m1 ∧ dn = d / ((s.count + 1 : ℕ) : Binary64) ∧
      ((s.add y).m1 = s.m1 + dn ∧ (s.add y).m2 = s.m2 + d * (d - dn)) ∧
      (s.add y).m3 = s.m3 + thirdPart d dn (s.add y).m2 ∧
      (s.add y).m4 = s.m4 + fourthPart d dn (s.add y).m2 (s.add y).m3 :=
  ⟨_, _, rfl, rfl, ⟨rfl, rfl⟩, rfl, rfl⟩

/-- What holds of the moments of samples between `-1` and `1`: the higher ones are bounded by
powers of the sum of squares. -/
structure Modest (s : Summary Binary64) : Prop where
  mean : UpTo 0 s.m1
  squares : s.m2.Measures s.m2.toRat
  squares_le : s.m2.toRat ≤ 2 ^ (56 : ℤ)
  third : ∀ j : ℤ, -536 ≤ j → j ≤ 29 → s.m2.toRat < 2 ^ (2 * j) →
    UpTo (cubeExponent j + 55) s.m3
  fourth : ∀ j : ℤ, -268 ≤ j → j ≤ 29 → s.m2.toRat < 2 ^ (2 * j) → UpTo (4 * j + 116) s.m4

/-! ### The first sample -/

section

variable {d dn m2 m3 : Binary64}

theorem upTo_multiples {k : ℤ} (hdn : UpTo k dn) (hlow : -536 ≤ k) (hhigh : k ≤ 29) :
    (UpTo (k + 2) (((3 : ℕ) : Binary64) * dn) ∧ UpTo (k + 2) (((4 : ℕ) : Binary64) * dn)) ∧
      UpTo (2 * k) (dn * dn) ∧ UpTo (2 * k + 3) (((6 : ℕ) : Binary64) * (dn * dn)) := by
  have hthree : UpTo 2 ((3 : ℕ) : Binary64) :=
    UpTo.natCast (i := 2) (by decide) (by decide) (by decide)
  have hfour : UpTo 2 ((4 : ℕ) : Binary64) :=
    UpTo.natCast (i := 2) (by decide) (by decide) (by decide)
  have hsix : UpTo 3 ((6 : ℕ) : Binary64) :=
    UpTo.natCast (i := 3) (by decide) (by decide) (by decide)
  have hsquare : UpTo (2 * k) (dn * dn) := hdn.mul hdn (by omega) (by omega) (by omega)
  refine ⟨⟨?_, ?_⟩, hsquare, ?_⟩
  · exact hthree.mul hdn (by omega) (by omega) (by omega)
  · exact hfour.mul hdn (by omega) (by omega) (by omega)
  · exact hsix.mul hsquare (by omega) (by omega) (by omega)

theorem parts_measures_zero (hd : UpTo 0 d) (hdn : UpTo 0 dn) (h : dn.toRat = d.toRat)
    (hm2 : m2.Measures 0) :
    (thirdPart d dn m2).Measures 0 ∧ (m3.Measures 0 → (fourthPart d dn m2 m3).Measures 0) := by
  obtain ⟨⟨hthree, hfour⟩, hdn2, hsix⟩ := upTo_multiples hdn (by decide) (by decide)
  have hd2 : UpTo 0 (d * d) := hd.mul hd (by decide) (by decide) (by decide)
  have hd3 : UpTo 0 (d * (d * d)) := hd.mul hd2 (by decide) (by decide) (by decide)
  have hdn3 : UpTo 0 (dn * dn * dn) := hdn2.mul hdn (by decide) (by decide) (by decide)
  have hsquare : (d * d).toRat = (dn * dn).toRat := by
    have hrounds := signedRounds_mul hdn.finite hdn.finite
    rw [h] at hrounds
    exact (signedRounds_mul hd.finite hd.finite).unique hrounds hd2.finite hdn2.finite
  have hcube : (d * (d * d)).toRat = (dn * dn * dn).toRat := by
    have hrounds := signedRounds_mul hdn2.finite hdn.finite
    rw [h, ← hsquare, mul_comm] at hrounds
    exact (signedRounds_mul hd.finite hd2.finite).unique hrounds hd3.finite hdn3.finite
  constructor
  · exact (mul_measures_zero hd.finite (sub_measures_zero hd2.finite hdn2.finite hsquare)).sub_zeros
      (mul_measures_zero hthree.finite hm2)
  · intro hm3
    exact ((mul_measures_zero hd.finite (sub_measures_zero hd3.finite hdn3.finite hcube)).sub_zeros
      (mul_measures_zero hsix.finite hm2)).sub_zeros (mul_measures_zero hfour.finite hm3)

theorem modest_first {y : Binary64} (hy : UpTo 0 y) : (empty.add y).Modest := by
  obtain ⟨d, dn, hdistance, hstep, ⟨hm1, hm2⟩, hm3, hm4⟩ := moments_step empty y
  have hn : ((0 + 1 : ℕ) : Binary64).Measures 1 := by
    simpa using (represents_natCast (n := 1) (by decide)).measures
  have hd : d.isFinite = true ∧ d.toRat = y.toRat := by
    have hrounds := signedRounds_sub hy.finite Measures.zero.finite
    rw [Measures.zero.toRat_eq, sub_zero] at hrounds
    rw [hdistance]
    exact hrounds.exact hy.finite rfl
  have hdn : dn.isFinite = true ∧ dn.toRat = d.toRat := by
    have hrounds := signedRounds_div hd.1 hn one_pos
    rw [div_one] at hrounds
    rw [hstep]
    exact hrounds.exact hd.1 rfl
  have hmean := signedRounds_add Measures.zero.finite hdn.1
  rw [Measures.zero.toRat_eq, zero_add] at hmean
  have hsquares : (empty.add y).m2.Measures 0 := by
    rw [hm2]
    exact Measures.zero.add_zeros
      (mul_measures_zero hd.1 (sub_measures_zero hd.1 hdn.1 hdn.2.symm))
  obtain ⟨hthird, hfourth⟩ := parts_measures_zero ⟨hd.1, hd.2 ▸ hy.le⟩
    ⟨hdn.1, hdn.2 ▸ hd.2 ▸ hy.le⟩ hdn.2 hsquares
  have hzero3 : (empty.add y).m3.Measures 0 := by
    rw [hm3]
    exact Measures.zero.add_zeros hthird
  have hzero4 : (empty.add y).m4.Measures 0 := by
    rw [hm4]
    exact Measures.zero.add_zeros (hfourth hzero3)
  refine ⟨?_, ?_, ?_, fun _ _ _ _ => .of_zero hzero3, fun _ _ _ _ => .of_zero hzero4⟩
  · rw [hm1]
    obtain ⟨hfin, hvalue⟩ := hmean.exact hdn.1 rfl
    exact ⟨hfin, hvalue ▸ hdn.2 ▸ hd.2 ▸ hy.le⟩
  · rwa [hsquares.toRat_eq]
  · rw [hsquares.toRat_eq]
    exact (zpow_pos two_pos _).le

/-! ### The next samples -/

variable {j : ℤ}

/-- A sample that is not farther from the mean than the sum of squares tells adds little to the
third moment. -/
theorem thirdPart_upTo (hlow : -536 ≤ j) (hhigh : j ≤ 29) (hd : UpTo (j + 1) d) (hdn : UpTo j dn)
    (hm2 : UpTo (2 * j) m2) : UpTo (cubeExponent j + 1) (thirdPart d dn m2) := by
  obtain ⟨⟨hthree, -⟩, hdn2, -⟩ := upTo_multiples hdn hlow hhigh
  have hexponent : 3 * j + 4 ≤ cubeExponent j ∧ -1074 ≤ cubeExponent j ∧ cubeExponent j ≤ 91 := by
    rw [cubeExponent]
    omega
  have hd2 : UpTo (2 * j + 2) (d * d) := hd.mul hd (by omega) (by omega) (by omega)
  have hrest : UpTo (2 * j + 3) (d * d - dn * dn) :=
    hd2.sub hdn2 (by omega) (by omega) (by omega) (by omega)
  have hleft : UpTo (cubeExponent j) (d * (d * d - dn * dn)) :=
    hd.mul hrest (by omega) (by omega) (by omega)
  have hright : UpTo (cubeExponent j) (((3 : ℕ) : Binary64) * dn * m2) :=
    hthree.mul hm2 (by omega) (by omega) (by omega)
  exact hleft.sub hright le_rfl le_rfl (by omega) (by omega)

theorem fourthPart_upTo (hlow : -268 ≤ j) (hhigh : j ≤ 29) (hd : UpTo (j + 1) d)
    (hdn : UpTo j dn) (hm2 : UpTo (2 * j) m2) (hm3 : UpTo (3 * j + 59) m3) :
    UpTo (4 * j + 62) (fourthPart d dn m2 m3) := by
  obtain ⟨⟨-, hfour⟩, hdn2, hsix⟩ := upTo_multiples hdn (by omega) hhigh
  have hd2 : UpTo (2 * j + 2) (d * d) := hd.mul hd (by omega) (by omega) (by omega)
  have hd3 : UpTo (3 * j + 3) (d * (d * d)) := hd.mul hd2 (by omega) (by omega) (by omega)
  have hdn3 : UpTo (3 * j) (dn * dn * dn) := hdn2.mul hdn (by omega) (by omega) (by omega)
  have hrest : UpTo (3 * j + 4) (d * (d * d) - dn * dn * dn) :=
    hd3.sub hdn3 (by omega) (by omega) (by omega) (by omega)
  have hleft : UpTo (4 * j + 5) (d * (d * (d * d) - dn * dn * dn)) :=
    hd.mul hrest (by omega) (by omega) (by omega)
  have hmiddle : UpTo (4 * j + 5) (((6 : ℕ) : Binary64) * (dn * dn) * m2) :=
    hsix.mul hm2 (by omega) (by omega) (by omega)
  have hright : UpTo (4 * j + 61) (((4 : ℕ) : Binary64) * dn * m3) :=
    hfour.mul hm3 (by omega) (by omega) (by omega)
  have hdifference : UpTo (4 * j + 61) (d * (d * (d * d) - dn * dn * dn) -
      ((6 : ℕ) : Binary64) * (dn * dn) * m2) :=
    hleft.sub hmiddle (by omega) (by omega) (by omega) (by omega)
  exact hdifference.sub hright (by omega) (by omega) (by omega) (by omega)

/-- **A sample keeps the higher moments small beside the sum of squares**: one that is farther
from the mean than the sum of squares tells would have made it larger. -/
theorem Modest.add {s : Summary Binary64} {y : Binary64} (h : s.Modest) (hcount : 1 ≤ s.count)
    (hlt : s.count < 2 ^ 64 - 1) (hy : UpTo 0 y) : (s.add y).Modest := by
  obtain ⟨d, dn, hdistance, hstep, -, hm3, hm4⟩ := moments_step s y
  obtain ⟨r, hn, hr⟩ := exists_measures_count (n := s.count + 1) (by omega) (by omega)
  have hd : UpTo 1 (y - s.m1) := hy.sub h.mean le_rfl le_rfl (by decide) (by decide)
  obtain ⟨⟨hmfin, hbetween⟩, p, hm2, hincrement⟩ :=
    moments_add_signed h.mean.finite hy.finite hd.finite hn hr
  have hdist : |y.toRat - s.m1.toRat| ≤ 2 ^ (1 : ℤ) := by
    calc |y.toRat - s.m1.toRat| ≤ |y.toRat| + |s.m1.toRat| := abs_sub _ _
      _ ≤ 2 ^ (0 : ℤ) + 2 ^ (0 : ℤ) := add_le_add hy.le h.mean.le
      _ = 2 ^ (1 : ℤ) := by norm_num
  obtain ⟨v, hp, hv⟩ := hincrement.le (by decide) (by decide) hdist
  have hrounds := h.squares.add hp
  rw [← hm2] at hrounds
  have hsquares : UpTo 56 (s.add y).m2 := by
    rw [hm2]
    exact (UpTo.of_measures h.squares h.squares_le).add_absorbed (.of_measures hp hv)
      (by decide) (by decide)
  have hm := (hrounds.signed (add_nonneg h.squares.nonneg hp.nonneg)).measures hsquares.finite
    (add_nonneg h.squares.nonneg hp.nonneg)
  -- the sum of squares is not below either of its parts
  have hgrown := (h.squares.le_iff hm).mp
    (hrounds.ge_of_ge h.squares (le_add_of_nonneg_right hp.nonneg))
  have hadded := (hp.le_iff hm).mp
    (hrounds.ge_of_ge hp (le_add_of_nonneg_left h.squares.nonneg))
  have hbounds : ∀ j : ℤ, -536 ≤ j → j ≤ 29 → (s.add y).m2.toRat < 2 ^ (2 * j) →
      UpTo (j + 1) d ∧ UpTo j dn ∧ UpTo (2 * j) (s.add y).m2 := by
    intro j hlow hhigh hj
    have hnear : |y.toRat - s.m1.toRat| ≤ 2 ^ (j + 1) := by
      by_contra hfar
      obtain ⟨z, hz⟩ := exists_measures_two_pow (k := 2 * (j + 1) - 1) (by omega) (by omega)
      have hge := hincrement.ge (by omega) (by omega) (not_le.mp hfar).le hz
      have hlt := ((hz.le_iff hp).mp hge).trans_lt (hadded.trans_lt hj)
      have := (zpow_lt_zpow_iff_right₀ (one_lt_two (α := ℚ))).mp hlt
      omega
    have hdj : UpTo (j + 1) d := by
      rw [hdistance]
      exact .of_signedRounds (signedRounds_sub hy.finite h.mean.finite) hnear (by omega) (by omega)
    refine ⟨hdj, ?_, .of_measures hm hj.le⟩
    rw [hstep]
    exact hdj.div (k := 1) hn (by rwa [zpow_one]) (by omega) (by omega) (by omega)
  have hthird : ∀ j : ℤ, -536 ≤ j → j ≤ 29 → (s.add y).m2.toRat < 2 ^ (2 * j) →
      UpTo (cubeExponent j + 55) (s.add y).m3 := by
    intro j hlow hhigh hj
    obtain ⟨hdj, hdn, hm2j⟩ := hbounds j hlow hhigh hj
    rw [hm3]
    have hexponent : -1074 ≤ cubeExponent j ∧ cubeExponent j ≤ 91 := by
      rw [cubeExponent]
      omega
    have hsum := (h.third j hlow hhigh (hgrown.trans_lt hj)).mono
      (l := cubeExponent j + 1 + 54) (by omega)
    exact (hsum.add_absorbed (thirdPart_upTo hlow hhigh hdj hdn hm2j) (by omega)
      (by omega)).mono (by omega)
  refine ⟨⟨hmfin, ?_⟩, hm, ?_, hthird, ?_⟩
  · exact (abs_le_of_mem_uIcc hbetween).trans (max_le h.mean.le hy.le)
  · exact (le_abs_self _).trans hsquares.le
  · intro j hlow hhigh hj
    obtain ⟨hdj, hdn, hm2j⟩ := hbounds j (by omega) hhigh hj
    have hcube : cubeExponent j = 3 * j + 4 := by
      rw [cubeExponent]
      omega
    rw [hm4]
    have hm3j := (hthird j (by omega) hhigh hj).mono (l := 3 * j + 59) (by omega)
    have hsum := (h.fourth j hlow hhigh (hgrown.trans_lt hj)).mono
      (l := 4 * j + 62 + 54) (by omega)
    exact (hsum.add_absorbed (fourthPart_upTo hlow hhigh hdj hdn hm2j hm3j) (by omega)
      (by omega)).mono (by omega)

theorem modest_ofList {ys : List Binary64} (hne : ys ≠ []) (hlen : ys.length < 2 ^ 64)
    (hys : ∀ y ∈ ys, UpTo 0 y) : (ofList ys).Modest := by
  refine ofList_induction hne (fun y hy => modest_first (hys y hy)) ?_
  intro s y hcount hlt hy hs
  exact hs.add hcount (by omega) (hys y hy)

end

/-! ## Values of the shape -/

namespace Modest

variable {s : Summary Binary64} (h : s.Modest)

include h

theorem beq_zero_iff : (s.m2 == 0) = true ↔ s.m2.toRat = 0 := by
  rw [beq_zero h.squares.isNaN, h.squares.isZero_iff]

theorem exists_place (h0 : s.m2.toRat ≠ 0) : ∃ j : ℤ, -536 ≤ j ∧ j ≤ 29 ∧
    2 ^ (2 * j - 2) ≤ s.m2.toRat ∧ s.m2.toRat < 2 ^ (2 * j) := by
  have hpos : 0 < s.m2.toRat := lt_of_le_of_ne h.squares.nonneg h0.symm
  obtain ⟨j, hlow, hhigh⟩ := exists_power_four hpos
  obtain ⟨hj, hj'⟩ := h.squares.exponent_bounds hpos h.squares_le hlow hhigh
  exact ⟨j, by omega, by omega, hlow, hhigh⟩

theorem third_le : UpTo 146 s.m3 :=
  h.third 29 (by decide) le_rfl (h.squares_le.trans_lt (zpow_lt_zpow_right₀ one_lt_two (by decide)))

theorem fourth_le : UpTo 232 s.m4 :=
  h.fourth 29 (by decide) le_rfl (h.squares_le.trans_lt (zpow_lt_zpow_right₀ one_lt_two (by decide)))

variable {threeHalves : Binary64 → Binary64}

theorem exists_power (hpow : LawfulPower threeHalves) : ∃ c, (threeHalves s.m2).Measures c := by
  obtain ⟨z, hz⟩ := exists_measures_two_pow (k := 86) (by decide) (by decide)
  have hcube : 4 * s.m2.toRat ^ 3 ≤ (2 ^ (86 : ℤ)) ^ 2 := by
    calc 4 * s.m2.toRat ^ 3 ≤ 4 * (2 ^ (56 : ℤ)) ^ 3 :=
          mul_le_mul_of_nonneg_left (pow_le_pow_left₀ h.squares.nonneg h.squares_le 3) four_pos.le
      _ ≤ (2 ^ (86 : ℤ)) ^ 2 := by norm_num
  have hle := hpow.le h.squares hz hcube
  have hge : 0 ≤ threeHalves s.m2 := by
    refine hpow.ge h.squares .zero ?_
    rw [zero_pow two_ne_zero, mul_zero]
    exact pow_nonneg h.squares.nonneg 3
  obtain ⟨c, hc, -⟩ := exists_measures_between hge hz hle
  exact ⟨c, hc⟩

/-- **The third moment is bounded by the power `3/2`** of the sum of squares, unless the power is
rounded to zero. -/
theorem third_bound (hpow : LawfulPower threeHalves) (h0 : s.m2.toRat ≠ 0)
    (hdivisor : ¬ (threeHalves s.m2).isZero = true) :
    ∃ k c, -1019 ≤ k ∧ k ≤ 146 ∧ UpTo k s.m3 ∧ (threeHalves s.m2).Measures c ∧
      2 ^ (k - 63) ≤ c := by
  obtain ⟨j, hjlow, hjhigh, hlow, hhigh⟩ := h.exists_place h0
  obtain ⟨c, hc⟩ := h.exists_power hpow
  have hthird := h.third j hjlow hjhigh hhigh
  rw [cubeExponent] at hthird
  refine ⟨_, c, by omega, by omega, hthird, hc, ?_⟩
  by_cases hnormal : -1074 ≤ 3 * j - 4
  · obtain ⟨z, hz⟩ := exists_measures_two_pow hnormal (by omega)
    have hcube : 4 * (2 ^ (3 * j - 4)) ^ 2 ≤ s.m2.toRat ^ 3 := by
      calc 4 * ((2 : ℚ) ^ (3 * j - 4)) ^ 2 = (2 ^ (2 * j - 2)) ^ 3 := by
            rw [← two_zpow_two_mul, ← zpow_natCast, ← zpow_mul,
              show (4 : ℚ) = 2 ^ (2 : ℤ) by norm_num, ← zpow_add₀ two_ne_zero]
            congr 1
            push_cast
            ring
        _ ≤ s.m2.toRat ^ 3 := pow_le_pow_left₀ (zpow_pos two_pos _).le hlow 3
    refine le_trans ?_ ((hz.le_iff hc).mp (hpow.ge h.squares hz hcube))
    exact zpow_le_zpow_right₀ one_le_two (by omega)
  · exact (zpow_le_zpow_right₀ one_le_two (by omega)).trans (hc.least_le_of_not_isZero hdivisor)

/-- **The fourth moment is bounded by the square** of the sum of squares, unless the square is
rounded to zero. -/
theorem fourth_bound (h0 : s.m2.toRat ≠ 0) (hdivisor : ¬ (s.m2 * s.m2).isZero = true) :
    ∃ k c, -956 ≤ k ∧ k ≤ 232 ∧ UpTo k s.m4 ∧ (s.m2 * s.m2).Measures c ∧
      2 ^ (k - 120) ≤ c := by
  obtain ⟨j, hjlow, hjhigh, hlow, hhigh⟩ := h.exists_place h0
  have hsquare := h.squares.mul h.squares
  have hnonneg := mul_nonneg h.squares.nonneg h.squares.nonneg
  have hj : -268 ≤ j := by
    -- the square of a lesser number is below one half of the least magnitude
    by_contra hsmall
    have hbound : s.m2.toRat < 2 ^ (-538 : ℤ) :=
      hhigh.trans_le (zpow_le_zpow_right₀ one_le_two (by omega))
    have hlost : 2 * (s.m2.toRat * s.m2.toRat) < 2 ^ (-1074 : ℤ) := by
      calc 2 * (s.m2.toRat * s.m2.toRat) < 2 * (2 ^ (-538 : ℤ) * 2 ^ (-538 : ℤ)) :=
            mul_lt_mul_of_pos_left
              (mul_lt_mul'' hbound hbound h.squares.nonneg h.squares.nonneg) two_pos
        _ = 2 ^ (-1075 : ℤ) := by
            rw [← zpow_add₀ two_ne_zero, ← zpow_one_add₀ two_ne_zero]
            rfl
        _ < 2 ^ (-1074 : ℤ) := zpow_lt_zpow_right₀ one_lt_two (by decide)
    obtain ⟨hfin, hle⟩ := hsquare.le_of_lt_middle .zero (by
      rw [zero_add]
      exact magnitudeValue_one ▸ hlost)
    obtain ⟨c, hc, hc0⟩ := exists_measures_le hfin hsquare.nonneg .zero hle
    exact hdivisor (hc.isZero_iff.mpr (le_antisymm hc0 hc.nonneg))
  have hfin : UpTo 112 (s.m2 * s.m2) := by
    have hm2 := UpTo.of_measures h.squares h.squares_le
    exact hm2.mul hm2 (by decide) (by decide) (by decide)
  have hc := (hsquare.signed hnonneg).measures hfin.finite hnonneg
  refine ⟨_, _, ?_, ?_, h.fourth j hj hjhigh hhigh, hc, ?_⟩
  · omega
  · omega
  · by_cases hnormal : -1074 ≤ 4 * j - 4
    · obtain ⟨z, hz⟩ := exists_measures_two_pow hnormal (by omega)
      have hproduct : 2 ^ (4 * j - 4) ≤ s.m2.toRat * s.m2.toRat := by
        calc (2 : ℚ) ^ (4 * j - 4) = 2 ^ (2 * j - 2) * 2 ^ (2 * j - 2) := by
              rw [← zpow_add₀ two_ne_zero]
              congr 1
              ring
          _ ≤ s.m2.toRat * s.m2.toRat :=
              mul_le_mul hlow hlow (zpow_pos two_pos _).le h.squares.nonneg
      refine le_trans ?_ ((hz.le_iff hc).mp (hsquare.ge_of_ge hz hproduct))
      exact zpow_le_zpow_right₀ one_le_two (by omega)
    · exact (zpow_le_zpow_right₀ one_le_two (by omega)).trans (hc.least_le_of_not_isZero hdivisor)

end Modest

/-! ### The number of samples -/

theorem count_measures {n : ℕ} (h0 : n ≠ 0) (hn : n < 2 ^ 64) :
    ∃ a, (n : Binary64).Measures a ∧ 1 ≤ a ∧ a ≤ 2 ^ (64 : ℤ) := by
  obtain ⟨a, ha, hone, hle⟩ := natCast_between (k := 64) h0 (by decide) hn.le
  exact ⟨a, ha, hone, by exact_mod_cast hle⟩

theorem count_sub {n k : ℕ} {y : Binary64} (hy : y.Measures k) (hk : k < 2 ^ 52) (hkn : k < n)
    (hn : n < 2 ^ 64) :
    ∃ b, ((n : Binary64) - y).Measures b ∧ 1 ≤ b ∧ b ≤ 2 ^ (64 : ℤ) := by
  obtain ⟨a, ha, -, hle⟩ := count_measures (n := n) (by omega) hn
  have hnext : ((k + 1 : ℕ) : ℚ) ≤ a := by
    refine ((represents_natCast (by omega)).measures.le_iff ha).mp ?_
    refine (rounds_natCast (by omega)).ge_of_ge (represents_natCast (by omega)).measures ?_
    exact_mod_cast hkn
  rw [Nat.cast_add, Nat.cast_one] at hnext
  have hrounds := ha.sub hy (by linarith)
  obtain ⟨hfin, hba⟩ := hrounds.le_of_le ha (sub_le_self a hy.nonneg)
  obtain ⟨b, hb, hba⟩ := exists_measures_le hfin hrounds.nonneg ha hba
  have hone := hrounds.ge_of_ge Represents.one.measures (by linarith)
  exact ⟨b, hb, (Represents.one.measures.le_iff hb).mp hone, hba.trans hle⟩

theorem one_measures : (1 : Binary64).Measures ((1 : ℕ) : ℚ) := by
  rw [Nat.cast_one]
  exact Represents.one.measures

theorem upTo_sqrt {x : Binary64} {p : ℚ} {k : ℤ} (hx : x.Measures p) (hp : p ≤ 2 ^ (2 * k))
    (hlow : -1074 ≤ k) (hhigh : k ≤ 1023) : UpTo k x.sqrt := by
  obtain ⟨z, hz⟩ := exists_measures_two_pow hlow hhigh
  rw [two_zpow_two_mul] at hp
  obtain ⟨hfin, hle⟩ := hx.sqrt_le hz hp
  obtain ⟨w, hw, hwle⟩ := exists_measures_le hfin hx.sqrt_nonneg hz hle
  exact .of_measures hw hwle

/-! ### Finite values -/

namespace Modest

variable {s : Summary Binary64} {threeHalves : Binary64 → Binary64} {n : ℕ}

/-- **The skewness is finite exactly when its divisor is not lost.** -/
theorem skewness_finite_iff (h : s.Modest) (hpow : LawfulPower threeHalves) (hn3 : 3 ≤ n)
    (hn : n < 2 ^ 64) (h0 : s.m2.toRat ≠ 0) :
    (((n : Binary64) * ((n : Binary64) - 1)).sqrt *
      ((n : Binary64).sqrt * s.m3 / threeHalves s.m2) /
        ((n : Binary64) - ((2 : ℕ) : Binary64))).isFinite = true ↔
      ¬ (threeHalves s.m2).isZero = true := by
  obtain ⟨a, ha, -, hale⟩ := count_measures (by omega) hn
  obtain ⟨b, hb, -, hble⟩ := count_sub one_measures (by decide) (by omega) hn
  obtain ⟨c, hc, hc1, -⟩ := count_sub (represents_natCast (n := 2) (by decide)).measures
    (by decide) (by omega) hn
  have hproduct : UpTo 128 ((n : Binary64) * ((n : Binary64) - 1)) :=
    (UpTo.of_measures ha hale).mul (.of_measures hb hble) (by decide) (by decide) (by decide)
  obtain ⟨p, hp, hple⟩ := hproduct.exists_measures (ha.mul hb).nonneg
  have hfactor : UpTo 64 ((n : Binary64) * ((n : Binary64) - 1)).sqrt :=
    upTo_sqrt hp hple (by decide) (by decide)
  have hroot : UpTo 32 (n : Binary64).sqrt := upTo_sqrt ha hale (by decide) (by decide)
  constructor
  · intro hfin hzero
    have hdividend : UpTo 178 ((n : Binary64).sqrt * s.m3) :=
      hroot.mul h.third_le (by decide) (by decide) (by decide)
    have hquotient := isFinite_div_zero hdividend.finite hzero
    have hlost := isFinite_div_eq_false (isFinite_mul_eq_false hquotient hfactor.finite) hc.finite
    rw [hfin] at hlost
    cases hlost
  · intro hdivisor
    obtain ⟨k, v, hlow, hhigh, hm3, hv, hkv⟩ := h.third_bound hpow h0 hdivisor
    have hdividend : UpTo (32 + k) ((n : Binary64).sqrt * s.m3) :=
      hroot.mul hm3 le_rfl (by omega) (by omega)
    have hquotient : UpTo 95 ((n : Binary64).sqrt * s.m3 / threeHalves s.m2) :=
      hdividend.div hv hkv (by omega) (by decide) (by decide)
    have hvalue : UpTo 159 (((n : Binary64) * ((n : Binary64) - 1)).sqrt *
        ((n : Binary64).sqrt * s.m3 / threeHalves s.m2)) :=
      hfactor.mul hquotient (by decide) (by decide) (by decide)
    exact (hvalue.div (k := 0) (l := 159) hc (by rwa [zpow_zero]) (by decide) (by decide)
      (by decide)).finite

/-- **The kurtosis is finite exactly when its divisor is not lost.** -/
theorem kurtosis_finite_iff (h : s.Modest) (hn4 : 4 ≤ n) (hn : n < 2 ^ 64)
    (h0 : s.m2.toRat ≠ 0) :
    (((n : Binary64) - 1) / (((n : Binary64) - ((2 : ℕ) : Binary64)) *
        ((n : Binary64) - ((3 : ℕ) : Binary64))) *
      (((n : Binary64) + 1) * ((n : Binary64) * s.m4 / (s.m2 * s.m2) - ((3 : ℕ) : Binary64)) +
        ((6 : ℕ) : Binary64))).isFinite = true ↔
      ¬ (s.m2 * s.m2).isZero = true := by
  obtain ⟨a, ha, -, hale⟩ := count_measures (by omega) hn
  obtain ⟨b, hb, -, hble⟩ := count_sub one_measures (by decide) (by omega) hn
  obtain ⟨c, hc, hc1, hcle⟩ := count_sub (represents_natCast (n := 2) (by decide)).measures
    (by decide) (by omega) hn
  obtain ⟨d, hd, hd1, hdle⟩ := count_sub (represents_natCast (n := 3) (by decide)).measures
    (by decide) (by omega) hn
  have hone : UpTo 0 (1 : Binary64) := .of_measures one_measures (by norm_num)
  have hthree : UpTo 2 ((3 : ℕ) : Binary64) :=
    UpTo.natCast (i := 2) (by decide) (by decide) (by decide)
  have hsix : UpTo 3 ((6 : ℕ) : Binary64) :=
    UpTo.natCast (i := 3) (by decide) (by decide) (by decide)
  have hcount : UpTo 64 (n : Binary64) := .of_measures ha hale
  have hnext : UpTo 65 ((n : Binary64) + 1) :=
    hcount.add hone (by decide) (by decide) (by decide) (by decide)
  have hproduct : UpTo 128 (((n : Binary64) - ((2 : ℕ) : Binary64)) *
      ((n : Binary64) - ((3 : ℕ) : Binary64))) :=
    (UpTo.of_measures hc hcle).mul (.of_measures hd hdle) (by decide) (by decide) (by decide)
  obtain ⟨p, hp, -⟩ := hproduct.exists_measures (hc.mul hd).nonneg
  have hp1 : 1 ≤ p := (Represents.one.measures.le_iff hp).mp
    ((hc.mul hd).ge_of_ge Represents.one.measures (one_le_mul_of_one_le_of_one_le hc1 hd1))
  have hfactor : UpTo 64 (((n : Binary64) - 1) / (((n : Binary64) - ((2 : ℕ) : Binary64)) *
      ((n : Binary64) - ((3 : ℕ) : Binary64)))) :=
    (UpTo.of_measures hb hble).div (k := 0) hp (by rwa [zpow_zero]) (by decide) (by decide)
      (by decide)
  constructor
  · intro hfin hzero
    have hdividend : UpTo 296 ((n : Binary64) * s.m4) :=
      hcount.mul h.fourth_le (by decide) (by decide) (by decide)
    have hquotient := isFinite_sub_eq_false (isFinite_div_zero hdividend.finite hzero)
      hthree.finite
    have hlost := isFinite_mul_eq_false
      (isFinite_add_eq_false (isFinite_mul_eq_false hquotient hnext.finite) hsix.finite)
      hfactor.finite
    rw [hfin] at hlost
    cases hlost
  · intro hdivisor
    obtain ⟨k, v, hlow, hhigh, hm4, hv, hkv⟩ := h.fourth_bound h0 hdivisor
    have hdividend : UpTo (64 + k) ((n : Binary64) * s.m4) :=
      hcount.mul hm4 le_rfl (by omega) (by omega)
    have hquotient : UpTo 184 ((n : Binary64) * s.m4 / (s.m2 * s.m2)) :=
      hdividend.div hv hkv (by omega) (by decide) (by decide)
    have hexcess : UpTo 185 ((n : Binary64) * s.m4 / (s.m2 * s.m2) - ((3 : ℕ) : Binary64)) :=
      hquotient.sub hthree (by decide) (by decide) (by decide) (by decide)
    have hscaled : UpTo 250 (((n : Binary64) + 1) *
        ((n : Binary64) * s.m4 / (s.m2 * s.m2) - ((3 : ℕ) : Binary64))) :=
      hnext.mul hexcess (by decide) (by decide) (by decide)
    have hsum := hscaled.add (l := 251) hsix (by decide) (by decide) (by decide) (by decide)
    exact (hfactor.mul (l := 315) hsum (by decide) (by decide) (by decide)).finite

/-- Neither divisor is lost when the sum of squares is `2 ^ (-537)` or more. -/
theorem divisors_kept (h : s.Modest) (hpow : LawfulPower threeHalves)
    (hle : 2 ^ (-537 : ℤ) ≤ s.m2.toRat) :
    ¬ (threeHalves s.m2).isZero = true ∧ ¬ (s.m2 * s.m2).isZero = true := by
  have hpos : (0 : ℚ) < 2 ^ (-537 : ℤ) := zpow_pos two_pos _
  obtain ⟨z, hz⟩ := exists_measures_two_pow (k := -1074) (by decide) (by decide)
  have hz0 : 0 < z := (Measures.zero.lt_iff hz).mpr (zpow_pos two_pos _)
  constructor
  · refine not_isZero_of_pos (Binary64.lt_of_lt_of_le hz0 (hpow.ge h.squares hz ?_))
    calc 4 * ((2 : ℚ) ^ (-1074 : ℤ)) ^ 2 = 2 ^ (-2146 : ℤ) := by
          rw [← two_zpow_two_mul, show (4 : ℚ) = 2 ^ (2 : ℤ) by norm_num,
            ← zpow_add₀ two_ne_zero]
          rfl
      _ ≤ 2 ^ (-1611 : ℤ) := zpow_le_zpow_right₀ one_le_two (by decide)
      _ = (2 ^ (-537 : ℤ)) ^ 3 := by
          rw [← zpow_natCast, ← zpow_mul]
          rfl
      _ ≤ s.m2.toRat ^ 3 := pow_le_pow_left₀ hpos.le hle 3
  · refine not_isZero_of_pos (Binary64.lt_of_lt_of_le hz0
      ((h.squares.mul h.squares).ge_of_ge hz ?_))
    calc (2 : ℚ) ^ (-1074 : ℤ) = 2 ^ (-537 : ℤ) * 2 ^ (-537 : ℤ) := by
          rw [← zpow_add₀ two_ne_zero]
          rfl
      _ ≤ s.m2.toRat * s.m2.toRat := mul_le_mul hle hle hpos.le h.squares.nonneg

end Modest

/-- **Skewness and kurtosis of samples between `-1` and `1` are finite exactly when their divisors
are not lost**, or when there is no spread at all. -/
theorem shape_finite_iff (log : Binary64 → Binary64) {threeHalves : Binary64 → Binary64}
    (hpow : LawfulPower threeHalves) {ys : List Binary64} (hlen : ys.length < 2 ^ 64)
    (hys : ∀ y ∈ ys, y.isFinite = true ∧ |y.toRat| ≤ 1) :
    letI := Binary64.arithmetic log threeHalves
    (∀ x, (ofList ys).skewness? = some x → (x.isFinite = true ↔
      (ofList ys).m2 == 0 ∨ ¬ (threeHalves (ofList ys).m2).isZero = true)) ∧
    (∀ x, (ofList ys).kurtosis? = some x → (x.isFinite = true ↔
      (ofList ys).m2 == 0 ∨ ¬ ((ofList ys).m2 * (ofList ys).m2).isZero = true)) ∧
    (2 ^ (-537 : ℤ) ≤ (ofList ys).m2.toRat → ¬ (threeHalves (ofList ys).m2).isZero = true ∧
      ¬ ((ofList ys).m2 * (ofList ys).m2).isZero = true) := by
  let _ := Binary64.arithmetic log threeHalves
  have hmodest : ys ≠ [] → (ofList ys).Modest := by
    intro hne
    refine modest_ofList hne hlen fun y hy => ⟨(hys y hy).1, ?_⟩
    rw [zpow_zero]
    exact (hys y hy).2
  have hcount : (ofList ys).count = ys.length := count_ofList ys
  have hlt : (ofList ys).count < 2 ^ 64 := hcount ▸ hlen
  refine ⟨?_, ?_, ?_⟩
  · intro x hx
    rw [skewness?] at hx
    split_ifs at hx with hfew hzero
    · rw [← Option.some.inj hx]
      exact iff_of_true rfl (Or.inl hzero)
    · have hs := hmodest (List.ne_nil_of_length_pos (by omega))
      rw [← Option.some.inj hx, or_iff_right hzero]
      exact hs.skewness_finite_iff hpow (by omega) hlt (fun h0 => hzero (hs.beq_zero_iff.mpr h0))
  · intro x hx
    rw [kurtosis?] at hx
    split_ifs at hx with hfew hzero
    · rw [← Option.some.inj hx]
      exact iff_of_true rfl (Or.inl hzero)
    · have hs := hmodest (List.ne_nil_of_length_pos (by omega))
      rw [← Option.some.inj hx, or_iff_right hzero]
      exact hs.kurtosis_finite_iff (by omega) hlt (fun h0 => hzero (hs.beq_zero_iff.mpr h0))
  · intro hle
    rcases eq_or_ne ys [] with rfl | hne
    · have hpos : (0 : ℚ) < 2 ^ (-537 : ℤ) := zpow_pos two_pos _
      have hzero : (ofList ([] : List Binary64)).m2.toRat = 0 := Measures.zero.toRat_eq
      exact absurd (hpos.trans_le hle) (by rw [hzero]; exact lt_irrefl 0)
    · exact (hmodest hne).divisors_kept hpow hle

theorem abs_toRat_le_one {y : Binary64} (h0 : 0 ≤ y) (h1 : y ≤ 1) :
    y.isFinite = true ∧ |y.toRat| ≤ 1 := by
  obtain ⟨q, hq, hle⟩ := exists_measures_between h0 Represents.one.measures h1
  rw [hq.toRat_eq, abs_of_nonneg hq.nonneg]
  exact ⟨hq.finite, hle⟩

def quarterSamples : List Binary64 := [0, 0, 0, 1]

theorem shape_finite_iff_quarter :
    letI := Binary64.arithmetic Binary64.log fun x => x.sqrt * x
    (LawfulPower (fun x => x.sqrt * x) ∧ quarterSamples.length < 2 ^ 64 ∧
      ∀ y ∈ quarterSamples, y.isFinite = true ∧ |y.toRat| ≤ 1) ∧
    ((ofList quarterSamples).m2 == 0) = false ∧
    (∃ x, (ofList quarterSamples).skewness? = some x ∧ x.isFinite = true) ∧
    ∃ x, (ofList quarterSamples).kurtosis? = some x ∧ x.isFinite = true := by
  let _ := Binary64.arithmetic Binary64.log fun x => x.sqrt * x
  have hlen : quarterSamples.length < 2 ^ 64 := by decide
  have hys : ∀ y ∈ quarterSamples, y.isFinite = true ∧ |y.toRat| ≤ 1 := by
    intro y hy
    simp only [quarterSamples, List.mem_cons, List.not_mem_nil, or_false] at hy
    rcases hy with rfl | rfl | rfl | rfl <;> exact abs_toRat_le_one (by decide) (by decide)
  obtain ⟨hskewness, hkurtosis, -⟩ :=
    shape_finite_iff Binary64.log lawfulPower_sqrt_mul hlen hys
  have hroot : ¬ ((ofList quarterSamples).m2.sqrt * (ofList quarterSamples).m2).isZero = true := by
    decide +kernel
  have hsquare : ¬ ((ofList quarterSamples).m2 * (ofList quarterSamples).m2).isZero = true := by
    decide +kernel
  refine ⟨⟨lawfulPower_sqrt_mul, hlen, hys⟩, by decide +kernel,
    ⟨⟨0x3FFFFFFFFFFFFFFF⟩, by decide +kernel, ?_⟩, ⟨0x4010000000000001⟩, by decide +kernel, ?_⟩
  · exact (hskewness _ (by decide +kernel)).mpr (Or.inr hroot)
  · exact (hkurtosis _ (by decide +kernel)).mpr (Or.inr hsquare)

/-- The samples `0`, `0`, `0` and `10 ^ (-110)`. -/
def faintSamples : List Binary64 := [0, 0, 0, ⟨0x29180C903F7379F2⟩]

/-- **The shape of a sample can be lost.** The sum of squares of three zeros and a small number is
not zero, but its square is, and the kurtosis is not a number. -/
theorem shape_lost :
    (∀ y ∈ faintSamples, y.isFinite = true ∧ |y.toRat| ≤ 1) ∧
    ((ofList faintSamples).m2 == 0) = false ∧
    ∃ x, (ofList faintSamples).kurtosis? = some x ∧ x.isNaN = true := by
  refine ⟨?_, by decide +kernel, ⟨0x7FF8000000000000⟩, by decide +kernel, by decide⟩
  intro y hy
  simp only [faintSamples, List.mem_cons, List.not_mem_nil, or_false] at hy
  rcases hy with rfl | rfl | rfl | rfl <;> exact abs_toRat_le_one (by decide) (by decide)

end Summary

end Queueing
