import Queueing.Proofs.Binary64.Signs
import Queueing.Proofs.Json.Numerals

/-!
# Reading numbers back

A reader of documents rounds the significand, the power of ten and the scaled value of a numeral
one after the other. What it makes of a number that was written is the *rereading* of the number.
It is always finite (`Numeral.real?_ofReal`), it is within a few units in the last place
(`rereading_error`), and it is the number itself if significand and power are small enough not to
be rounded (`rereading_eq`). In between a number can change.
-/

namespace Queueing

open Decimal

namespace Binary64

/-- What a reader makes of a number that was written. -/
def rereading (x : Binary64) : Binary64 := ((Json.Numeral.ofReal x).real?).getD x

end Binary64

namespace Json.Numeral

open Binary64

/-! ## Significands and powers -/

def greatestNat : ℕ := (2 ^ 53 - 1) * 2 ^ 971

/-- Half a place below the greatest number. -/
def topMiddle : ℕ := (2 ^ 53 - 2 + (2 ^ 53 - 1)) * 2 ^ 970

theorem greatest_bounds : 10 ^ 308 ≤ greatestNat ∧
    10 ^ 308 * (2 ^ 53) ^ 2 ≤ greatestNat * (2 ^ 53 - 1) ^ 2 ∧ topMiddle / 10 ^ 291 ≤ 10 ^ 18 ∧
    2 * topMiddle = (2 ^ 53 - 2) * 2 ^ 971 + (2 ^ 53 - 2 + 1) * 2 ^ 971 := by
  decide +kernel

/-- Up to the middle, the greatest significand for a great power of ten is scaled to a finite
number, and so is that of the greatest number. -/
theorem isFinite_top :
    (∀ i < 18,
      ((topMiddle / 10 ^ (291 + i) : ℕ) * powerOfTen (291 + i) : Binary64).isFinite = true) ∧
    (((17976931348623157 : ℕ) : Binary64) * powerOfTen 292).isFinite = true := by
  decide +kernel

theorem parts_greatest : (ofReal greatest).parts = (17976931348623157, 292) ∧
    (ofReal ⟨0xFFEFFFFFFFFFFFFF⟩).parts = (17976931348623157, 292) := by
  decide +kernel

theorem cast_mul_two_pow (n : ℕ) : ((n * 2 ^ 971 : ℕ) : ℚ) = n * 2 ^ (971 : ℤ) := by
  rw [Nat.cast_mul, Nat.cast_pow, Nat.cast_ofNat, zpow_ofNat]

theorem isFinite_of_le {x : Binary64} {q : ℚ} (hx : Rounds q x) {n : ℕ} (hq : q ≤ n)
    (hn : n ≤ greatestNat) : x.isFinite = true := by
  refine hx.isFinite (hq.trans ?_)
  rw [← cast_mul_two_pow]
  exact Nat.cast_le.mpr hn

theorem pow_le_greatest {k : ℕ} (hk : k ≤ 308) : 10 ^ k ≤ greatestNat :=
  (pow_le_pow_right₀ (by decide) hk).trans greatest_bounds.1

theorem exists_significand {d : ℕ} (hd : 0 < d) (hlt : d < 10 ^ 18) :
    ∃ v, (d : Binary64).Measures v ∧ Within 1 d v ∧ 1 ≤ v := by
  have hrounds := rounds_natCast hd.ne'
  have hone : (1 : ℚ) ≤ d := by exact_mod_cast hd
  have hfin := isFinite_of_le hrounds le_rfl (hlt.le.trans (pow_le_greatest (by decide)))
  obtain ⟨v, hv, hwithin⟩ := hrounds.within hfin (full_le_one.trans hone)
  refine ⟨v, hv, hwithin, (Represents.one.measures.le_iff hv).mp ?_⟩
  exact hrounds.ge_of_ge Represents.one.measures hone

theorem exists_power {k : ℕ} (hk : k ≤ 308) :
    ∃ v, (powerOfTen k).Measures v ∧ Within 1 (10 ^ k) v ∧ 1 ≤ v := by
  have hrounds := rounds_ofDecimal hk
  have hone : (1 : ℚ) ≤ 10 ^ k := one_le_pow₀ (by norm_num)
  have hfin := isFinite_of_le hrounds (by rw [Nat.cast_pow, Nat.cast_ofNat]) (pow_le_greatest hk)
  obtain ⟨v, hv, hwithin⟩ := hrounds.within hfin (full_le_one.trans hone)
  refine ⟨v, hv, hwithin, (Represents.one.measures.le_iff hv).mp ?_⟩
  exact hrounds.ge_of_ge Represents.one.measures hone

/-! ## No overflow -/

theorem mul_roundingRatio_le {a b : ℕ} (n : ℕ) (h : a * (2 ^ 53) ^ n ≤ b * (2 ^ 53 - 1) ^ n) :
    (a : ℚ) * roundingRatio ^ n ≤ b := by
  have hcast : ((2 ^ 53 - 1 : ℕ) : ℚ) = 2 ^ 53 - 1 := by norm_num
  rw [roundingRatio, ← hcast, div_pow, mul_div_assoc', div_le_iff₀ (by positivity)]
  exact_mod_cast h

theorem isFinite_product {d k : ℕ} (hd : 0 < d) (hlt : d < 10 ^ 18) (hk : k ≤ 308)
    (h : d * 10 ^ k ≤ topMiddle) : ((d : Binary64) * powerOfTen k).isFinite = true := by
  obtain ⟨v, hv, hvw, -⟩ := exists_significand hd hlt
  obtain ⟨p, hp, hpw, -⟩ := exists_power hk
  by_cases hsmall : k < 291
  · -- even two roundings do not lead up to the greatest number
    have hproduct : d * 10 ^ k ≤ 10 ^ 308 := by
      rw [show 308 = 18 + 290 from rfl, pow_add]
      exact Nat.mul_le_mul hlt.le (pow_le_pow_right₀ (by decide) (by omega))
    have hroundings : d * 10 ^ k * (2 ^ 53) ^ 2 ≤ greatestNat * (2 ^ 53 - 1) ^ 2 :=
      (Nat.mul_le_mul_right _ hproduct).trans greatest_bounds.2.1
    refine isFinite_of_le (hv.mul hp) ((hvw.mul hpw).high.trans ?_) le_rfl
    rw [← Nat.cast_ofNat (n := 10), ← Nat.cast_pow, ← Nat.cast_mul]
    exact mul_roundingRatio_le 2 hroundings
  · obtain ⟨i, rfl⟩ := Nat.exists_eq_add_of_le (not_lt.mp hsmall)
    have hle := (Nat.le_div_iff_mul_le (Nat.pow_pos (n := 291 + i) (by decide))).mpr h
    have htop := isFinite_top.1 i (by omega)
    have hsmall : topMiddle / 10 ^ (291 + i) ≤ 10 ^ 18 := by
      rw [pow_add, ← Nat.div_div_eq_div_mul]
      exact (Nat.div_le_self _ _).trans greatest_bounds.2.2.1
    generalize topMiddle / 10 ^ (291 + i) = b at hle htop hsmall
    have hbrounds := rounds_natCast (n := b) (by omega)
    have hbfin := isFinite_of_le hbrounds le_rfl (hsmall.trans (pow_le_greatest (by decide)))
    obtain ⟨n, -, hbm⟩ := hbrounds.exists_nearest hbfin
    have hmono : v ≤ magnitudeValue n := by
      have hmag := (rounds_natCast hd.ne').magnitude_mono hbrounds (by exact_mod_cast hle)
      rw [← hv.value, ← hbm.value]
      exact magnitudeValue_strictMono.monotone hmag
    have hproduct := (hv.mul hp).magnitude_mono (hbm.mul hp)
      (mul_le_mul_of_nonneg_right hmono hpw.value_pos.le)
    rw [isFinite_iff] at htop ⊢
    exact hproduct.trans_lt htop

theorem parts_of_greatest {x : Binary64} (hx : x.magnitude.toNat = greatest.magnitude.toNat) :
    (ofReal x).parts = (17976931348623157, 292) := by
  cases hneg : x.isNegative with
  | false => rw [eq_of_magnitude (y := greatest) hneg hx, parts_greatest.1]
  | true => rw [eq_of_magnitude (y := ⟨0xFFEFFFFFFFFFFFFF⟩) hneg hx, parts_greatest.2]

theorem le_topMiddle {q : ℚ} {n : ℕ} (h : Nearest q n) (hn : n < greatest.magnitude.toNat) :
    q ≤ topMiddle := by
  have hpred : Canonical (2 ^ 53 - 2) 971 := ⟨by decide, by decide, Or.inl (by decide)⟩
  have hplace : place (2 ^ 53 - 2) 971 + 1 = greatest.magnitude.toNat := rfl
  by_contra hfar
  have hlt := h.gt_of_middle_lt (k := place (2 ^ 53 - 2) 971) ?_
  · omega
  · rw [magnitudeValue_place hpred, magnitudeValue_place_succ hpred]
    rw [← cast_mul_two_pow, ← cast_mul_two_pow, ← Nat.cast_add, ← greatest_bounds.2.2.2,
      Nat.cast_mul, Nat.cast_ofNat]
    linarith

/-- **What is written for a number is not scaled beyond the greatest number.** -/
theorem isFinite_scaled {x : Binary64} (hx : x.isFinite = true) (h0 : x.isZero = false) {k : ℕ}
    (hk : (ofReal x).parts.2 = k) :
    (((ofReal x).parts.1 : Binary64) * powerOfTen k).isFinite = true := by
  have hreads := ofReal_readsBack hx h0
  have hhigh := hreads.high
  have hnearest := hreads.nearest.nearest
  have hmag := (isFinite_iff x).mp hx
  simp only [hk] at hhigh
  rw [hk, zpow_natCast] at hnearest
  by_cases htop : x.magnitude.toNat = greatest.magnitude.toNat
  · have hparts := parts_of_greatest htop
    rw [hparts] at hk ⊢
    obtain rfl : k = 292 := by omega
    exact isFinite_top.2
  · have hle := le_topMiddle hnearest
      (lt_of_le_of_ne (Nat.le_of_lt_succ hmag) htop)
    exact isFinite_product hreads.pos hreads.lt (by omega) (by exact_mod_cast hle)

/-! ## Scaling -/

theorem scale_of_neg {x : Binary64} {steps k : ℕ} (hk : k ≠ 0) (hle : k ≤ 308) :
    scale steps x (-k) = some (x / powerOfTen k) := by
  have habs : (-(k : ℤ)).natAbs = k := by omega
  have hneg : ¬ (0 : ℤ) ≤ -k := by omega
  unfold scale
  rw [habs, if_pos hle, if_neg hneg]

theorem scale_of_nonneg {x : Binary64} {steps k : ℕ} (hle : k ≤ 308)
    (hfin : (x * powerOfTen k).isFinite = true) :
    scale steps x k = some (x * powerOfTen k) := by
  have hinf : (x * powerOfTen k).isInfinite = false := by
    rw [isInfinite, beq_eq_false_iff_ne]
    intro hmag
    rw [isFinite, hmag] at hfin
    exact absurd hfin (by decide)
  unfold scale
  rw [Int.natAbs_natCast, if_pos hle, if_pos (Int.natCast_nonneg k)]
  simp only [hinf, Bool.false_eq_true, if_false]

/-- A power beyond the range is divided by in two steps. -/
theorem scale_of_lt {x : Binary64} {steps k : ℕ} (hx : x.isZero = false) (hk : k ≠ 0)
    (hle : k ≤ 308) :
    scale (steps + 1) x (-(308 + k : ℕ)) = some (x / powerOfTen 308 / powerOfTen k) := by
  have habs : ¬ (-((308 + k : ℕ) : ℤ)).natAbs ≤ 308 := by omega
  have hneg : ¬ (0 : ℤ) ≤ -((308 + k : ℕ) : ℤ) := by omega
  have hrest : -((308 + k : ℕ) : ℤ) + 308 = -k := by omega
  unfold scale
  rw [if_neg habs, hx, if_neg Bool.false_ne_true, if_neg hneg, hrest]
  exact scale_of_neg hk hle

def scaled (x : Binary64) : Option Binary64 :=
  scale ((ofReal x).parts.2.natAbs / 308 + 1) ((ofReal x).parts.1 : Binary64) (ofReal x).parts.2

theorem real?_eq (x : Binary64) :
    (ofReal x).real? = (scaled x).map fun z => if x.isNegative then -z else z := by
  rw [← negative_ofReal x]
  rfl

theorem scaled_of_isZero {x : Binary64} (h0 : x.isZero = true) : scaled x = some 0 := by
  have hparts : (ofReal x).parts = (0, -1) := by
    rw [ofReal_of_isZero h0]
    rfl
  rw [scaled, hparts]
  decide +kernel

/-- **The magnitude of a number is read back nearly.** -/
theorem exists_scaled {x : Binary64} (hx : x.isFinite = true) : ∃ z v, scaled x = some z ∧
    z.Measures v ∧ Near 6 3 (magnitudeValue x.magnitude.toNat) v := by
  cases h0 : x.isZero with
  | true =>
    have hzero : Near 6 3 0 0 := by
      have hpos := mul_pos (mul_pos (by norm_num : (0 : ℚ) < (3 : ℕ)) halfLeast_pos)
        (pow_pos roundingRatio_pos 6)
      refine ⟨le_rfl, le_rfl, ?_, ?_⟩ <;> (rw [zero_add]; exact hpos.le)
    refine ⟨0, 0, scaled_of_isZero h0, Measures.zero, ?_⟩
    rw [(isZero_iff x).mp h0, magnitudeValue_zero]
    exact hzero
  | false =>
    have hreads := ofReal_readsBack hx h0
    have hfinite := fun k => isFinite_scaled hx h0 (k := k)
    have hlow := hreads.low
    have hhigh := hreads.high
    obtain ⟨v, hv, hvw, hv1⟩ := exists_significand hreads.pos hreads.lt
    have hnear := (hreads.nearest.nearest.near
      (mul_nonneg (Nat.cast_nonneg _) (zpow_pos (by norm_num) _).le)).symm
    rw [scaled]
    generalize (ofReal x).parts.1 = d at hv hvw hnear hfinite
    dsimp only at hlow hhigh hnear
    generalize (ofReal x).parts.2 = e at hlow hhigh hnear hfinite
    rcases le_or_gt 0 e with hsign | hsign
    · obtain ⟨k, rfl⟩ := Int.eq_ofNat_of_zero_le hsign
      obtain ⟨p, hp, hpw, hp1⟩ := exists_power (k := k) (by omega)
      have hfin := hfinite k rfl
      obtain ⟨w, hw, hww⟩ := (hv.mul hp).within hfin
        (full_le_one.trans (one_le_mul_of_one_le_of_one_le hv1 hp1))
      refine ⟨_, w, scale_of_nonneg (by omega) hfin, hw, ?_⟩
      rw [zpow_natCast] at hnear
      exact (hnear.trans ((hvw.mul hpw).trans hww).near).mono (by decide) (by decide)
    · obtain ⟨k, hk⟩ := Int.eq_ofNat_of_zero_le (Int.neg_nonneg_of_nonpos hsign.le)
      obtain rfl : e = -(k : ℤ) := by omega
      rw [zpow_neg, zpow_natCast, ← div_eq_mul_inv] at hnear
      rcases Nat.lt_or_ge 308 k with hlt | hle
      · -- the power is divided by in two steps, each of which may lead to a short mantissa
        obtain ⟨j, rfl⟩ := Nat.exists_eq_add_of_le hlt.le
        obtain ⟨p, hp, hpw, hp1⟩ := exists_power (k := 308) le_rfl
        obtain ⟨p', hp', hpw', hp1'⟩ := exists_power (k := j) (by omega)
        have hnonzero : (d : Binary64).isZero = false := by
          by_contra hzero
          rw [Bool.not_eq_false] at hzero
          have hvalue := hv.value
          rw [(isZero_iff _).mp hzero, magnitudeValue_zero] at hvalue
          linarith
        have hfirst := hv.div hp (by linarith)
        have hfin := (hfirst.le_of_le hv (div_le_self (by linarith) hp1)).1
        obtain ⟨w, hw, hww⟩ := hfirst.near hfin (div_nonneg (by linarith) (by linarith))
        have hsecond := hw.div hp' (by linarith)
        have hfin' := (hsecond.le_of_le hw (div_le_self hw.nonneg hp1')).1
        obtain ⟨w', hw', hww'⟩ := hsecond.near hfin' (div_nonneg hw.nonneg (by linarith))
        have hsteps : (-((308 + j : ℕ) : ℤ)).natAbs / 308 = 1 := by omega
        refine ⟨_, w', ?_, hw', ?_⟩
        · rw [hsteps]
          exact scale_of_lt hnonzero (by omega) (by omega)
        · rw [pow_add, ← div_div] at hnear
          have hquotient := (((hvw.div hpw).near.trans hww).div hpw'
            (one_le_pow₀ (by norm_num)) hp1').trans hww'
          exact hnear.trans hquotient
      · obtain ⟨p, hp, hpw, hp1⟩ := exists_power hle
        have hrounds := hv.div hp (by linarith)
        have hfin := (hrounds.le_of_le hv (div_le_self (by linarith) hp1)).1
        obtain ⟨w, hw, hww⟩ := hrounds.near hfin (div_nonneg (by linarith) (by linarith))
        refine ⟨_, w, scale_of_neg (by omega) hle, hw, ?_⟩
        exact (hnear.trans ((hvw.div hpw).near.trans hww)).mono (by decide) (by decide)

/-- **What was written for a number is read**, whatever number it may be. -/
theorem real?_ofReal {x : Binary64} (hx : x.isFinite = true) :
    (ofReal x).real? = some x.rereading := by
  obtain ⟨z, v, hz, -⟩ := exists_scaled hx
  rw [rereading, real?_eq, hz]
  rfl

end Json.Numeral

namespace Binary64

open Json.Numeral

theorem exists_rereading {x : Binary64} (hx : x.isFinite = true) : ∃ z v, z.Measures v ∧
    scaled x = some z ∧ x.rereading = (if x.isNegative then -z else z) ∧
      Near 6 3 (magnitudeValue x.magnitude.toNat) v := by
  obtain ⟨z, v, hz, hv, hnear⟩ := exists_scaled hx
  refine ⟨z, v, hv, hz, ?_, hnear⟩
  rw [rereading, real?_eq, hz]
  rfl

theorem isFinite_rereading {x : Binary64} (hx : x.isFinite = true) :
    x.rereading.isFinite = true := by
  obtain ⟨z, v, hv, -, hreread, -⟩ := exists_rereading hx
  rw [hreread]
  split_ifs
  · rw [isFinite_iff, magnitude_neg, ← isFinite_iff]
    exact hv.finite
  · exact hv.finite

/-- **A number changes little when it is written and read back.** -/
theorem rereading_error {x : Binary64} (hx : x.isFinite = true) :
    |x.rereading.toRat - x.toRat| ≤ |x.toRat| * 2 ^ (-50 : ℤ) + 2 ^ (-1073 : ℤ) := by
  obtain ⟨z, v, hv, -, hreread, hnear⟩ := exists_rereading hx
  have herror := hnear.error
  have habs : |x.toRat| = magnitudeValue x.magnitude.toNat := by
    rw [toRat]
    split_ifs
    · rw [abs_neg, abs_of_nonneg hnear.nonneg]
    · rw [abs_of_nonneg hnear.nonneg]
  rw [habs, hreread]
  by_cases hneg : x.isNegative = true
  · rw [if_pos hneg, toRat_neg, hv.toRat_eq, toRat, if_pos hneg, ← neg_sub', abs_neg]
    exact herror
  · rw [if_neg hneg, hv.toRat_eq, toRat, if_neg hneg]
    exact herror

theorem exists_scaled_rounds {x : Binary64} (hx : x.isFinite = true) (h0 : x.isZero = false)
    (hdigits : (ofReal x).parts.1 < 2 ^ 53) (hpower : (ofReal x).parts.2.natAbs ≤ 22) :
    ∃ z, scaled x = some z ∧ Rounds ((ofReal x).parts.1 * 10 ^ (ofReal x).parts.2) z := by
  have hfinite := fun k => isFinite_scaled hx h0 (k := k)
  rw [scaled]
  generalize (ofReal x).parts.1 = d at hdigits hfinite
  generalize (ofReal x).parts.2 = e at hpower hfinite
  have hd := (represents_natCast hdigits).measures
  rcases le_or_gt 0 e with hsign | hsign
  · obtain ⟨k, rfl⟩ := Int.eq_ofNat_of_zero_le hsign
    have hp : (powerOfTen k).Measures (10 ^ k) := measures_ofDecimal (by omega)
    rw [zpow_natCast]
    exact ⟨_, scale_of_nonneg (by omega) (hfinite k rfl), hd.mul hp⟩
  · obtain ⟨k, hk⟩ := Int.eq_ofNat_of_zero_le (Int.neg_nonneg_of_nonpos hsign.le)
    obtain rfl : e = -(k : ℤ) := by omega
    have hp : (powerOfTen k).Measures (10 ^ k) := measures_ofDecimal (by omega)
    rw [zpow_neg, zpow_natCast, ← div_eq_mul_inv]
    exact ⟨_, scale_of_neg (by omega) (by omega), hd.div hp (pow_pos (by norm_num) k)⟩

/-- **A number whose digits and power are small is read back as it was.** -/
theorem rereading_eq {x : Binary64} (hx : x.isFinite = true)
    (hdigits : (ofReal x).parts.1 < 2 ^ 53) (hpower : (ofReal x).parts.2.natAbs ≤ 22) :
    x.rereading = x := by
  suffices hscaled : ∃ z, scaled x = some z ∧ z.isNegative = false ∧
      z.magnitude.toNat = x.magnitude.toNat by
    obtain ⟨z, hz, hsign, hmag⟩ := hscaled
    rw [rereading, real?_eq, hz]
    show (if x.isNegative = true then -z else z) = x
    split_ifs with hneg
    · exact eq_of_magnitude (by rw [isNegative_neg, hsign, hneg]; rfl) (by rw [magnitude_neg, hmag])
    · exact eq_of_magnitude (by rw [hsign, Bool.eq_false_iff.mpr hneg]) hmag
  cases h0 : x.isZero with
  | true => exact ⟨0, scaled_of_isZero h0, rfl, ((isZero_iff x).mp h0).symm⟩
  | false =>
    obtain ⟨z, hz, hrounds⟩ := exists_scaled_rounds hx h0 hdigits hpower
    obtain ⟨n, hn, hmag⟩ := hrounds.magnitude
    have hxmag := (isFinite_iff x).mp hx
    have hxpos : x.magnitude.toNat ≠ 0 := fun hzero => by
      rw [(isZero_iff x).mpr hzero] at h0
      cases h0
    -- the number itself is what its decimal is rounded to
    obtain rfl := hn.unique (ofReal_readsBack hx h0).nearest
    rw [min_eq_left hxmag.le] at hmag
    refine ⟨z, hz, ?_, hmag⟩
    have hsign := hrounds.sign.resolve_right (hmag ▸ hxpos)
    rw [sign] at hsign
    by_contra hneg
    rw [if_pos (Bool.eq_true_of_not_eq_false hneg)] at hsign
    cases hsign

end Binary64

end Queueing
