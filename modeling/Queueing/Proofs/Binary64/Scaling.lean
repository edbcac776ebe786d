import Queueing.Proofs.Binary64.Operations

/-!
# Scaling binary64 numbers by powers of ten

Products are rounded to the nearest number (`Measures.mul`), and so are the powers of ten, of which
those up to `10 ^ 22` are not rounded at all (`measures_ofDecimal`, `rounds_ofDecimal`). A rounded
number is off by a half of the last place of the exact one at most (`Nearest.error`), so that a
chain of operations is off by as many factors `roundingRatio` as it has operations
(`Within.mul`, `Within.div`, `Rounds.within`), and by a few halves of the least magnitude where
mantissas may be short (`Near.trans`, `Near.div`, `Rounds.near`).
-/

namespace Queueing

namespace Binary64

open Float.Model Float.Model.UnpackedFloat

/-! ## Products -/

theorem Canonical.le_target_mul {m₁ m₂ : ℕ} {e₁ e₂ : ℤ} (h₁ : Canonical m₁ e₁)
    (h₂ : Canonical m₂ e₂) (hm₁ : 0 < m₁) (hm₂ : 0 < m₂) :
    e₁ + e₂ ≤ target (m₁ * m₂) (e₁ + e₂) := by
  have hpos : m₁ * m₂ ≠ 0 := (Nat.mul_pos hm₁ hm₂).ne'
  have hfull : 2 ^ 52 ≤ m₁ * m₂ → e₁ + e₂ ≤ target (m₁ * m₂) (e₁ + e₂) := by
    intro hle
    have := (Nat.le_log2 hpos).mpr hle
    rw [target]
    omega
  rcases h₁.normal with hn | hn
  · exact hfull (hn.trans (Nat.le_mul_of_pos_right _ hm₂))
  · rcases h₂.normal with hn' | hn'
    · exact hfull (hn'.trans (Nat.le_mul_of_pos_left _ hm₁))
    · rw [target]
      omega

/-- **A product is rounded to the nearest number.** -/
theorem Measures.mul {x y : Binary64} {p q : ℚ} (hx : x.Measures p) (hy : y.Measures q) :
    Rounds (p * q) (x * y) := by
  have hbits := toNat_bits_mul hx.finite hy.finite
  rcases hx.unpacked_cases with ⟨hxu, rfl⟩ | ⟨m₁, e₁, hm₁, hxu, hc₁, rfl⟩
  · rw [zero_mul]
    refine rounds_of_zero ?_ hbits
    rcases hy.unpacked_cases with ⟨hyu, -⟩ | ⟨m₂, e₂, hm₂, hyu, -⟩
    · rw [hxu, hyu]
      exact ⟨_, rfl⟩
    · rw [hxu, hyu]
      exact ⟨_, rfl⟩
  · rcases hy.unpacked_cases with ⟨hyu, rfl⟩ | ⟨m₂, e₂, hm₂, hyu, hc₂, rfl⟩
    · rw [mul_zero]
      refine rounds_of_zero ?_ hbits
      rw [hxu, hyu]
      exact ⟨_, rfl⟩
    · have hvalue : (m₁ : ℚ) * 2 ^ e₁ * (m₂ * 2 ^ e₂) =
          ((m₁ * m₂ : ℕ) : ℚ) * 2 ^ (e₁ + e₂) := by
        rw [zpow_add₀ two_ne_zero]
        push_cast
        ring
      have hmul : UnpackedFloat.mul Format.binary64 x.unpacked y.unpacked =
          roundWithAccuracy Format.binary64 .positive (m₁ * m₂) (e₁ + e₂) .exact := by
        rw [hxu, hyu]
        rfl
      obtain ⟨n, hn, hpack⟩ := roundWithAccuracy_nearest .positive (a := .exact)
        (Keeps.exact (m₁ * m₂)) (hc₁.le_target_mul hc₂ hm₁ hm₂)
      rw [hmul] at hbits
      rw [hvalue]
      exact rounds_of_toNat hn (hbits.trans hpack)

/-! ## Powers of ten -/

theorem small_powers : ∀ k < 23, (ofDecimal 1 (k : ℕ)).isFinite = true ∧
    (ofDecimal 1 (k : ℕ)).isNegative = false ∧
    (ofDecimal 1 (k : ℕ)).magnitude.toNat =
      place (5 ^ k * 2 ^ (52 - (5 ^ k).log2)) ((k : ℤ) - (52 - (5 ^ k).log2 : ℕ)) ∧
    (5 ^ k).log2 ≤ 52 := by
  decide +kernel

/-- **A power of ten up to `10 ^ 22` is not rounded.** -/
theorem measures_ofDecimal {k : ℕ} (hk : k ≤ 22) : (ofDecimal 1 k).Measures (10 ^ k) := by
  obtain ⟨hfin, hsign, hmag, hlog⟩ := small_powers k (by omega)
  have hpos : 5 ^ k ≠ 0 := (Nat.pow_pos (by decide)).ne'
  obtain ⟨hlow, hhigh⟩ := (Nat.log2_eq_iff hpos).mp rfl
  have hc : Canonical (5 ^ k * 2 ^ (52 - (5 ^ k).log2)) ((k : ℤ) - (52 - (5 ^ k).log2 : ℕ)) := by
    refine ⟨?_, by omega, Or.inl ?_⟩
    · refine (Nat.mul_lt_mul_of_pos_right hhigh (Nat.two_pow_pos _)).trans_le ?_
      rw [← Nat.pow_add]
      exact Nat.pow_le_pow_right (by decide) (by omega)
    · refine le_trans ?_ (Nat.mul_le_mul_right _ hlow)
      rw [← Nat.pow_add]
      exact Nat.pow_le_pow_right (by decide) (by omega)
  refine ⟨hfin, Or.inl ?_, ?_⟩
  · rw [sign, hsign]
    rfl
  · rw [hmag, magnitudeValue_place hc, zpow_sub₀ two_ne_zero, zpow_natCast, zpow_natCast]
    have hten : (10 : ℚ) ^ k = 5 ^ k * 2 ^ k := by
      rw [← mul_pow]
      norm_num
    rw [hten]
    push_cast
    field_simp

/-- **A power of ten is rounded to the nearest number.** -/
theorem rounds_ofDecimal {k : ℕ} (hk : k ≤ 308) : Rounds (10 ^ k) (ofDecimal 1 k) := by
  by_cases hsmall : k ≤ 22
  · exact (measures_ofDecimal hsmall).rounds
  · have hbits : (ofDecimal 1 k).bits.toNat = (UnpackedFloat.pack Format.binary64
        (UnpackedFloat.ofScientific Format.binary64 1 k)).toNat := by
      have hsign : decide ((k : ℤ) < 0) = false := decide_eq_false (by omega)
      rw [ofDecimal, Int.natAbs_natCast, hsign, Float.ofScientific, dif_neg fun h => hsmall h.2]
      rfl
    have hround : UnpackedFloat.ofScientific Format.binary64 1 k =
        roundWithAccuracy Format.binary64 .positive (2 ^ 53 * 10 ^ k) (-53) .exact := by
      have hhigh : ¬ (k : ℤ) > 2 ^ Format.binary64.exponentBits := by
        show ¬ (k : ℤ) > 2 ^ 11
        omega
      have hlow : ¬ (k : ℤ) < -((2 ^ Format.binary64.exponentBits : ℤ) + Nat.log2 1) := by
        have : (0 : ℤ) ≤ 2 ^ Format.binary64.exponentBits := by decide
        omega
      rw [UnpackedFloat.ofScientific, dif_neg one_ne_zero, if_neg hhigh, if_neg hlow,
        if_pos (Int.natCast_nonneg k), UnpackedFloat.mul, Int.toNat_natCast]
      show roundWithAccuracy Format.binary64 .positive (1 <<< 53 * 10 ^ k) (-53 + 0) .exact = _
      rw [Nat.shiftLeft_eq, Nat.one_mul, Int.add_zero]
    have hle : (-53 : ℤ) ≤ target (2 ^ 53 * 10 ^ k) (-53) := by
      have hpos : 2 ^ 53 * 10 ^ k ≠ 0 := by positivity
      have := (Nat.le_log2 hpos).mpr (Nat.le_mul_of_pos_right _ (Nat.pow_pos (by decide)))
      rw [target]
      omega
    obtain ⟨n, hn, hpack⟩ :=
      roundWithAccuracy_nearest .positive (a := .exact) (Keeps.exact (2 ^ 53 * 10 ^ k)) hle
    have hvalue : ((2 ^ 53 * 10 ^ k : ℕ) : ℚ) * 2 ^ (-53 : ℤ) = 10 ^ k := by
      rw [zpow_neg]
      push_cast
      field_simp
    rw [hround] at hbits
    rw [hvalue] at hn
    exact rounds_of_toNat hn (hbits.trans hpack)

/-! ## Rounding errors -/

/-- The next magnitude is one part in `2 ^ 52` farther at most, unless mantissas are short. -/
theorem magnitudeValue_succ_le {n : ℕ} (hn : 2 ^ 52 ≤ n) :
    magnitudeValue (n + 1) ≤ magnitudeValue n * (1 + 2 ^ (-52 : ℤ)) := by
  obtain ⟨m, e, hc, rfl⟩ := exists_canonical_place n
  have hm : 2 ^ 52 ≤ m := by
    rcases hc.normal with hn' | he
    · exact hn'
    · rw [place, he] at hn
      omega
  have hpos : (0 : ℚ) < 2 ^ e := zpow_pos two_pos e
  have hone : (1 : ℚ) ≤ m * 2 ^ (-52 : ℤ) := by
    rw [zpow_neg, ← div_eq_mul_inv, one_le_div (zpow_pos two_pos _)]
    exact_mod_cast hm
  rw [magnitudeValue_place hc, magnitudeValue_place_succ hc]
  push_cast
  nlinarith

theorem magnitudeValue_succ_eq {n : ℕ} (hn : n < 2 ^ 52) :
    magnitudeValue (n + 1) = magnitudeValue n + 2 ^ (-1074 : ℤ) := by
  have hc : Canonical n (-1074) := ⟨by omega, le_rfl, Or.inr rfl⟩
  have hplace : place n (-1074) = n := by
    rw [place]
    omega
  have hsucc := magnitudeValue_place_succ hc
  have hvalue := magnitudeValue_place hc
  rw [hplace] at hsucc hvalue
  rw [hsucc, hvalue, Nat.cast_add, Nat.cast_one, add_mul, one_mul]

namespace Nearest

variable {q : ℚ} {n : ℕ}

/-- A number lies within half of the gap between two magnitudes from the nearest one. -/
theorem exists_gap (h0 : 0 ≤ q) (h : Nearest q n) : ∃ k, magnitudeValue k ≤ q ∧
    q < magnitudeValue (k + 1) ∧
      2 * |magnitudeValue n - q| ≤ magnitudeValue (k + 1) - magnitudeValue k := by
  rcases le_or_gt (magnitudeValue n) q with hle | hlt
  · have hmiddle : 2 * q ≤ magnitudeValue n + magnitudeValue (n + 1) := by
      by_contra hfar
      exact lt_irrefl n (h.gt_of_middle_lt (not_le.mp hfar))
    have hnext := magnitudeValue_strictMono (Nat.lt_succ_self n)
    rw [Nat.succ_eq_add_one] at hnext
    refine ⟨n, hle, by linarith, ?_⟩
    rw [abs_of_nonpos (by linarith)]
    linarith
  · obtain ⟨k, rfl⟩ : ∃ k, n = k + 1 := by
      refine Nat.exists_eq_add_one.mpr (Nat.pos_of_ne_zero ?_)
      rintro rfl
      rw [magnitudeValue_zero] at hlt
      exact absurd h0 (not_le.mpr hlt)
    have hmiddle : magnitudeValue k + magnitudeValue (k + 1) ≤ 2 * q := by
      by_contra hfar
      exact Nat.not_succ_le_self k (h.le_of_lt_middle (not_le.mp hfar))
    have hnext := magnitudeValue_strictMono (Nat.lt_succ_self k)
    rw [Nat.succ_eq_add_one] at hnext
    refine ⟨k, by linarith, hlt, ?_⟩
    rw [abs_of_nonneg (by linarith)]
    linarith

/-- **Rounding is off by one part in `2 ^ 53` at most**, where mantissas are not short. -/
theorem error (h : Nearest q n) (hq : magnitudeValue (2 ^ 52) ≤ q) :
    |magnitudeValue n - q| ≤ q * 2 ^ (-53 : ℤ) := by
  have hpos : 0 ≤ magnitudeValue (2 ^ 52) := by
    rw [← magnitudeValue_zero]
    exact magnitudeValue_strictMono.monotone (Nat.zero_le _)
  obtain ⟨k, hlow, hhigh, hgap⟩ := h.exists_gap (hpos.trans hq)
  have hk : 2 ^ 52 ≤ k := by
    have := magnitudeValue_strictMono.lt_iff_lt.mp (hq.trans_lt hhigh)
    omega
  have hstep := magnitudeValue_succ_le hk
  have hhalf : (2 : ℚ) ^ (-52 : ℤ) = 2 * 2 ^ (-53 : ℤ) := by norm_num
  have hscaled : magnitudeValue k * 2 ^ (-53 : ℤ) ≤ q * 2 ^ (-53 : ℤ) :=
    mul_le_mul_of_nonneg_right hlow (zpow_pos two_pos _).le
  rw [hhalf] at hstep
  linarith

/-- Where mantissas may be short, rounding can be off by half of the least magnitude as well. -/
theorem error_add (h : Nearest q n) (h0 : 0 ≤ q) :
    |magnitudeValue n - q| ≤ q * 2 ^ (-53 : ℤ) + 2 ^ (-1075 : ℤ) := by
  have hleast : (0 : ℚ) < 2 ^ (-1075 : ℤ) := zpow_pos two_pos _
  by_cases hq : magnitudeValue (2 ^ 52) ≤ q
  · have := h.error hq
    linarith
  · obtain ⟨k, hlow, hhigh, hgap⟩ := h.exists_gap h0
    have hk : k < 2 ^ 52 :=
      magnitudeValue_strictMono.lt_iff_lt.mp (hlow.trans_lt (not_le.mp hq))
    have hhalf : (2 : ℚ) ^ (-1074 : ℤ) = 2 * 2 ^ (-1075 : ℤ) := by
      rw [← zpow_one_add₀ two_ne_zero]
      norm_num
    have hnonneg : 0 ≤ q * 2 ^ (-53 : ℤ) := mul_nonneg h0 (zpow_pos two_pos _).le
    rw [magnitudeValue_succ_eq hk, hhalf] at hgap
    linarith

end Nearest

/-! ## Chains of operations -/

/-- The factor by which a number is rounded at most, up or down. -/
def roundingRatio : ℚ := 2 ^ 53 / (2 ^ 53 - 1)

/-- A number is the other one up to so many roundings. -/
structure Within (n : ℕ) (q v : ℚ) : Prop where
  pos : 0 < q
  low : q ≤ v * roundingRatio ^ n
  high : v ≤ q * roundingRatio ^ n

theorem roundingRatio_pos : 0 < roundingRatio := by
  norm_num [roundingRatio]

theorem one_le_roundingRatio : 1 ≤ roundingRatio := by
  norm_num [roundingRatio]

namespace Within

variable {m n : ℕ} {p q v w : ℚ}

theorem value_pos (h : Within n q v) : 0 < v :=
  pos_of_mul_pos_left (h.pos.trans_le h.low) (pow_pos roundingRatio_pos n).le

theorem mul (h : Within m p v) (h' : Within n q w) : Within (m + n) (p * q) (v * w) := by
  have hm := pow_pos roundingRatio_pos m
  have hn := pow_pos roundingRatio_pos n
  refine ⟨mul_pos h.pos h'.pos, ?_, ?_⟩
  · rw [pow_add, mul_mul_mul_comm]
    exact mul_le_mul h.low h'.low h'.pos.le (mul_pos h.value_pos hm).le
  · rw [pow_add, mul_mul_mul_comm]
    exact mul_le_mul h.high h'.high h'.value_pos.le (mul_pos h.pos hm).le

theorem inv (h : Within n q v) : Within n q⁻¹ v⁻¹ := by
  have hn := pow_pos roundingRatio_pos n
  refine ⟨inv_pos.mpr h.pos, ?_, ?_⟩
  · rw [inv_mul_eq_div, inv_eq_one_div, div_le_div_iff₀ h.pos h.value_pos, one_mul, mul_comm]
    exact h.high
  · rw [inv_mul_eq_div, inv_eq_one_div, div_le_div_iff₀ h.value_pos h.pos, one_mul, mul_comm]
    exact h.low

theorem div (h : Within m p v) (h' : Within n q w) : Within (m + n) (p / q) (v / w) := by
  rw [div_eq_mul_inv, div_eq_mul_inv]
  exact h.mul h'.inv

theorem trans (h : Within m p q) (h' : Within n q v) : Within (m + n) p v := by
  have hm := (pow_pos roundingRatio_pos m).le
  refine ⟨h.pos, h.low.trans ?_, h'.high.trans ?_⟩
  · rw [pow_add, mul_comm (roundingRatio ^ m), ← mul_assoc]
    exact mul_le_mul_of_nonneg_right h'.low hm
  · rw [pow_add, ← mul_assoc]
    exact mul_le_mul_of_nonneg_right h.high (pow_pos roundingRatio_pos n).le

end Within

def halfLeast : ℚ := 2 ^ (-1075 : ℤ)

theorem halfLeast_pos : 0 < halfLeast := zpow_pos two_pos _

/-- A number is the other one up to so many roundings and so many halves of the least magnitude. -/
structure Near (n k : ℕ) (q v : ℚ) : Prop where
  nonneg : 0 ≤ q
  value_nonneg : 0 ≤ v
  low : q ≤ (v + k * halfLeast) * roundingRatio ^ n
  high : v ≤ (q + k * halfLeast) * roundingRatio ^ n

theorem Within.near {n : ℕ} {q v : ℚ} (h : Within n q v) : Near n 0 q v := by
  refine ⟨h.pos.le, h.value_pos.le, ?_, ?_⟩
  · rw [Nat.cast_zero, zero_mul, add_zero]
    exact h.low
  · rw [Nat.cast_zero, zero_mul, add_zero]
    exact h.high

namespace Near

variable {m n j k : ℕ} {p q v w : ℚ}

theorem symm (h : Near n k q v) : Near n k v q := ⟨h.value_nonneg, h.nonneg, h.high, h.low⟩

theorem high_trans (hpq : p ≤ (q + j * halfLeast) * roundingRatio ^ m)
    (hqv : q ≤ (v + k * halfLeast) * roundingRatio ^ n) :
    p ≤ (v + (j + k : ℕ) * halfLeast) * roundingRatio ^ (m + n) := by
  have hleast := halfLeast_pos
  have hm := pow_pos roundingRatio_pos m
  have hone : 1 ≤ roundingRatio ^ n := one_le_pow₀ one_le_roundingRatio
  have hj : (0 : ℚ) ≤ j * halfLeast := mul_nonneg (Nat.cast_nonneg j) hleast.le
  calc p ≤ (q + j * halfLeast) * roundingRatio ^ m := hpq
    _ ≤ ((v + k * halfLeast) * roundingRatio ^ n + j * halfLeast * roundingRatio ^ n) *
          roundingRatio ^ m := by
        refine mul_le_mul_of_nonneg_right (add_le_add hqv ?_) hm.le
        exact le_mul_of_one_le_right hj hone
    _ = (v + (j + k : ℕ) * halfLeast) * roundingRatio ^ (m + n) := by
        push_cast
        ring

theorem trans (h : Near m j p q) (h' : Near n k q v) : Near (m + n) (j + k) p v := by
  refine ⟨h.nonneg, h'.value_nonneg, high_trans h.low h'.low, ?_⟩
  rw [add_comm m, add_comm j]
  exact high_trans h'.high h.high

theorem mono (h : Near m j q v) (hm : m ≤ n) (hj : j ≤ k) : Near n k q v := by
  have hleast := halfLeast_pos
  have hpow : roundingRatio ^ m ≤ roundingRatio ^ n := pow_le_pow_right₀ one_le_roundingRatio hm
  have hadd : (j : ℚ) * halfLeast ≤ k * halfLeast :=
    mul_le_mul_of_nonneg_right (Nat.cast_le.mpr hj) hleast.le
  have hpos := pow_pos roundingRatio_pos m
  have hk : (0 : ℚ) ≤ k * halfLeast := mul_nonneg (Nat.cast_nonneg k) hleast.le
  refine ⟨h.nonneg, h.value_nonneg, h.low.trans ?_, h.high.trans ?_⟩
  · exact mul_le_mul (by linarith) hpow hpos.le (add_nonneg h.value_nonneg hk)
  · exact mul_le_mul (by linarith) hpow hpos.le (add_nonneg h.nonneg hk)

theorem high_div (hqv : q ≤ (v + k * halfLeast) * roundingRatio ^ n) (h : Within m p w)
    (hp : 1 ≤ p) (hv : 0 ≤ v) :
    q / w ≤ (v / p + k * halfLeast) * roundingRatio ^ (n + m) := by
  have hleast := halfLeast_pos
  have hn := pow_pos roundingRatio_pos n
  have hk : (0 : ℚ) ≤ k * halfLeast := mul_nonneg (Nat.cast_nonneg k) hleast.le
  have hratio := roundingRatio_pos
  rw [div_le_iff₀ h.value_pos]
  have hv' : v ≤ v / p * w * roundingRatio ^ m := by
    rw [div_mul_eq_mul_div, div_mul_eq_mul_div, le_div_iff₀ h.pos, mul_assoc]
    exact mul_le_mul_of_nonneg_left h.low hv
  have hk' : (k : ℚ) * halfLeast ≤ k * halfLeast * (w * roundingRatio ^ m) :=
    le_mul_of_one_le_right hk (hp.trans h.low)
  calc q ≤ (v + k * halfLeast) * roundingRatio ^ n := hqv
    _ ≤ (v / p * w * roundingRatio ^ m + k * halfLeast * (w * roundingRatio ^ m)) *
          roundingRatio ^ n := mul_le_mul_of_nonneg_right (add_le_add hv' hk') hn.le
    _ = (v / p + k * halfLeast) * roundingRatio ^ (n + m) * w := by
        rw [pow_add]
        ring

theorem div (h : Near n k q v) (h' : Within m p w) (hp : 1 ≤ p) (hw : 1 ≤ w) :
    Near (n + m) k (q / p) (v / w) :=
  ⟨div_nonneg h.nonneg h'.pos.le, div_nonneg h.value_nonneg h'.value_pos.le,
    high_div h.low ⟨h'.value_pos, h'.high, h'.low⟩ hw h.value_nonneg,
    high_div h.high h' hp h.nonneg⟩

/-- The error after six roundings, three of them where mantissas may be short. -/
theorem error (h : Near 6 3 q v) : |v - q| ≤ q * 2 ^ (-50 : ℤ) + 2 ^ (-1073 : ℤ) := by
  have hleast := halfLeast_pos
  have hscale : (2 : ℚ) ^ (-1073 : ℤ) = 4 * halfLeast := by
    rw [halfLeast, show (-1073 : ℤ) = 2 + -1075 by norm_num, zpow_add₀ two_ne_zero]
    norm_num
  have hratio : roundingRatio ^ 6 ≤ 1 + 2 ^ (-50 : ℤ) ∧
      1 ≤ roundingRatio ^ 6 * 1 ∧ (1 - 2 ^ (-50 : ℤ)) * roundingRatio ^ 6 ≤ 1 := by
    norm_num [roundingRatio]
  have hlow := h.low
  have hhigh := h.high
  have hq := h.nonneg
  rw [hscale]
  generalize roundingRatio ^ 6 = r at hratio hlow hhigh
  generalize halfLeast = least at hleast hlow hhigh ⊢
  obtain ⟨hr, hone, hr'⟩ := hratio
  norm_num at hr hr' hlow hhigh ⊢
  rw [abs_le]
  constructor
  · nlinarith
  · nlinarith

end Near

theorem Nearest.near {q : ℚ} {n : ℕ} (h : Nearest q n) (h0 : 0 ≤ q) :
    Near 1 1 q (magnitudeValue n) := by
  have herror := abs_le.mp (h.error_add h0)
  have hleast := halfLeast_pos
  have hvalue : 0 ≤ magnitudeValue n := by
    rw [← magnitudeValue_zero]
    exact magnitudeValue_strictMono.monotone (Nat.zero_le _)
  rw [← halfLeast] at herror
  norm_num at herror
  refine ⟨h0, hvalue, ?_, ?_⟩
  · rw [Nat.cast_one, one_mul]
    norm_num [roundingRatio]
    linarith
  · rw [Nat.cast_one, one_mul]
    norm_num [roundingRatio]
    linarith

theorem magnitudeValue_full : magnitudeValue (2 ^ 52) = 2 ^ (-1022 : ℤ) := by
  have hc : Canonical (2 ^ 52) (-1074) := ⟨by decide, le_rfl, Or.inl le_rfl⟩
  have hvalue := magnitudeValue_place hc
  rw [show place (2 ^ 52) (-1074) = 2 ^ 52 from rfl] at hvalue
  rw [hvalue, Nat.cast_pow, Nat.cast_ofNat, ← zpow_natCast, ← zpow_add₀ two_ne_zero]
  rfl

theorem full_le_one : magnitudeValue (2 ^ 52) ≤ 1 := by
  rw [magnitudeValue_full]
  exact zpow_le_one_of_nonpos₀ one_le_two (by decide)

namespace Rounds

variable {x : Binary64} {q : ℚ}

theorem exists_nearest (hx : Rounds q x) (hfin : x.isFinite = true) :
    ∃ n, NearestEven q n ∧ x.Measures (magnitudeValue n) := by
  obtain ⟨n, hn, hmag⟩ := hx.magnitude
  have hlt := (isFinite_iff x).mp hfin
  obtain rfl : x.magnitude.toNat = n := by omega
  exact ⟨_, hn, hfin, hx.sign, rfl⟩

/-- **A rounded number is within one rounding**, where mantissas are not short. -/
theorem within (hx : Rounds q x) (hfin : x.isFinite = true) (hq : magnitudeValue (2 ^ 52) ≤ q) :
    ∃ v, x.Measures v ∧ Within 1 q v := by
  obtain ⟨n, hn, hvalue⟩ := hx.exists_nearest hfin
  have hfull : 0 < magnitudeValue (2 ^ 52) := magnitudeValue_full ▸ zpow_pos two_pos _
  have herror := abs_le.mp (hn.nearest.error hq)
  norm_num at herror
  refine ⟨_, hvalue, hfull.trans_le hq, ?_, ?_⟩
  · norm_num [roundingRatio]
    linarith
  · norm_num [roundingRatio]
    linarith

theorem near (hx : Rounds q x) (hfin : x.isFinite = true) (h0 : 0 ≤ q) :
    ∃ v, x.Measures v ∧ Near 1 1 q v := by
  obtain ⟨n, hn, hvalue⟩ := hx.exists_nearest hfin
  exact ⟨_, hvalue, hn.nearest.near h0⟩

end Rounds

/-! ## The greatest number -/

def greatest : Binary64 := ⟨0x7FEFFFFFFFFFFFFF⟩

theorem greatest_measures : greatest.Measures ((2 ^ 53 - 1 : ℕ) * 2 ^ (971 : ℤ)) := by
  refine ⟨rfl, Or.inl rfl, ?_⟩
  rw [show greatest.magnitude.toNat = place (2 ^ 53 - 1) 971 from rfl]
  exact magnitudeValue_place ⟨by decide, by decide, Or.inl (by decide)⟩

theorem Rounds.isFinite {x : Binary64} {q : ℚ} (hx : Rounds q x)
    (h : q ≤ (2 ^ 53 - 1 : ℕ) * 2 ^ (971 : ℤ)) : x.isFinite = true :=
  (hx.le_of_le greatest_measures h).1

end Binary64

end Queueing
