import Queueing.Proofs.Binary64.Infinity
import Queueing.Proofs.Binary64.Nearest

/-!
# Operations round to the nearest number

Sums, differences, quotients and natural numbers that are not below zero are rounded to the
nearest magnitude, or to infinity beyond the finite ones (`Measures.add`, `Measures.sub`,
`Measures.div`, `rounds_natCast`). So each of them keeps the bounds that the exact number has
(`Rounds.le_of_le`, `Rounds.ge_of_ge`), and is above zero unless the exact number is no more than
half of the least magnitude (`Rounds.pos`).
-/

namespace Queueing

namespace Binary64

open Float.Model Float.Model.UnpackedFloat

/-! ## Rounded numbers -/

/-- The pattern to which a number that is not below zero is rounded. A zero may have a sign. -/
structure Rounds (q : ℚ) (x : Binary64) : Prop where
  sign : x.sign = .positive ∨ x.magnitude.toNat = 0
  magnitude : ∃ n, NearestEven q n ∧ x.magnitude.toNat = min n 0x7FF0000000000000

theorem exists_measures {x : Binary64} (hx : x.isFinite = true) (h0 : 0 ≤ x) :
    ∃ q, x.Measures q :=
  ⟨_, hx, sign_of_nonneg h0, rfl⟩

theorem exists_measures_le {x y : Binary64} {p : ℚ} (hx : x.isFinite = true) (h0 : 0 ≤ x)
    (hy : y.Measures p) (hle : x ≤ y) : ∃ q, x.Measures q ∧ q ≤ p := by
  obtain ⟨q, hq⟩ := exists_measures hx h0
  exact ⟨q, hq, (hq.le_iff hy).mp hle⟩

theorem Measures.nonneg {x : Binary64} {q : ℚ} (hx : x.Measures q) : 0 ≤ q := by
  rw [← hx.value, ← magnitudeValue_zero]
  exact magnitudeValue_strictMono.monotone (Nat.zero_le _)

theorem Measures.rounds {x : Binary64} {q : ℚ} (hx : x.Measures q) : Rounds q x := by
  refine ⟨hx.sign, x.magnitude.toNat, ?_, ?_⟩
  · rw [← hx.value]
    exact NearestEven.of_value _
  · exact (min_eq_left ((isFinite_iff x).mp hx.finite).le).symm

theorem rounds_of_toNat {x : Binary64} {q : ℚ} {n : ℕ} (hn : NearestEven q n)
    (h : x.bits.toNat = signPart .positive + min n 0x7FF0000000000000) : Rounds q x := by
  obtain ⟨hsign, hmag⟩ :=
    sign_magnitude_of_toNat (lt_of_le_of_lt (min_le_right _ _) (by decide)) h
  exact ⟨Or.inl hsign, n, hn, hmag⟩

namespace Rounds

variable {x y : Binary64} {p q : ℚ}

theorem magnitude_le (h : Rounds q x) : x.magnitude.toNat ≤ 0x7FF0000000000000 := by
  obtain ⟨n, -, hmag⟩ := h.magnitude
  exact hmag ▸ min_le_right _ _

theorem finite_or_eq (h : Rounds q x) : x.isFinite = true ∨ x = infinity :=
  isFinite_or_eq_infinity h.sign h.magnitude_le

theorem isNaN (h : Rounds q x) : x.isNaN = false := isNaN_eq_false_of_le h.magnitude_le

theorem position (h : Rounds q x) : x.position = x.magnitude.toNat := position_of_sign h.sign

theorem le_iff (hx : Rounds q x) (hy : y.Measures p) :
    x ≤ y ↔ x.magnitude.toNat ≤ y.magnitude.toNat := by
  rw [Binary64.le_iff, hx.isNaN, hy.isNaN, hx.position, hy.position, Int.ofNat_le]
  simp only [true_and]

theorem ge_iff (hx : Rounds q x) (hy : y.Measures p) :
    y ≤ x ↔ y.magnitude.toNat ≤ x.magnitude.toNat := by
  rw [Binary64.le_iff, hx.isNaN, hy.isNaN, hx.position, hy.position, Int.ofNat_le]
  simp only [true_and]

theorem gt_iff (hx : Rounds q x) (hy : y.Measures p) :
    y < x ↔ y.magnitude.toNat < x.magnitude.toNat := by
  rw [Binary64.lt_iff, hx.isNaN, hy.isNaN, hx.position, hy.position, Int.ofNat_lt]
  simp only [true_and]

theorem le_of_le (hx : Rounds q x) (hy : y.Measures p) (h : q ≤ p) :
    x.isFinite = true ∧ x ≤ y := by
  obtain ⟨n, hn, hmag⟩ := hx.magnitude
  have hle : n ≤ y.magnitude.toNat := hn.nearest.le_of_le (hy.value.symm ▸ h)
  have hfin := (isFinite_iff y).mp hy.finite
  rw [hx.le_iff hy, isFinite_iff]
  omega

theorem ge_of_ge (hx : Rounds q x) (hy : y.Measures p) (h : p ≤ q) : y ≤ x := by
  obtain ⟨n, hn, hmag⟩ := hx.magnitude
  have hle : y.magnitude.toNat ≤ n := hn.nearest.ge_of_ge (hy.value.symm ▸ h)
  have hfin := (isFinite_iff y).mp hy.finite
  rw [hx.ge_iff hy]
  omega

theorem magnitude_mono (hx : Rounds q x) (hy : Rounds p y) (hle : q ≤ p) :
    x.magnitude.toNat ≤ y.magnitude.toNat := by
  obtain ⟨n, hn, hxm⟩ := hx.magnitude
  obtain ⟨k, hk, hym⟩ := hy.magnitude
  have := hn.mono hk hle
  omega

theorem nonneg (hx : Rounds q x) : 0 ≤ x := (hx.ge_iff .zero).mpr (Nat.zero_le _)

/-- What is above the middle of a finite number and the next one is rounded above the finite
number. -/
theorem gt_of_middle_lt (hx : Rounds q x) (hy : y.Measures p)
    (h : p + magnitudeValue (y.magnitude.toNat + 1) < 2 * q) : y < x := by
  obtain ⟨n, hn, hmag⟩ := hx.magnitude
  have hlt : y.magnitude.toNat < n := hn.nearest.gt_of_middle_lt (hy.value.symm ▸ h)
  have hfin := (isFinite_iff y).mp hy.finite
  rw [hx.gt_iff hy]
  omega

theorem le_of_lt_middle (hx : Rounds q x) (hy : y.Measures p)
    (h : 2 * q < p + magnitudeValue (y.magnitude.toNat + 1)) : x.isFinite = true ∧ x ≤ y := by
  obtain ⟨n, hn, hmag⟩ := hx.magnitude
  have hle : n ≤ y.magnitude.toNat := hn.nearest.le_of_lt_middle (hy.value.symm ▸ h)
  have hfin := (isFinite_iff y).mp hy.finite
  rw [hx.le_iff hy, isFinite_iff]
  omega

end Rounds

theorem magnitudeValue_one : magnitudeValue 1 = 2 ^ (-1074 : ℤ) := by
  rw [magnitudeValue, if_pos (by norm_num), Nat.cast_one, one_mul]

theorem magnitudeValue_succ_ge (n : ℕ) :
    magnitudeValue n + 2 ^ (-1074 : ℤ) ≤ magnitudeValue (n + 1) := by
  obtain ⟨m, e, hc, rfl⟩ := exists_canonical_place n
  have hstep : (2 : ℚ) ^ (-1074 : ℤ) ≤ 2 ^ e := zpow_le_zpow_right₀ one_le_two hc.low
  rw [magnitudeValue_place hc, magnitudeValue_place_succ hc, Nat.cast_add, Nat.cast_one, add_mul,
    one_mul]
  exact add_le_add le_rfl hstep

/-- Only what is at most one half of the least magnitude is rounded to zero. -/
theorem Rounds.pos {x : Binary64} {q : ℚ} (hx : Rounds q x) (h : 2 ^ (-1074 : ℤ) < 2 * q) :
    0 < x := by
  refine hx.gt_of_middle_lt .zero ?_
  rw [zero_add]
  show magnitudeValue 1 < _
  rwa [magnitudeValue_one]

/-! ## Sums and differences -/

theorem rounds_of_normalize {x : Binary64} {n e : ℤ} (h0 : 0 ≤ n)
    (hbits : x.bits.toNat = (UnpackedFloat.pack Format.binary64
      (UnpackedFloat.normalize Format.binary64 n e .positive)).toNat) : Rounds (n * 2 ^ e) x := by
  rcases h0.eq_or_lt with rfl | hpos
  · rw [Int.cast_zero, zero_mul]
    exact (represents_of_pack_zero hbits).measures.rounds
  · have hn : ((n.toNat : ℕ) : ℚ) = n := by exact_mod_cast Int.toNat_of_nonneg h0
    obtain ⟨k, hk, hpack⟩ := round_nearest .positive (m := n.toNat) (by omega) e
    rw [UnpackedFloat.normalize, Int.compare_eq_gt.mpr hpos] at hbits
    rw [hn] at hk
    exact rounds_of_toNat hk (hbits.trans hpack)

theorem rounds_of_zero {x : Binary64} {u : UnpackedFloat} (hzero : ∃ s, u = .zero s)
    (hbits : x.bits.toNat = (UnpackedFloat.pack Format.binary64 u).toNat) : Rounds 0 x := by
  obtain ⟨s, rfl⟩ := hzero
  rw [toNat_pack_zero] at hbits
  have hmag := (sign_magnitude_of_toNat (n := 0) (by decide) hbits).2
  refine ⟨Or.inr hmag, 0, ?_, hmag⟩
  have heven := NearestEven.of_value 0
  rwa [magnitudeValue_zero] at heven

namespace Measures

variable {x y z : Binary64} {p q : ℚ}

theorem rounds_of_pack (hx : x.Measures p)
    (hbits : z.bits.toNat = (UnpackedFloat.pack Format.binary64 x.unpacked).toNat) :
    Rounds p z := by
  rw [pack_unpacked hx.finite] at hbits
  rw [ext_of_toNat_bits hbits]
  exact hx.rounds

/-- **A sum is rounded to the nearest number.** -/
theorem add (hx : x.Measures p) (hy : y.Measures q) : Rounds (p + q) (x + y) := by
  have hbits := toNat_bits_add hx.finite hy.finite
  rcases hx.unpacked_cases with ⟨hxu, rfl⟩ | ⟨m₁, e₁, hm₁, hxu, hc₁, rfl⟩
  · rcases hy.unpacked_cases with ⟨hyu, rfl⟩ | ⟨m₂, e₂, hm₂, hyu, -⟩
    · rw [add_zero]
      refine rounds_of_zero ?_ hbits
      rw [hxu, hyu]
      cases x.sign <;> cases y.sign <;> exact ⟨_, rfl⟩
    · rw [zero_add]
      apply hy.rounds_of_pack
      rw [hbits, hxu, hyu]
      rfl
  · rcases hy.unpacked_cases with ⟨hyu, rfl⟩ | ⟨m₂, e₂, hm₂, hyu, hc₂, rfl⟩
    · rw [add_zero]
      apply hx.rounds_of_pack
      rw [hbits, hxu, hyu]
      rfl
    · have hvalue : (m₁ : ℚ) * 2 ^ e₁ + m₂ * 2 ^ e₂ =
          (((m₁ <<< (e₁ - min e₁ e₂).toNat : ℕ) : ℤ) + ((m₂ <<< (e₂ - min e₁ e₂).toNat : ℕ) : ℤ) :
            ℤ) * 2 ^ min e₁ e₂ := by
        rw [← shiftLeft_mul_zpow (min_le_left e₁ e₂), ← shiftLeft_mul_zpow (min_le_right e₁ e₂),
          Int.cast_add, Int.cast_natCast, Int.cast_natCast, add_mul]
      rw [hvalue]
      refine rounds_of_normalize (by positivity) ?_
      rw [hbits, hxu, hyu]
      rfl

/-- **A difference that is not below zero is rounded to the nearest number.** -/
theorem sub (hx : x.Measures p) (hy : y.Measures q) (hle : q ≤ p) : Rounds (p - q) (x - y) := by
  have hbits := toNat_bits_sub hx.finite hy.finite
  rcases hy.unpacked_cases with ⟨hyu, rfl⟩ | ⟨m₂, e₂, hm₂, hyu, hc₂, rfl⟩
  · rcases hx.unpacked_cases with ⟨hxu, rfl⟩ | ⟨m₁, e₁, hm₁, hxu, -⟩
    · rw [sub_zero]
      refine rounds_of_zero ?_ hbits
      rw [hxu, hyu]
      cases x.sign <;> cases y.sign <;> exact ⟨_, rfl⟩
    · rw [sub_zero]
      apply hx.rounds_of_pack
      rw [hbits, hxu, hyu]
      rfl
  · rcases hx.unpacked_cases with ⟨hxu, rfl⟩ | ⟨m₁, e₁, hm₁, hxu, hc₁, rfl⟩
    · have hpos : (0 : ℚ) < m₂ * 2 ^ e₂ :=
        mul_pos (Nat.cast_pos.mpr hm₂) (zpow_pos two_pos e₂)
      exact absurd hle (not_le.mpr hpos)
    · have hvalue : (m₁ : ℚ) * 2 ^ e₁ - m₂ * 2 ^ e₂ =
          (((m₁ <<< (e₁ - min e₁ e₂).toNat : ℕ) : ℤ) - ((m₂ <<< (e₂ - min e₁ e₂).toNat : ℕ) : ℤ) :
            ℤ) * 2 ^ min e₁ e₂ := by
        rw [← shiftLeft_mul_zpow (min_le_left e₁ e₂), ← shiftLeft_mul_zpow (min_le_right e₁ e₂),
          Int.cast_sub, Int.cast_natCast, Int.cast_natCast, sub_mul]
      have hnonneg := sub_nonneg.mpr hle
      rw [hvalue] at hnonneg ⊢
      refine rounds_of_normalize ?_ ?_
      · exact_mod_cast nonneg_of_mul_nonneg_left hnonneg (zpow_pos two_pos _)
      · rw [hbits, hxu, hyu]
        rfl

/-- **Numbers differ only if their difference is not zero**, even after rounding. -/
theorem sub_pos (hx : x.Measures p) (hy : y.Measures q) (hlt : y < x) : 0 < x - y := by
  have hle := (hy.lt_iff hx).mp hlt
  refine (hx.sub hy hle.le).pos ?_
  rw [← hx.value, ← hy.value] at hle ⊢
  have hmag := Nat.succ_le_of_lt (magnitudeValue_strictMono.lt_iff_lt.mp hle)
  have hstep := magnitudeValue_succ_ge y.magnitude.toNat
  have hmono := magnitudeValue_strictMono.monotone hmag
  have hleast : (0 : ℚ) < 2 ^ (-1074 : ℤ) := zpow_pos two_pos _
  rw [Nat.succ_eq_add_one] at hmono
  linarith

end Measures

/-- **A difference is positive exactly when its parts differ**, and is never lost in rounding. -/
theorem sub_of_le {x y : Binary64} (hx : x.isFinite = true) (hy : y.isFinite = true)
    (hy0 : 0 ≤ y) (hle : y ≤ x) :
    (x - y).isFinite = true ∧ 0 ≤ x - y ∧ (0 < x - y ↔ y < x) := by
  obtain ⟨p, hp⟩ := exists_measures hx (Binary64.le_trans hy0 hle)
  obtain ⟨q, hq⟩ := exists_measures hy hy0
  have hdiff := hp.sub hq ((hq.le_iff hp).mp hle)
  refine ⟨(hdiff.le_of_le hp (sub_le_self p hq.nonneg)).1, hdiff.nonneg, ?_, hp.sub_pos hq⟩
  intro hpos
  by_contra hnot
  rw [hq.lt_iff hp, not_lt] at hnot
  exact Binary64.not_lt_of_le (hdiff.le_of_le .zero (sub_nonpos.mpr hnot)).2 hpos

/-! ## Quotients -/

/-- A fraction is kept by the accuracy that tells it from one half. -/
theorem keeps_of_fraction (num : ℕ) {den : ℕ} (hden : 0 < den) :
    Keeps (ExtendedMantissa.ofMantissaAndAccuracy (num / den)
      (accuracyOfFraction (num % den) den)) (num / den : ℚ) := by
  have hpos : (0 : ℚ) < den := Nat.cast_pos.mpr hden
  have hlt : ((num % den : ℕ) : ℚ) < den := by exact_mod_cast Nat.mod_lt num hden
  have hvalue : (num / den : ℚ) = (num / den : ℕ) + ((num % den : ℕ) : ℚ) / den := by
    have hsplit : (num : ℚ) = den * (num / den : ℕ) + (num % den : ℕ) := by
      exact_mod_cast (Nat.div_add_mod num den).symm
    rw [hsplit]
    field_simp
  rw [hvalue]
  generalize num / den = whole
  generalize num % den = rest at hlt ⊢
  unfold accuracyOfFraction
  split_ifs with h0
  · rw [h0, Nat.cast_zero, zero_div, add_zero]
    exact Keeps.exact whole
  · have hrest : (0 : ℚ) < (rest : ℚ) / den :=
      div_pos (Nat.cast_pos.mpr (Nat.pos_of_ne_zero h0)) hpos
    rcases lt_trichotomy (2 * rest) den with hside | hside | hside
    · -- below one half, all of the rest is left to the sticky bit
      have hhalf : (rest : ℚ) / den < 1 / 2 := by
        rw [div_lt_div_iff₀ hpos two_pos, one_mul, mul_comm]
        exact_mod_cast hside
      have hkeeps := Keeps.intro whole false true _ hrest.le hhalf
        (iff_of_false (by decide) hrest.ne')
      rw [if_neg Bool.false_ne_true, add_zero] at hkeeps
      rw [Nat.compare_eq_lt.mpr hside]
      exact hkeeps
    · have hhalf : (rest : ℚ) / den = 1 / 2 := by
        rw [div_eq_div_iff hpos.ne' two_ne_zero, one_mul, mul_comm]
        exact_mod_cast hside
      have hkeeps := Keeps.intro whole true false 0 le_rfl (by norm_num) (iff_of_true rfl rfl)
      rw [if_pos rfl, add_zero] at hkeeps
      rw [Nat.compare_eq_eq.mpr hside, hhalf]
      exact hkeeps
    · have hhalf : 1 / 2 < (rest : ℚ) / den := by
        rw [div_lt_div_iff₀ two_pos hpos, one_mul, mul_comm]
        exact_mod_cast hside
      have hone : (rest : ℚ) / den < 1 := (div_lt_one hpos).mpr hlt
      have hkeeps := Keeps.intro whole true true ((rest : ℚ) / den - 1 / 2) (by linarith)
        (by linarith) (iff_of_false (by decide) (sub_pos.mpr hhalf).ne')
      rw [if_pos rfl, add_assoc, add_sub_cancel] at hkeeps
      rw [Nat.compare_eq_gt.mpr hside]
      exact hkeeps

def quotientExponent (m₁ : ℕ) (e₁ : ℤ) (m₂ : ℕ) (e₂ : ℤ) : ℤ :=
  min (e₁ - e₂) (max (m₁.log2 + e₁ - (m₂.log2 + e₂) - 53) (-1074))

theorem divCore_eq (m₁ : ℕ) (e₁ : ℤ) (m₂ : ℕ) (e₂ : ℤ) {t : ℤ}
    (ht : t = quotientExponent m₁ e₁ m₂ e₂) :
    divCore Format.binary64 m₁ e₁ m₂ e₂ = (m₁ <<< (e₁ - e₂ - t).toNat / m₂, t,
      accuracyOfFraction (m₁ <<< (e₁ - e₂ - t).toNat % m₂) m₂) := by
  have htarget : Format.binary64.targetExponent (totalExponent m₁ e₁ - totalExponent m₂ e₂) =
      max (m₁.log2 + e₁ - (m₂.log2 + e₂) - 53) (-1074) := by
    show max (_ - 53) (-1074) = _
    rw [totalExponent, totalExponent]
    congr 1
    omega
  rw [divCore, htarget, ht, quotientExponent]

theorem le_target_quotient {m₁ m₂ : ℕ} (hm₁ : 0 < m₁) (hm₂ : 0 < m₂) (e₁ e₂ : ℤ) {t : ℤ}
    (ht : t = quotientExponent m₁ e₁ m₂ e₂) :
    t ≤ target (m₁ <<< (e₁ - e₂ - t).toNat / m₂) t := by
  rw [quotientExponent] at ht
  by_cases hlow : t ≤ -1074
  · exact hlow.trans (le_max_right _ _)
  · -- the dividend was shifted by enough bits to have 53 more than the divisor
    obtain ⟨k, hk⟩ : ∃ k, k = (e₁ - e₂ - t).toNat := ⟨_, rfl⟩
    have hlog : m₂.log2 + 53 ≤ m₁.log2 + k := by omega
    have hdividend : 2 ^ (m₁.log2 + k) ≤ m₁ * 2 ^ k := by
      rw [Nat.pow_add]
      exact Nat.mul_le_mul_right _ (Nat.log2_self_le hm₁.ne')
    have hquotient : 2 ^ 52 ≤ m₁ * 2 ^ k / m₂ := by
      rw [Nat.le_div_iff_mul_le hm₂]
      calc 2 ^ 52 * m₂ ≤ 2 ^ 52 * 2 ^ (m₂.log2 + 1) :=
            Nat.mul_le_mul_left _ Nat.lt_log2_self.le
        _ = 2 ^ (m₂.log2 + 53) := by rw [← Nat.pow_add]; congr 1; omega
        _ ≤ 2 ^ (m₁.log2 + k) := Nat.pow_le_pow_right (by decide) hlog
        _ ≤ m₁ * 2 ^ k := hdividend
    have hpos : m₁ * 2 ^ k / m₂ ≠ 0 := by omega
    have := (Nat.le_log2 hpos).mpr hquotient
    rw [← hk, Nat.shiftLeft_eq, target]
    omega

/-- **A quotient is rounded to the nearest number.** -/
theorem Measures.div {x y : Binary64} {p q : ℚ} (hx : x.Measures p) (hy : y.Measures q)
    (hq : 0 < q) : Rounds (p / q) (x / y) := by
  have hbits := toNat_bits_div hx.finite hy.finite
  rcases hy.unpacked_cases with ⟨-, rfl⟩ | ⟨m₂, e₂, hm₂, hyu, -, rfl⟩
  · exact absurd hq (lt_irrefl 0)
  · rcases hx.unpacked_cases with ⟨hxu, rfl⟩ | ⟨m₁, e₁, hm₁, hxu, -, rfl⟩
    · rw [zero_div]
      refine rounds_of_zero ?_ hbits
      rw [hxu, hyu]
      exact ⟨_, rfl⟩
    · obtain ⟨t, ht⟩ : ∃ t, t = quotientExponent m₁ e₁ m₂ e₂ := ⟨_, rfl⟩
      have hdiv : UnpackedFloat.div Format.binary64 x.unpacked y.unpacked =
          roundWithAccuracy Format.binary64 .positive (m₁ <<< (e₁ - e₂ - t).toNat / m₂) t
            (accuracyOfFraction (m₁ <<< (e₁ - e₂ - t).toNat % m₂) m₂) := by
        rw [hxu, hyu, UnpackedFloat.div, divCore_eq m₁ e₁ m₂ e₂ ht]
        rfl
      obtain ⟨n, hn, hpack⟩ := roundWithAccuracy_nearest .positive
        (keeps_of_fraction (m₁ <<< (e₁ - e₂ - t).toNat) hm₂)
        (le_target_quotient hm₁ hm₂ e₁ e₂ ht)
      have hle : t ≤ e₁ - e₂ := ht ▸ min_le_left _ _
      have hvalue : (m₁ : ℚ) * 2 ^ e₁ / (m₂ * 2 ^ e₂) =
          ((m₁ <<< (e₁ - e₂ - t).toNat : ℕ) : ℚ) / m₂ * 2 ^ t := by
        rw [div_mul_eq_mul_div, shiftLeft_mul_zpow hle, zpow_sub₀ two_ne_zero]
        field_simp
      rw [hdiv] at hbits
      rw [hvalue]
      exact rounds_of_toNat hn (hbits.trans hpack)

theorem infinity_div {x : Binary64} {q : ℚ} (hx : x.Measures q) (hq : 0 < q) :
    infinity / x = infinity := by
  refine ext_of_toNat_bits ?_
  show (UnpackedFloat.pack Format.binary64 (UnpackedFloat.div Format.binary64
    infinity.toFloat.toModel.unpack x.toFloat.toModel.unpack)).toNat = _
  rw [toModel_toFloat hx.finite, toModel_toFloat_infinity]
  rcases hx.unpacked_cases with ⟨-, rfl⟩ | ⟨m, e, hm, hu, -⟩
  · exact absurd hq (lt_irrefl 0)
  · rw [hu]
    rfl

/-! ## Natural numbers -/

/-- **A natural number is rounded to the nearest number.** -/
theorem rounds_natCast {n : ℕ} (hn : n ≠ 0) : Rounds n (n : Binary64) := by
  by_cases hlt : n < 2 ^ 53
  · exact (represents_natCast hlt).measures.rounds
  · -- beyond the mantissas, the number is given fifty-three more bits and rounded
    have hbits : (n : Binary64).bits.toNat = (UnpackedFloat.pack Format.binary64
        (UnpackedFloat.ofScientific Format.binary64 n 0)).toNat := by
      show (ofFloat (Float.ofScientific n false 0)).bits.toNat = _
      rw [Float.ofScientific, dif_neg fun h => hlt h.1]
      rfl
    have hround : UnpackedFloat.ofScientific Format.binary64 n 0 =
        roundWithAccuracy Format.binary64 .positive (n * 2 ^ 53) (-53) .exact := by
      have hhigh : ¬ (0 : ℤ) > 2 ^ Format.binary64.exponentBits := by decide
      have hlow : ¬ (0 : ℤ) < -((2 ^ Format.binary64.exponentBits : ℤ) + n.log2) := by
        have : (0 : ℤ) ≤ 2 ^ Format.binary64.exponentBits := by decide
        omega
      rw [UnpackedFloat.ofScientific, dif_neg hn, if_neg hhigh, if_neg hlow, if_pos le_rfl,
        UnpackedFloat.mul]
      show roundWithAccuracy Format.binary64 .positive (n <<< 53 * 1) (-53 + 0) .exact = _
      rw [Nat.shiftLeft_eq, Nat.mul_one, Int.add_zero]
    have hle : (-53 : ℤ) ≤ target (n * 2 ^ 53) (-53) := by
      rw [target_mul_two_pow hn, target]
      omega
    obtain ⟨k, hk, hpack⟩ :=
      roundWithAccuracy_nearest .positive (a := .exact) (Keeps.exact (n * 2 ^ 53)) hle
    rw [hround] at hbits
    have hvalue : ((n * 2 ^ 53 : ℕ) : ℚ) * 2 ^ (-53 : ℤ) = n := by
      rw [Nat.cast_mul, mul_assoc]
      norm_num
    rw [hvalue] at hk
    exact rounds_of_toNat hk (hbits.trans hpack)

/-! ## Powers of two -/

theorem measures_two_pow {x : Binary64} {k : ℤ} (hlow : -1022 ≤ k) (hhigh : k ≤ 1023)
    (h : x.bits.toNat = (k + 1023).toNat * 2 ^ 52) : x.Measures (2 ^ k) := by
  have hplace : place (2 ^ 52) (k - 52) = (k + 1023).toNat * 2 ^ 52 := by
    rw [place]
    omega
  obtain ⟨hsign, hmag⟩ := sign_magnitude_of_toNat (x := x) (s := .positive)
    (n := place (2 ^ 52) (k - 52)) (by omega) (by rw [h, hplace, signPart, Nat.zero_add])
  refine ⟨(isFinite_iff x).mpr (by omega), Or.inl hsign, ?_⟩
  rw [hmag, magnitudeValue_place ⟨by decide, by omega, Or.inl le_rfl⟩, Nat.cast_pow,
    Nat.cast_ofNat, ← zpow_natCast, ← zpow_add₀ two_ne_zero]
  congr 1
  omega

theorem exists_measures_magnitude {n : ℕ} (h : n < 0x7FF0000000000000) :
    ∃ x : Binary64, x.Measures (magnitudeValue n) := by
  obtain ⟨hsign, hmag⟩ := sign_magnitude_of_toNat (x := ⟨UInt64.ofNat n⟩) (s := .positive)
    (n := n) (by omega) (by rw [UInt64.toNat_ofNat', signPart]; omega)
  exact ⟨_, (isFinite_iff _).mpr (by omega), Or.inl hsign, by rw [hmag]⟩

theorem Canonical.exists_measures {m : ℕ} {e : ℤ} (hc : Canonical m e) (he : e ≤ 971) :
    ∃ x : Binary64, x.Measures (m * 2 ^ e) := by
  have hlt := hc.lt
  have hlow := hc.low
  rw [← magnitudeValue_place hc]
  refine exists_measures_magnitude ?_
  rw [place]
  omega

theorem exists_measures_two_pow {k : ℤ} (hlow : -1074 ≤ k) (hhigh : k ≤ 1023) :
    ∃ x : Binary64, x.Measures (2 ^ k) := by
  by_cases hfull : -1022 ≤ k
  · have hc : Canonical (2 ^ 52) (k - 52) := ⟨by decide, by omega, Or.inl le_rfl⟩
    obtain ⟨x, hx⟩ := hc.exists_measures (by omega)
    refine ⟨x, ?_⟩
    rwa [Nat.cast_pow, Nat.cast_ofNat, ← zpow_natCast, ← zpow_add₀ two_ne_zero, Nat.cast_ofNat,
      add_sub_cancel] at hx
  · obtain ⟨i, hi⟩ : ∃ i : ℕ, k = (i : ℤ) + -1074 := ⟨(k + 1074).toNat, by omega⟩
    have hc : Canonical (2 ^ i) (-1074) :=
      ⟨Nat.pow_lt_pow_right (by decide) (by omega), le_rfl, Or.inr rfl⟩
    obtain ⟨x, hx⟩ := hc.exists_measures (by omega)
    refine ⟨x, ?_⟩
    rwa [Nat.cast_pow, Nat.cast_ofNat, ← zpow_natCast, ← zpow_add₀ two_ne_zero, ← hi] at hx

theorem exists_two_pow {k : ℕ} (h : k ≤ 1023) : ∃ x : Binary64, x.Measures (2 ^ k) := by
  obtain ⟨x, hx⟩ := exists_measures_two_pow (k := k) (by omega) (by omega)
  rw [zpow_natCast] at hx
  exact ⟨x, hx⟩

theorem natCast_between {n k : ℕ} (h0 : n ≠ 0) (hk : k ≤ 1023) (hle : n ≤ 2 ^ k) :
    ∃ q, (n : Binary64).Measures q ∧ 1 ≤ q ∧ q ≤ 2 ^ k := by
  have hrounds := rounds_natCast h0
  obtain ⟨y, hy⟩ := exists_two_pow hk
  obtain ⟨hfin, hny⟩ := hrounds.le_of_le hy (by exact_mod_cast hle)
  obtain ⟨q, hq, hqle⟩ := exists_measures_le hfin hrounds.nonneg hy hny
  refine ⟨q, hq, ?_, hqle⟩
  apply (Represents.one.measures.le_iff hq).mp
  apply hrounds.ge_of_ge Represents.one.measures
  exact_mod_cast Nat.one_le_iff_ne_zero.mpr h0

theorem natCast_lt_two_mul {n : ℕ} (h0 : n ≠ 0) (hlt : n < 2 ^ 64) :
    ∃ q, (n : Binary64).Measures q ∧ 1 ≤ q ∧ q < 2 * n := by
  obtain ⟨hlow, hhigh⟩ := (Nat.log2_eq_iff h0).mp rfl
  have hlog := (Nat.log2_lt h0).mpr hlt
  -- a power of two is not rounded, and any other number lies below the next one
  rcases Nat.lt_or_eq_of_le hlow with hmore | heq
  · obtain ⟨q, hq, hone, hle⟩ := natCast_between h0 (by omega) hhigh.le
    refine ⟨q, hq, hone, hle.trans_lt ?_⟩
    rw [pow_succ']
    exact_mod_cast Nat.mul_lt_mul_of_pos_left hmore two_pos
  · obtain ⟨q, hq, hone, hle⟩ := natCast_between h0 (by omega) heq.ge
    refine ⟨q, hq, hone, hle.trans_lt ?_⟩
    have hpos : (0 : ℚ) < n := Nat.cast_pos.mpr (Nat.pos_of_ne_zero h0)
    have hcast : (2 : ℚ) ^ n.log2 = n := by exact_mod_cast heq
    rw [hcast]
    exact lt_two_mul_self hpos

end Binary64

end Queueing
