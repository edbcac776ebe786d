import Queueing.Proofs.Binary64.Addition

/-!
# Exact operations on binary64 numbers

A pattern that is not below zero has a rational number for its value (`Measures`), and stands
for it if its sign is clear (`Represents`). The numeric order is that of the numbers. Rounding
keeps a number that some pattern stands for (`round_exact`). So a product or a difference that
some pattern stands for is not rounded at all, and neither is a natural number below `2 ^ 53`.
-/

namespace Queueing

namespace Binary64

open Float.Model Float.Model.UnpackedFloat

/-! ## The numbers that magnitudes stand for -/

/-- The number that a magnitude stands for: a fraction at the least exponent, or a mantissa
with its leading bit. -/
def magnitudeValue (n : ℕ) : ℚ :=
  if n < 2 ^ 52 then n * 2 ^ (-1074 : ℤ)
  else (2 ^ 52 + n % 2 ^ 52 : ℕ) * 2 ^ ((n / 2 ^ 52 : ℕ) - 1075 : ℤ)

/-- **A canonical pair stands for its mantissa at its exponent.** -/
theorem magnitudeValue_place {m : ℕ} {e : ℤ} (hc : Canonical m e) :
    magnitudeValue (place m e) = m * 2 ^ e := by
  have hlt := hc.lt
  have hlow := hc.low
  have hplace : place m e = (e + 1074).toNat * 2 ^ 52 + m := rfl
  unfold magnitudeValue
  by_cases hn : 2 ^ 52 ≤ m
  · have hmod : 2 ^ 52 + place m e % 2 ^ 52 = m := by omega
    have hdiv : ((place m e / 2 ^ 52 : ℕ) : ℤ) - 1075 = e := by omega
    rw [if_neg (by omega), hmod, hdiv]
  · have he := hc.normal.resolve_left hn
    have hm : place m e = m := by omega
    rw [if_pos (by omega), hm, he]

theorem exists_canonical_place (n : ℕ) : ∃ m e, Canonical m e ∧ place m e = n := by
  by_cases hn : n < 2 ^ 52
  · refine ⟨n, -1074, ⟨by omega, le_rfl, Or.inr rfl⟩, ?_⟩
    rw [place]
    omega
  · refine ⟨2 ^ 52 + n % 2 ^ 52, (n / 2 ^ 52 : ℕ) - 1075, ⟨?_, ?_, Or.inl ?_⟩, ?_⟩
    · omega
    · omega
    · omega
    · rw [place]
      omega

theorem magnitudeValue_place_succ {m : ℕ} {e : ℤ} (hc : Canonical m e) :
    magnitudeValue (place m e + 1) = (m + 1 : ℕ) * 2 ^ e := by
  have hlow := hc.low
  rw [← place_succ]
  rcases Nat.lt_or_eq_of_le (Nat.succ_le_of_lt hc.lt) with hlt | heq
  · refine magnitudeValue_place ⟨hlt, hlow, ?_⟩
    exact hc.normal.imp_left fun h => Nat.le_succ_of_le h
  · have hc' : Canonical (2 ^ 52) (e + 1) := ⟨by decide, by omega, Or.inl le_rfl⟩
    rw [show m + 1 = 2 ^ 53 from heq, ← place_carry hlow, magnitudeValue_place hc',
      zpow_add_one₀ two_ne_zero]
    push_cast
    ring

theorem magnitudeValue_strictMono : StrictMono magnitudeValue := by
  apply strictMono_nat_of_lt_succ
  intro n
  obtain ⟨m, e, hc, rfl⟩ := exists_canonical_place n
  rw [magnitudeValue_place hc, magnitudeValue_place_succ hc]
  have hpos : (0 : ℚ) < 2 ^ e := zpow_pos two_pos e
  push_cast
  linarith

theorem magnitudeValue_zero : magnitudeValue 0 = 0 := by
  norm_num [magnitudeValue]

/-! ## Patterns that stand for numbers -/

/-- A finite pattern that is not below zero has this value. Of the two zeros it may be either. -/
structure Measures (x : Binary64) (q : ℚ) : Prop where
  finite : x.isFinite = true
  sign : x.sign = .positive ∨ x.magnitude.toNat = 0
  value : magnitudeValue x.magnitude.toNat = q

namespace Measures

variable {x y : Binary64} {p q : ℚ}

theorem isNaN (hx : x.Measures p) : x.isNaN = false := isNaN_eq_false_of_isFinite hx.finite

theorem position (hx : x.Measures p) : x.position = x.magnitude.toNat :=
  position_of_sign hx.sign

/-- **The numeric order is that of the numbers.** -/
theorem le_iff (hx : x.Measures p) (hy : y.Measures q) : x ≤ y ↔ p ≤ q := by
  rw [Binary64.le_iff, hx.position, hy.position, Int.ofNat_le, ← hx.value, ← hy.value,
    magnitudeValue_strictMono.le_iff_le]
  constructor
  · rintro ⟨-, -, h⟩
    exact h
  · intro h
    exact ⟨hx.isNaN, hy.isNaN, h⟩

theorem lt_iff (hx : x.Measures p) (hy : y.Measures q) : x < y ↔ p < q := by
  rw [Binary64.lt_iff, hx.position, hy.position, Int.ofNat_lt, ← hx.value, ← hy.value,
    magnitudeValue_strictMono.lt_iff_lt]
  constructor
  · rintro ⟨-, -, h⟩
    exact h
  · intro h
    exact ⟨hx.isNaN, hy.isNaN, h⟩

theorem zero : (0 : Binary64).Measures 0 := ⟨rfl, Or.inl rfl, magnitudeValue_zero⟩

theorem unpacked_cases (hx : x.Measures p) :
    x.unpacked = .zero x.sign ∧ p = 0 ∨
      ∃ m e h, x.unpacked = .finite .positive m e h ∧ Canonical m e ∧ p = m * 2 ^ e := by
  rcases unpack_of_isFinite hx.finite with ⟨h0, hz⟩ | ⟨m, e, hm, hu, hc, hp⟩
  · refine Or.inl ⟨hz, ?_⟩
    rw [← hx.value, h0, magnitudeValue_zero]
  · refine Or.inr ⟨m, e, hm, ?_, hc, ?_⟩
    · rw [unpacked, hu, hx.sign.resolve_right (hp ▸ (place_pos e hm).ne')]
    · rw [← hx.value, ← hp, magnitudeValue_place hc]

end Measures

/-- The pattern of a finite number with a clear sign stands for this number. -/
structure Represents (x : Binary64) (q : ℚ) : Prop where
  finite : x.isFinite = true
  sign : x.sign = .positive
  value : magnitudeValue x.magnitude.toNat = q

namespace Represents

variable {x y : Binary64} {p q : ℚ}

theorem measures (hx : x.Represents p) : x.Measures p := ⟨hx.finite, Or.inl hx.sign, hx.value⟩

theorem le_iff (hx : x.Represents p) (hy : y.Represents q) : x ≤ y ↔ p ≤ q :=
  hx.measures.le_iff hy.measures

theorem lt_iff (hx : x.Represents p) (hy : y.Represents q) : x < y ↔ p < q :=
  hx.measures.lt_iff hy.measures

theorem zero : (0 : Binary64).Represents 0 := ⟨rfl, rfl, magnitudeValue_zero⟩

theorem one : (1 : Binary64).Represents 1 := by
  refine ⟨rfl, rfl, ?_⟩
  rw [show (1 : Binary64).magnitude.toNat = place (2 ^ 52) (-52) from rfl,
    magnitudeValue_place ⟨by decide, by decide, Or.inl le_rfl⟩]
  norm_num

theorem unpacked_cases (hx : x.Represents p) :
    x.unpacked = .zero .positive ∧ p = 0 ∨
      ∃ m e h, x.unpacked = .finite .positive m e h ∧ Canonical m e ∧ p = m * 2 ^ e := by
  have h := hx.measures.unpacked_cases
  rwa [hx.sign] at h

end Represents

/-- Some pattern stands for the number. -/
inductive Representable : ℚ → Prop where
  | zero : Representable 0
  | positive {m : ℕ} {e : ℤ} (hm : 0 < m) (hc : Canonical m e) (he : e ≤ 971) :
      Representable (m * 2 ^ e)

theorem Representable.nonneg {q : ℚ} (h : Representable q) : 0 ≤ q := by
  cases h with
  | zero => exact le_rfl
  | positive hm _ _ => exact mul_nonneg (Nat.cast_nonneg _) (zpow_pos two_pos _).le

/-- A mantissa of at most 53 bits is canonical once its leading bit is moved to its place. -/
theorem exists_canonical {n : ℕ} {e : ℤ} (h0 : n ≠ 0) (hn : n < 2 ^ 53) (hlow : -1022 ≤ e) :
    ∃ m f, 0 < m ∧ Canonical m f ∧ f = e + n.log2 - 52 ∧ (n : ℚ) * 2 ^ e = m * 2 ^ f := by
  have hlog := Nat.log2_self_le h0
  have hlog' := (Nat.log2_eq_iff h0).mp rfl
  have hle := (Nat.log2_lt h0).mpr hn
  refine ⟨n * 2 ^ (52 - n.log2), e - ((52 - n.log2 : ℕ) : ℤ),
    Nat.mul_pos (Nat.pos_of_ne_zero h0) (Nat.two_pow_pos _), ⟨?_, ?_, ?_⟩, ?_, ?_⟩
  · refine (Nat.mul_lt_mul_of_pos_right hlog'.2 (Nat.two_pow_pos _)).trans_le ?_
    rw [← Nat.pow_add]
    exact Nat.pow_le_pow_right (by decide) (by omega)
  · omega
  · left
    refine le_trans ?_ (Nat.mul_le_mul_right _ hlog)
    rw [← Nat.pow_add]
    exact Nat.pow_le_pow_right (by decide) (by omega)
  · omega
  · rw [Nat.cast_mul, Nat.cast_pow, Nat.cast_ofNat, mul_assoc, ← zpow_natCast,
      ← zpow_add₀ two_ne_zero]
    congr 2
    omega

theorem representable_of_le {n : ℕ} {e : ℤ} (hn : n ≤ 2 ^ 53) (hlow : -1022 ≤ e)
    (hhigh : e ≤ 970) : Representable (n * 2 ^ e) := by
  by_cases h0 : n = 0
  · rw [h0, Nat.cast_zero, zero_mul]
    exact .zero
  · rcases Nat.lt_or_eq_of_le hn with hlt | rfl
    · obtain ⟨m, f, hm, hc, hf, hvalue⟩ := exists_canonical h0 hlt hlow
      have hle := (Nat.log2_lt h0).mpr hlt
      rw [hvalue]
      exact .positive hm hc (by omega)
    · have hvalue : ((2 ^ 53 : ℕ) : ℚ) * 2 ^ e = ((2 ^ 52 : ℕ) : ℚ) * 2 ^ (e + 1) := by
        rw [zpow_add_one₀ two_ne_zero]
        push_cast
        ring
      rw [hvalue]
      exact .positive (by decide) ⟨by decide, by omega, Or.inl le_rfl⟩ (by omega)

theorem represents_of_pack {x : Binary64} {m : ℕ} {e : ℤ} (hm : 0 < m) (hc : Canonical m e)
    (he : e ≤ 971) (h : x.bits.toNat =
      (UnpackedFloat.pack Format.binary64 (.finite .positive m e hm)).toNat) :
    x.Represents (m * 2 ^ e) := by
  have hlt := hc.lt
  have hlow := hc.low
  have hplace : place m e < 0x7FF0000000000000 := by
    rw [place]
    omega
  rw [toNat_pack_finite _ hm hc, min_eq_left hplace.le] at h
  obtain ⟨hsign, hmag⟩ := sign_magnitude_of_toNat (hplace.trans (by decide)) h
  refine ⟨(isFinite_iff x).mpr (hmag ▸ hplace), hsign, ?_⟩
  rw [hmag, magnitudeValue_place hc]

theorem represents_of_pack_zero {x : Binary64}
    (h : x.bits.toNat = (UnpackedFloat.pack Format.binary64 (.zero .positive)).toNat) :
    x.Represents 0 := by
  rw [toNat_pack_zero] at h
  obtain ⟨hsign, hmag⟩ := sign_magnitude_of_toNat (s := .positive) (n := 0) (by decide) h
  refine ⟨(isFinite_iff x).mpr (hmag ▸ by decide), hsign, ?_⟩
  rw [hmag, magnitudeValue_zero]

/-! ## Rounding -/

theorem log2_mul_two_pow {m : ℕ} (hm : m ≠ 0) (k : ℕ) : (m * 2 ^ k).log2 = m.log2 + k := by
  have hne : m * 2 ^ k ≠ 0 := Nat.mul_ne_zero hm (Nat.two_pow_pos k).ne'
  obtain ⟨hlow, hhigh⟩ := (Nat.log2_eq_iff hm).mp rfl
  refine (Nat.log2_eq_iff hne).mpr ⟨?_, ?_⟩
  · rw [Nat.pow_add]
    exact Nat.mul_le_mul_right _ hlow
  · rw [Nat.add_right_comm, Nat.pow_add]
    exact Nat.mul_lt_mul_of_pos_right hhigh (Nat.two_pow_pos k)

/-- Zeros at the end of a mantissa do not change where it is rounded. -/
theorem target_mul_two_pow {m : ℕ} (hm : m ≠ 0) (e : ℤ) (k : ℕ) :
    target (m * 2 ^ k) e = target m (e + k) := by
  simp only [target, log2_mul_two_pow hm]
  push_cast
  congr 1
  omega

theorem Canonical.target_eq {m : ℕ} {e : ℤ} (hc : Canonical m e) (hm : 0 < m) :
    target m e = e := by
  have hlog := (Nat.log2_lt hm.ne').mpr hc.lt
  have hlow := hc.low
  simp only [target]
  rcases hc.normal with hn | he
  · have := (Nat.le_log2 hm.ne').mpr hn
    omega
  · omega

theorem shiftRight_mul_two_pow (m k : ℕ) :
    (⟨m * 2 ^ k, false, false⟩ : ExtendedMantissa) >>> k = ⟨m, false, false⟩ := by
  induction k generalizing m with
  | zero =>
      rw [Nat.pow_zero, Nat.mul_one]
      rfl
  | succ k ih =>
      have hstep : (⟨m * 2 ^ (k + 1), false, false⟩ : ExtendedMantissa) >>> (k + 1) =
          ((⟨m * 2 ^ (k + 1), false, false⟩ : ExtendedMantissa) >>> k).shiftRightOne := rfl
      rw [hstep, Nat.pow_succ', ← Nat.mul_assoc, ih (m * 2)]
      simp [ExtendedMantissa.shiftRightOne]

/-- **Zeros at the end of a mantissa are rounded away and nothing else.** -/
theorem roundWithAccuracy_exact (s : Sign) {m k : ℕ} {e : ℤ} (hm : 0 < m)
    (hc : Canonical m (e + k)) :
    roundWithAccuracy Format.binary64 s (m * 2 ^ k) e .exact = .finite s m (e + k) hm := by
  have htarget : target (m * 2 ^ k) e = e + k := by
    rw [target_mul_two_pow hm.ne', hc.target_eq hm]
  have hshift : (target (m * 2 ^ k) e - e).toNat = k := by omega
  unfold roundWithAccuracy
  rw [shift_eq (by omega), hshift, shiftRight_mul_two_pow, htarget]
  dsimp only
  rw [show ExtendedMantissa.roundedMantissa ⟨m, false, false⟩ = m from rfl,
    shift_of_lt hc.lt hc.low]
  dsimp only
  rw [dif_neg hm.ne']

theorem eq_mul_two_pow {m m' : ℕ} {e e' : ℤ} (he : e ≤ e')
    (h : (m : ℚ) * 2 ^ e = m' * 2 ^ e') : m = m' * 2 ^ (e' - e).toNat := by
  have hsplit : e' = ((e' - e).toNat : ℤ) + e := by omega
  rw [hsplit, zpow_add₀ two_ne_zero, zpow_natCast, ← mul_assoc] at h
  exact_mod_cast mul_right_cancel₀ (zpow_pos two_pos e).ne' h

theorem shiftLeft_mul_zpow {m : ℕ} {e e' : ℤ} (he : e' ≤ e) :
    ((m <<< (e - e').toNat : ℕ) : ℚ) * 2 ^ e' = m * 2 ^ e := by
  have hsplit : e = ((e - e').toNat : ℤ) + e' := by omega
  rw [Nat.shiftLeft_eq, Nat.cast_mul, Nat.cast_pow, Nat.cast_ofNat, mul_assoc,
    ← zpow_natCast, ← zpow_add₀ two_ne_zero, ← hsplit]

/-- **Rounding keeps a number that a canonical pair stands for.** -/
theorem round_exact (s : Sign) {m c : ℕ} {e f : ℤ} (hm : 0 < m) (h0 : 0 < c)
    (hc : Canonical c f) (h : (m : ℚ) * 2 ^ e = c * 2 ^ f) :
    UnpackedFloat.round Format.binary64 s m e = .finite s c f h0 := by
  have hround : UnpackedFloat.round Format.binary64 s m e = roundWithAccuracy Format.binary64 s
      (m <<< (e - target m e).toNat) (e - ((e - target m e).toNat : ℤ)) .exact := by
    rw [UnpackedFloat.round, targetExponent_eq]
    rfl
  rw [hround, Nat.shiftLeft_eq]
  rcases le_total e f with hle | hle
  · -- the mantissa has zeros at the end
    obtain rfl := eq_mul_two_pow hle h
    have hsum : e + ((f - e).toNat : ℤ) = f := by omega
    have htarget : target (c * 2 ^ (f - e).toNat) e = f := by
      rw [target_mul_two_pow h0.ne', hsum, hc.target_eq h0]
    have hshift : (e - f).toNat = 0 := by omega
    rw [htarget, hshift, Nat.pow_zero, Nat.mul_one, Nat.cast_zero, Int.sub_zero,
      roundWithAccuracy_exact s h0 (by rwa [hsum])]
    congr 1
  · -- the mantissa lacks zeros at the end
    obtain rfl := eq_mul_two_pow hle h.symm
    have hsum : f + ((e - f).toNat : ℤ) = e := by omega
    have htarget : target m e = f := by
      rw [← hsum, ← target_mul_two_pow hm.ne', hc.target_eq h0]
    have hshift : e - ((e - f).toNat : ℤ) = f := by omega
    have hexact := roundWithAccuracy_exact s (k := 0) (e := f) h0 (by simpa using hc)
    rw [Nat.pow_zero, Nat.mul_one] at hexact
    rw [htarget, hshift, hexact]
    congr 1
    simp

/-! ## Operations -/

theorem toNat_bits_mul {x y : Binary64} (hx : x.isFinite = true) (hy : y.isFinite = true) :
    (x * y).bits.toNat = (UnpackedFloat.pack Format.binary64
      (UnpackedFloat.mul Format.binary64 x.unpacked y.unpacked)).toNat := by
  rw [← toModel_toFloat hx, ← toModel_toFloat hy]
  rfl

theorem toNat_bits_sub {x y : Binary64} (hx : x.isFinite = true) (hy : y.isFinite = true) :
    (x - y).bits.toNat = (UnpackedFloat.pack Format.binary64
      (UnpackedFloat.sub Format.binary64 x.unpacked y.unpacked)).toNat := by
  rw [← toModel_toFloat hx, ← toModel_toFloat hy]
  rfl

/-- The product of two canonical pairs has bits to lose, or is far below the least exponent. -/
theorem Canonical.add_le {m₁ m₂ m : ℕ} {e₁ e₂ e : ℤ} (h₁ : Canonical m₁ e₁) (h₂ : Canonical m₂ e₂)
    (hm₁ : 0 < m₁) (hm₂ : 0 < m₂) (hc : Canonical m e)
    (h : ((m₁ * m₂ : ℕ) : ℚ) * 2 ^ (e₁ + e₂) = m * 2 ^ e) : e₁ + e₂ ≤ e := by
  by_contra hlt
  have hlow := hc.low
  obtain ⟨k, hk⟩ : ∃ k, (e₁ + e₂ - e).toNat = k + 1 :=
    ⟨(e₁ + e₂ - e).toNat - 1, by omega⟩
  have hm : m = m₁ * m₂ * 2 ^ (k + 1) := by
    rw [← hk]
    exact eq_mul_two_pow (by omega) h.symm
  have hfull : 2 ^ 52 ≤ m₁ * m₂ := by
    rcases h₁.normal with hn | hn
    · exact hn.trans (Nat.le_mul_of_pos_right _ hm₂)
    · rcases h₂.normal with hn' | hn'
      · exact hn'.trans (Nat.le_mul_of_pos_left _ hm₁)
      · omega
  have hlong : 2 ^ 52 * 2 ≤ m := by
    rw [hm]
    refine Nat.mul_le_mul hfull ?_
    rw [Nat.pow_succ]
    exact Nat.le_mul_of_pos_left 2 (Nat.two_pow_pos k)
  have := hc.lt
  omega

namespace Represents

variable {x y : Binary64} {p q : ℚ}

/-- **A product that some pattern stands for is not rounded.** -/
theorem mul (hx : x.Represents p) (hy : y.Represents q) (h : Representable (p * q)) :
    (x * y).Represents (p * q) := by
  have hbits := toNat_bits_mul hx.finite hy.finite
  rcases hx.unpacked_cases with ⟨hxu, rfl⟩ | ⟨m₁, e₁, hm₁, hxu, hc₁, rfl⟩
  · have hzero : UnpackedFloat.mul Format.binary64 x.unpacked y.unpacked = .zero .positive := by
      rcases hy.unpacked_cases with ⟨hyu, -⟩ | ⟨m₂, e₂, hm₂, hyu, -⟩
      · rw [hxu, hyu]
        rfl
      · rw [hxu, hyu]
        rfl
    rw [zero_mul]
    exact represents_of_pack_zero (hzero ▸ hbits)
  · rcases hy.unpacked_cases with ⟨hyu, rfl⟩ | ⟨m₂, e₂, hm₂, hyu, hc₂, rfl⟩
    · have hzero : UnpackedFloat.mul Format.binary64 x.unpacked y.unpacked = .zero .positive := by
        rw [hxu, hyu]
        rfl
      rw [mul_zero]
      exact represents_of_pack_zero (hzero ▸ hbits)
    · have hvalue : (m₁ : ℚ) * 2 ^ e₁ * (m₂ * 2 ^ e₂) =
          ((m₁ * m₂ : ℕ) : ℚ) * 2 ^ (e₁ + e₂) := by
        rw [zpow_add₀ two_ne_zero]
        push_cast
        ring
      rw [hvalue] at h ⊢
      generalize hr : ((m₁ * m₂ : ℕ) : ℚ) * 2 ^ (e₁ + e₂) = r at h ⊢
      cases h with
      | zero =>
          have hpos : (0 : ℚ) < ((m₁ * m₂ : ℕ) : ℚ) * 2 ^ (e₁ + e₂) :=
            mul_pos (Nat.cast_pos.mpr (Nat.mul_pos hm₁ hm₂)) (zpow_pos two_pos _)
          exact absurd hr hpos.ne'
      | @positive m e hm hc he =>
          have hle := hc₁.add_le hc₂ hm₁ hm₂ hc hr
          have hsum : e₁ + e₂ + ((e - (e₁ + e₂)).toNat : ℤ) = e := by omega
          have hround := roundWithAccuracy_exact .positive hm (k := (e - (e₁ + e₂)).toNat)
            (e := e₁ + e₂) (by rwa [hsum])
          have hmul : UnpackedFloat.mul Format.binary64 x.unpacked y.unpacked =
              .finite .positive m e hm := by
            rw [hxu, hyu]
            show roundWithAccuracy Format.binary64 .positive (m₁ * m₂) (e₁ + e₂) .exact = _
            rw [eq_mul_two_pow hle hr, hround]
            congr 1
          exact represents_of_pack hm hc he (hmul ▸ hbits)

theorem of_normalize {n : ℤ} {e : ℤ} (h : Representable (n * 2 ^ e))
    (hbits : x.bits.toNat = (UnpackedFloat.pack Format.binary64
      (UnpackedFloat.normalize Format.binary64 n e .positive)).toNat) :
    x.Represents (n * 2 ^ e) := by
  have hpos : (0 : ℚ) < 2 ^ e := zpow_pos two_pos e
  generalize hr : (n : ℚ) * 2 ^ e = r at h ⊢
  cases h with
  | zero =>
      have hn : n = 0 := by
        rcases mul_eq_zero.mp hr with hn | he
        · exact_mod_cast hn
        · exact absurd he hpos.ne'
      rw [hn] at hbits
      exact represents_of_pack_zero hbits
  | @positive m f hm hc hf =>
      have hn : 0 < n := by
        have hprod : (0 : ℚ) < n * 2 ^ e := by
          rw [hr]
          exact mul_pos (Nat.cast_pos.mpr hm) (zpow_pos two_pos f)
        exact_mod_cast pos_of_mul_pos_left hprod hpos.le
      have hcast : ((n.toNat : ℕ) : ℚ) * 2 ^ e = m * 2 ^ f := by
        rw [← hr]
        congr 1
        exact_mod_cast Int.toNat_of_nonneg hn.le
      have hnormalize : UnpackedFloat.normalize Format.binary64 n e .positive =
          .finite .positive m f hm := by
        rw [UnpackedFloat.normalize, Int.compare_eq_gt.mpr hn]
        exact round_exact .positive (by omega) hm hc hcast
      rw [hnormalize] at hbits
      exact represents_of_pack hm hc hf hbits

/-- **A difference that some pattern stands for is not rounded.** -/
theorem sub (hx : x.Represents p) (hy : y.Represents q) (h : Representable (p - q)) :
    (x - y).Represents (p - q) := by
  have hbits := toNat_bits_sub hx.finite hy.finite
  rcases hy.unpacked_cases with ⟨hyu, rfl⟩ | ⟨m₂, e₂, hm₂, hyu, hc₂, rfl⟩
  · -- nothing is taken away
    have hsame : UnpackedFloat.sub Format.binary64 x.unpacked y.unpacked = x.unpacked := by
      rcases hx.unpacked_cases with ⟨hxu, -⟩ | ⟨m₁, e₁, hm₁, hxu, -⟩
      · rw [hxu, hyu]
        rfl
      · rw [hxu, hyu]
        rfl
    rw [hsame, pack_unpacked hx.finite] at hbits
    rw [ext_of_toNat_bits hbits, sub_zero]
    exact hx
  · rcases hx.unpacked_cases with ⟨hxu, rfl⟩ | ⟨m₁, e₁, hm₁, hxu, hc₁, rfl⟩
    · -- no pattern with a clear sign stands for a number below zero
      exact absurd h.nonneg (not_le.mpr (by
        rw [zero_sub]
        exact neg_neg_of_pos (mul_pos (Nat.cast_pos.mpr hm₂) (zpow_pos two_pos e₂))))
    · have hvalue : (m₁ : ℚ) * 2 ^ e₁ - m₂ * 2 ^ e₂ =
          (((m₁ <<< (e₁ - min e₁ e₂).toNat : ℕ) : ℤ) - ((m₂ <<< (e₂ - min e₁ e₂).toNat : ℕ) : ℤ) :
            ℤ) * 2 ^ min e₁ e₂ := by
        rw [← shiftLeft_mul_zpow (min_le_left e₁ e₂), ← shiftLeft_mul_zpow (min_le_right e₁ e₂),
          Int.cast_sub, Int.cast_natCast, Int.cast_natCast, sub_mul]
      rw [hvalue] at h ⊢
      refine of_normalize h ?_
      rw [hbits, hxu, hyu]
      rfl

end Represents

/-- **A natural number below `2 ^ 53` is not rounded.** -/
theorem represents_natCast {n : ℕ} (hn : n < 2 ^ 53) : (n : Binary64).Represents n := by
  have hrep : Representable (n : ℚ) := by
    simpa using representable_of_le (e := 0) hn.le (by decide) (by decide)
  have hword : n.toUInt64.toNat = n := by
    rw [Nat.toUInt64, UInt64.toNat_ofNat']
    omega
  -- the machine number nearest to the word
  have hfloat : (ofFloat n.toUInt64.toFloat).Represents n := by
    have := Represents.of_normalize (x := ofFloat n.toUInt64.toFloat) (n := n) (e := 0)
      (by simpa using hrep) (by
        have : (ofFloat n.toUInt64.toFloat).bits.toNat = (UnpackedFloat.pack Format.binary64
          (UnpackedFloat.normalize Format.binary64 (n.toUInt64.toNat : ℤ) 0 .positive)).toNat := rfl
        rw [this, hword])
    simpa using this
  have hmul : (n : Binary64) = ofFloat n.toUInt64.toFloat * 1 := by
    refine ext_of_toNat_bits ?_
    rw [toNat_bits_mul hfloat.finite rfl]
    show (ofFloat (Float.ofScientific n false 0)).bits.toNat = _
    rw [Float.ofScientific, dif_pos ⟨hn, by decide⟩]
    rfl
  rw [hmul]
  simpa using hfloat.mul .one (by simpa using hrep)

end Binary64

end Queueing
