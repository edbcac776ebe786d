import Queueing.Proofs.Binary64.Amounts

/-!
# Rounding on both sides of zero

A number of either sign is rounded as its magnitude is (`SignedRounds`), so that sums, differences,
products and quotients of any finite numbers stay within the bounds of the exact ones
(`SignedRounds.bound`, `SignedRounds.le_of_le`). What is small against the bound of a number does
not lead it beyond (`add_absorbed`). Once a number is not finite, no later operation with finite
numbers makes it finite again.
-/

namespace Queueing

namespace Binary64

open Float.Model Float.Model.UnpackedFloat

/-! ## The values of finite numbers -/

variable {x y z : Binary64} {p q r : ℚ}

protected theorem neg_neg (x : Binary64) : - -x = x := by
  refine ext_of_toNat_bits ?_
  rw [toNat_bits_eq, toNat_bits_eq x, sign_neg, sign_neg, magnitude_neg, magnitude_neg]
  cases x.sign <;> rfl

theorem measures_toRat (hx : x.isFinite = true) (h0 : 0 ≤ x.toRat) : x.Measures x.toRat := by
  rw [toRat] at h0 ⊢
  by_cases hneg : x.isNegative = true
  · rw [if_pos hneg, neg_nonneg, ← magnitudeValue_zero] at h0
    have hzero : x.magnitude.toNat = 0 :=
      Nat.le_zero.mp (magnitudeValue_strictMono.le_iff_le.mp h0)
    rw [if_pos hneg, hzero, magnitudeValue_zero, neg_zero]
    exact ⟨hx, Or.inr hzero, by rw [hzero, magnitudeValue_zero]⟩
  · rw [if_neg hneg]
    exact ⟨hx, Or.inl (by rw [sign, if_neg hneg]), rfl⟩

theorem measures_neg_toRat (hx : x.isFinite = true) (h0 : x.toRat ≤ 0) :
    (-x).Measures (-x.toRat) := by
  rw [← toRat_neg]
  refine measures_toRat ((isFinite_neg x).trans hx) ?_
  rwa [toRat_neg, neg_nonneg]

theorem exists_measures_abs (hx : x.isFinite = true) : ∃ y : Binary64, y.Measures |x.toRat| := by
  rcases le_total 0 x.toRat with h0 | h0
  · rw [abs_of_nonneg h0]
    exact ⟨x, measures_toRat hx h0⟩
  · rw [abs_of_nonpos h0]
    exact ⟨-x, measures_neg_toRat hx h0⟩

theorem exists_int_toRat (x : Binary64) : ∃ k : ℤ, x.toRat = k * 2 ^ (-1074 : ℤ) := by
  obtain ⟨m, e, hc, hplace⟩ := exists_canonical_place x.magnitude.toNat
  obtain ⟨i, hi⟩ : ∃ i : ℕ, e = (i : ℤ) + -1074 := ⟨(e + 1074).toNat, by have := hc.low; omega⟩
  have hvalue : magnitudeValue x.magnitude.toNat = ((m * 2 ^ i : ℤ) : ℚ) * 2 ^ (-1074 : ℤ) := by
    rw [← hplace, magnitudeValue_place hc, hi, zpow_add₀ two_ne_zero, zpow_natCast,
      Int.cast_mul, Int.cast_natCast, Int.cast_pow, Int.cast_ofNat, mul_assoc]
  rw [toRat, hvalue]
  split_ifs
  · exact ⟨-(m * 2 ^ i), by rw [Int.cast_neg, neg_mul]⟩
  · exact ⟨m * 2 ^ i, rfl⟩

theorem least_le_sub (h : y.toRat < x.toRat) : 2 ^ (-1074 : ℤ) ≤ x.toRat - y.toRat := by
  have hpos : (0 : ℚ) < 2 ^ (-1074 : ℤ) := zpow_pos two_pos _
  obtain ⟨j, hj⟩ := exists_int_toRat x
  obtain ⟨k, hk⟩ := exists_int_toRat y
  rw [hj, hk] at h ⊢
  have hjk : k + 1 ≤ j := by exact_mod_cast (mul_lt_mul_iff_of_pos_right hpos).mp h
  have hone : (1 : ℚ) ≤ j - k := by exact_mod_cast le_sub_iff_add_le'.mpr hjk
  rw [← sub_mul]
  exact le_mul_of_one_le_left hpos.le hone

theorem unpacked_toRat (hx : x.isFinite = true) :
    (∃ s, x.unpacked = .zero s) ∧ x.toRat = 0 ∨
      ∃ s m e h, x.unpacked = .finite s m e h ∧ x.toRat = (s.apply m : ℤ) * 2 ^ e := by
  rcases unpack_of_isFinite hx with ⟨h0, hu⟩ | ⟨m, e, hm, hu, hc, hplace⟩
  · refine Or.inl ⟨⟨_, hu⟩, ?_⟩
    rw [toRat, h0, magnitudeValue_zero, neg_zero, ite_self]
  · refine Or.inr ⟨x.sign, m, e, hm, hu, ?_⟩
    rw [toRat, ← hplace, magnitudeValue_place hc, sign]
    split_ifs
    · show _ = ((-(m : ℤ) : ℤ) : ℚ) * 2 ^ e
      push_cast
      rw [neg_mul]
    · rfl

/-! ## Rounding either sign -/

theorem Rounds.measures (hx : Rounds q x) (hy : y.Measures q) : x.Measures q := by
  obtain ⟨hfin, hle⟩ := hx.le_of_le hy le_rfl
  obtain ⟨p, hp, hple⟩ := exists_measures_le hfin hx.nonneg hy hle
  rwa [← le_antisymm hple ((hy.le_iff hp).mp (hx.ge_of_ge hy le_rfl))]

theorem Rounds.value_eq (hx : Rounds q x) (hy : Rounds q y) (hp : x.Measures p)
    (hr : y.Measures r) : p = r := by
  rw [← hp.value, ← hr.value,
    le_antisymm (hx.magnitude_mono hy le_rfl) (hy.magnitude_mono hx le_rfl)]

theorem Rounds.of_isZero (h : x.isZero = true) : Rounds 0 x := by
  rw [Binary64.isZero_iff] at h
  refine Measures.rounds ⟨(isFinite_iff x).mpr (by rw [h]; decide), Or.inr h, ?_⟩
  rw [h, magnitudeValue_zero]

theorem Rounds.isZero (h : Rounds 0 x) : x.isZero = true := (h.measures .zero).isZero_iff.mpr rfl

theorem abs_le_of_mem_uIcc (hq : q ∈ Set.uIcc p r) : |q| ≤ max |p| |r| := by
  rcases Set.mem_uIcc.mp hq with ⟨hlow, hhigh⟩ | ⟨hlow, hhigh⟩
  · exact abs_le_max_abs_abs hlow hhigh
  · rw [max_comm]
    exact abs_le_max_abs_abs hlow hhigh

/-- The pattern to which a number is rounded: the magnitude on its own, and then the sign. -/
structure SignedRounds (q : ℚ) (x : Binary64) : Prop where
  above : 0 ≤ q → Rounds q x
  below : q ≤ 0 → Rounds (-q) (-x)

theorem Rounds.signed (h : Rounds q x) (h0 : 0 ≤ q) : SignedRounds q x := by
  refine ⟨fun _ => h, fun hle => ?_⟩
  obtain rfl : q = 0 := le_antisymm hle h0
  rw [neg_zero]
  refine .of_isZero ?_
  rw [Binary64.isZero_iff, magnitude_neg, ← Binary64.isZero_iff]
  exact h.isZero

namespace SignedRounds

theorem neg (h : SignedRounds q x) : SignedRounds (-q) (-x) := by
  constructor
  · intro h0
    exact h.below (neg_nonneg.mp h0)
  · intro h0
    rw [neg_neg, Binary64.neg_neg]
    exact h.above (neg_nonpos.mp h0)

theorem of_neg (h : SignedRounds (-q) (-x)) : SignedRounds q x := by
  have hneg := h.neg
  rwa [neg_neg, Binary64.neg_neg] at hneg

theorem self (hx : x.isFinite = true) : SignedRounds x.toRat x := by
  rcases le_total 0 x.toRat with h0 | h0
  · exact (measures_toRat hx h0).rounds.signed h0
  · exact of_neg ((measures_neg_toRat hx h0).rounds.signed (neg_nonneg.mpr h0))

theorem measures (h : SignedRounds q x) (hx : x.isFinite = true) (h0 : 0 ≤ q) :
    x.Measures x.toRat := by
  obtain ⟨v, hv⟩ := exists_measures hx (h.above h0).nonneg
  rwa [hv.toRat_eq]

/-- **A bound of the magnitude stays one.** -/
theorem bound (h : SignedRounds q x) (hz : z.Measures r) (hq : |q| ≤ r) :
    x.isFinite = true ∧ |x.toRat| ≤ r := by
  rcases le_total 0 q with h0 | h0
  · rw [abs_of_nonneg h0] at hq
    obtain ⟨hfin, hle⟩ := (h.above h0).le_of_le hz hq
    have hx := h.measures hfin h0
    rw [abs_of_nonneg hx.nonneg]
    exact ⟨hfin, (hx.le_iff hz).mp hle⟩
  · rw [abs_of_nonpos h0] at hq
    obtain ⟨hfin, hle⟩ := (h.below h0).le_of_le hz hq
    have hx := h.neg.measures hfin (neg_nonneg.mpr h0)
    rw [← abs_neg, ← toRat_neg, abs_of_nonneg hx.nonneg]
    exact ⟨(isFinite_neg x).symm.trans hfin, (hx.le_iff hz).mp hle⟩

theorem le_of_le (h : SignedRounds q x) (hx : x.isFinite = true) (hy : y.isFinite = true)
    (hle : q ≤ y.toRat) : x.toRat ≤ y.toRat := by
  rcases le_total 0 q with h0 | h0
  · have hym := measures_toRat hy (h0.trans hle)
    exact ((h.measures hx h0).le_iff hym).mp ((h.above h0).le_of_le hym hle).2
  · have hxm := h.neg.measures ((isFinite_neg x).trans hx) (neg_nonneg.mpr h0)
    rcases le_total 0 y.toRat with hy0 | hy0
    · have hx0 := hxm.nonneg
      rw [toRat_neg, neg_nonneg] at hx0
      exact hx0.trans hy0
    · have hym := measures_neg_toRat hy hy0
      have hge := (hym.le_iff hxm).mp ((h.below h0).ge_of_ge hym (neg_le_neg hle))
      rwa [toRat_neg, neg_le_neg_iff] at hge

theorem ge_of_ge (h : SignedRounds q x) (hx : x.isFinite = true) (hy : y.isFinite = true)
    (hle : y.toRat ≤ q) : y.toRat ≤ x.toRat := by
  have hneg := h.neg.le_of_le ((isFinite_neg x).trans hx) ((isFinite_neg y).trans hy)
    (by rw [toRat_neg]; exact neg_le_neg hle)
  rwa [toRat_neg, toRat_neg, neg_le_neg_iff] at hneg

theorem exact (h : SignedRounds q x) (hy : y.isFinite = true) (hq : y.toRat = q) :
    x.isFinite = true ∧ x.toRat = q := by
  obtain ⟨z, hz⟩ := exists_measures_abs hy
  obtain ⟨hfin, -⟩ := h.bound hz (by rw [hq])
  refine ⟨hfin, ?_⟩
  rw [← hq]
  exact le_antisymm (h.le_of_le hfin hy hq.ge) (h.ge_of_ge hfin hy hq.le)

/-- **What lies between two numbers is rounded between them.** -/
theorem between (h : SignedRounds q z) (hx : x.isFinite = true) (hy : y.isFinite = true)
    (hq : q ∈ Set.uIcc x.toRat y.toRat) :
    z.isFinite = true ∧ z.toRat ∈ Set.uIcc x.toRat y.toRat := by
  obtain ⟨v, hv⟩ := exists_measures_abs hx
  obtain ⟨w, hw⟩ := exists_measures_abs hy
  have hfin : z.isFinite = true := by
    have hmax := abs_le_of_mem_uIcc hq
    rcases le_total |x.toRat| |y.toRat| with hle | hle
    · exact (h.bound hw (hmax.trans (max_le hle le_rfl))).1
    · exact (h.bound hv (hmax.trans (max_le le_rfl hle))).1
  refine ⟨hfin, ?_⟩
  rcases Set.mem_uIcc.mp hq with ⟨hlow, hhigh⟩ | ⟨hlow, hhigh⟩
  · exact Set.mem_uIcc.mpr (Or.inl ⟨h.ge_of_ge hfin hx hlow, h.le_of_le hfin hy hhigh⟩)
  · exact Set.mem_uIcc.mpr (Or.inr ⟨h.ge_of_ge hfin hy hlow, h.le_of_le hfin hx hhigh⟩)

theorem measures_zero (h : SignedRounds 0 x) : x.Measures 0 := (h.above le_rfl).measures .zero

theorem unique (hx : SignedRounds q x) (hy : SignedRounds q y) (hxf : x.isFinite = true)
    (hyf : y.isFinite = true) : x.toRat = y.toRat := by
  rcases le_total 0 q with h0 | h0
  · exact (hx.above h0).value_eq (hy.above h0) (hx.measures hxf h0) (hy.measures hyf h0)
  · have hq := neg_nonneg.mpr h0
    have hneg := (hx.below h0).value_eq (hy.below h0)
      (hx.neg.measures ((isFinite_neg x).trans hxf) hq)
      (hy.neg.measures ((isFinite_neg y).trans hyf) hq)
    rwa [toRat_neg, toRat_neg, neg_inj] at hneg

end SignedRounds

/-! ## Sums, differences, products and quotients -/

theorem signedRounds_of_normalize {n e : ℤ} (hbits : x.bits.toNat =
    (UnpackedFloat.pack Format.binary64
      (UnpackedFloat.normalize Format.binary64 n e .positive)).toNat) :
    SignedRounds (n * 2 ^ e) x := by
  have hpos : (0 : ℚ) < 2 ^ e := zpow_pos two_pos e
  rcases le_or_gt 0 n with h0 | hneg
  · exact (rounds_of_normalize h0 hbits).signed (mul_nonneg (Int.cast_nonneg h0) hpos.le)
  · obtain ⟨y, hy⟩ : ∃ y : Binary64, y.bits.toNat = (UnpackedFloat.pack Format.binary64
        (UnpackedFloat.normalize Format.binary64 (-n) e .positive)).toNat := ⟨⟨⟨_⟩⟩, rfl⟩
    have hrounds := (rounds_of_normalize (by omega) hy).signed
      (mul_nonneg (Int.cast_nonneg (by omega)) hpos.le)
    rw [← neg_neg n, normalize_neg (by omega)] at hbits
    rw [eq_neg_of_pack (normalize_ne_notANumber _ _ _) hbits hy]
    rw [Int.cast_neg, neg_mul] at hrounds
    have hx := hrounds.neg
    rwa [neg_neg] at hx

theorem SignedRounds.of_pack (hx : x.isFinite = true)
    (hbits : z.bits.toNat = (UnpackedFloat.pack Format.binary64 x.unpacked).toNat) :
    SignedRounds x.toRat z := by
  rw [pack_unpacked hx] at hbits
  rw [ext_of_toNat_bits hbits]
  exact .self hx

/-- **A sum is rounded to the nearest number**, whatever the signs. -/
theorem signedRounds_add (hx : x.isFinite = true) (hy : y.isFinite = true) :
    SignedRounds (x.toRat + y.toRat) (x + y) := by
  have hbits := toNat_bits_add hx hy
  rcases unpacked_toRat hx with ⟨⟨s₁, hxu⟩, hx0⟩ | ⟨s₁, m₁, e₁, hm₁, hxu, hxv⟩
  · rcases unpacked_toRat hy with ⟨⟨s₂, hyu⟩, hy0⟩ | ⟨s₂, m₂, e₂, hm₂, hyu, -⟩
    · rw [hx0, hy0, add_zero]
      refine (rounds_of_zero ?_ hbits).signed le_rfl
      rw [hxu, hyu]
      cases s₁ <;> cases s₂ <;> exact ⟨_, rfl⟩
    · rw [hx0, zero_add]
      refine .of_pack hy ?_
      rw [hbits, hxu, hyu]
      rfl
  · rcases unpacked_toRat hy with ⟨⟨s₂, hyu⟩, hy0⟩ | ⟨s₂, m₂, e₂, hm₂, hyu, hyv⟩
    · rw [hy0, add_zero]
      refine .of_pack hx ?_
      rw [hbits, hxu, hyu]
      rfl
    · have happly : ∀ (s : Sign) (n : ℕ), ((s.apply n : ℤ) : ℚ) = ((s.apply 1 : ℤ) : ℚ) * n := by
        intro s n
        cases s
        · show ((-(n : ℤ) : ℤ) : ℚ) = ((-1 : ℤ) : ℚ) * n
          push_cast
          rw [neg_one_mul]
        · show ((n : ℤ) : ℚ) = ((1 : ℤ) : ℚ) * n
          rw [Int.cast_natCast, Int.cast_one, one_mul]
      have hvalue : x.toRat + y.toRat =
          ((s₁.apply (m₁ <<< (e₁ - min e₁ e₂).toNat : ℕ) +
            s₂.apply (m₂ <<< (e₂ - min e₁ e₂).toNat : ℕ) : ℤ) : ℚ) * 2 ^ min e₁ e₂ := by
        rw [hxv, hyv, Int.cast_add, happly, happly s₂, happly, happly s₂, add_mul, mul_assoc,
          mul_assoc, mul_assoc, mul_assoc, shiftLeft_mul_zpow (min_le_left e₁ e₂),
          shiftLeft_mul_zpow (min_le_right e₁ e₂)]
      rw [hvalue]
      refine signedRounds_of_normalize ?_
      rw [hbits, hxu, hyu]
      rfl

theorem signedRounds_sub (hx : x.isFinite = true) (hy : y.isFinite = true) :
    SignedRounds (x.toRat - y.toRat) (x - y) := by
  rw [← Binary64.add_neg hx hy, sub_eq_add_neg, ← toRat_neg]
  exact signedRounds_add hx ((isFinite_neg y).trans hy)

theorem mul_sign_neg (s t : Sign) : -s * t = -(s * t) := by
  cases s <;> cases t <;> rfl

protected theorem neg_mul (hx : x.isFinite = true) (hy : y.isFinite = true) :
    -x * y = -(x * y) := by
  suffices hmul : UnpackedFloat.mul Format.binary64 (UnpackedFloat.neg x.unpacked) y.unpacked =
      UnpackedFloat.neg (UnpackedFloat.mul Format.binary64 x.unpacked y.unpacked) ∧
        UnpackedFloat.mul Format.binary64 x.unpacked y.unpacked ≠ .notANumber by
    refine eq_neg_of_pack hmul.2 ?_ (toNat_bits_mul hx hy)
    rw [toNat_bits_mul ((isFinite_neg x).trans hx) hy, unpacked_neg hx, hmul.1]
  rcases unpacked_cases hx with ⟨s₁, hxu⟩ | ⟨s₁, m₁, e₁, hm₁, hxu⟩ <;>
    rcases unpacked_cases hy with ⟨s₂, hyu⟩ | ⟨s₂, m₂, e₂, hm₂, hyu⟩ <;>
      simp only [hxu, hyu, UnpackedFloat.neg, UnpackedFloat.mul, mul_sign_neg]
  · simp
  · simp
  · simp
  · exact ⟨roundWithAccuracy_neg _ _ _ _, roundWithAccuracy_ne_notANumber _ _ _ _⟩

/-- **A product is rounded to the nearest number**, whatever the signs. -/
theorem signedRounds_mul (hx : x.isFinite = true) (hy : y.isFinite = true) :
    SignedRounds (x.toRat * y.toRat) (x * y) := by
  -- it is enough that the second factor is not below zero, then that neither is
  suffices h : ∀ {x y : Binary64}, x.isFinite = true → y.isFinite = true → 0 ≤ y.toRat →
      SignedRounds (x.toRat * y.toRat) (x * y) by
    rcases le_total 0 y.toRat with hy0 | hy0
    · exact h hx hy hy0
    · have hneg := h ((isFinite_neg x).trans hx) ((isFinite_neg y).trans hy)
        (by rwa [toRat_neg, neg_nonneg])
      rwa [Binary64.neg_mul_neg hx hy, toRat_neg, toRat_neg, neg_mul_neg] at hneg
  intro x y hx hy hy0
  have hym := measures_toRat hy hy0
  rcases le_total 0 x.toRat with hx0 | hx0
  · exact ((measures_toRat hx hx0).mul hym).signed (mul_nonneg hx0 hy0)
  · have hneg := ((measures_neg_toRat hx hx0).mul hym).signed
      (mul_nonneg (neg_nonneg.mpr hx0) hy0)
    rw [Binary64.neg_mul hx hy, neg_mul] at hneg
    exact hneg.of_neg

/-- **A quotient by a positive number is rounded to the nearest number.** -/
theorem signedRounds_div (hx : x.isFinite = true) (hy : y.Measures r) (hr : 0 < r) :
    SignedRounds (x.toRat / r) (x / y) := by
  rcases le_total 0 x.toRat with hx0 | hx0
  · exact ((measures_toRat hx hx0).div hy hr).signed (div_nonneg hx0 hr.le)
  · have hneg := ((measures_neg_toRat hx hx0).div hy hr).signed
      (div_nonneg (neg_nonneg.mpr hx0) hr.le)
    rw [Binary64.neg_div hx hy hr, neg_div] at hneg
    exact hneg.of_neg

/-! ## Zeros of either sign -/

theorem sub_measures_zero (hx : x.isFinite = true) (hy : y.isFinite = true)
    (h : x.toRat = y.toRat) : (x - y).Measures 0 := by
  have hrounds := signedRounds_sub hx hy
  rw [h, sub_self] at hrounds
  exact hrounds.measures_zero

theorem mul_measures_zero (hx : x.isFinite = true) (hy : y.Measures 0) : (x * y).Measures 0 := by
  have hrounds := signedRounds_mul hx hy.finite
  rw [hy.toRat_eq, mul_zero] at hrounds
  exact hrounds.measures_zero

theorem Measures.add_zeros (hx : x.Measures 0) (hy : y.Measures 0) : (x + y).Measures 0 := by
  have hrounds := hx.add hy
  rw [add_zero] at hrounds
  exact hrounds.measures .zero

theorem Measures.sub_zeros (hx : x.Measures 0) (hy : y.Measures 0) : (x - y).Measures 0 :=
  sub_measures_zero hx.finite hy.finite (hx.toRat_eq.trans hy.toRat_eq.symm)

/-! ## Numbers up to a power of two -/

/-- A finite number whose magnitude is at most a power of two. -/
structure UpTo (k : ℤ) (x : Binary64) : Prop where
  finite : x.isFinite = true
  le : |x.toRat| ≤ 2 ^ k

namespace UpTo

variable {j k l : ℤ}

theorem mono (h : UpTo k x) (hkl : k ≤ l) : UpTo l x :=
  ⟨h.finite, h.le.trans (zpow_le_zpow_right₀ one_le_two hkl)⟩

theorem of_measures (hx : x.Measures p) (h : p ≤ 2 ^ k) : UpTo k x := by
  refine ⟨hx.finite, ?_⟩
  rwa [hx.toRat_eq, abs_of_nonneg hx.nonneg]

theorem of_signedRounds (h : SignedRounds q x) (hq : |q| ≤ 2 ^ k) (hlow : -1074 ≤ k)
    (hhigh : k ≤ 1023) : UpTo k x := by
  obtain ⟨z, hz⟩ := exists_measures_two_pow hlow hhigh
  obtain ⟨hfin, hle⟩ := h.bound hz hq
  exact ⟨hfin, hle⟩

theorem of_zero (hx : x.Measures 0) : UpTo k x := of_measures hx (zpow_pos two_pos k).le

theorem exists_measures (h : UpTo k x) (h0 : 0 ≤ x) : ∃ p, x.Measures p ∧ p ≤ 2 ^ k := by
  obtain ⟨p, hp⟩ := Binary64.exists_measures h.finite h0
  have hle := h.le
  rw [hp.toRat_eq] at hle
  exact ⟨p, hp, (le_abs_self p).trans hle⟩

theorem natCast {n i : ℕ} (h0 : n ≠ 0) (hi : i ≤ 1023) (h : n ≤ 2 ^ i) :
    UpTo i (n : Binary64) := by
  obtain ⟨p, hp, -, hle⟩ := natCast_between h0 hi h
  exact of_measures hp (by rwa [zpow_natCast])

theorem neg (hx : UpTo k x) : UpTo k (-x) := by
  refine ⟨(isFinite_neg x).trans hx.finite, ?_⟩
  rw [toRat_neg, abs_neg]
  exact hx.le

theorem add (hx : UpTo j x) (hy : UpTo k y) (hj : j + 1 ≤ l) (hk : k + 1 ≤ l) (hlow : -1074 ≤ l)
    (hhigh : l ≤ 1023) : UpTo l (x + y) := by
  refine of_signedRounds (signedRounds_add hx.finite hy.finite) ?_ hlow hhigh
  calc |x.toRat + y.toRat| ≤ |x.toRat| + |y.toRat| := abs_add_le _ _
    _ ≤ 2 ^ (l - 1) + 2 ^ (l - 1) :=
        add_le_add (hx.mono (by omega)).le (hy.mono (by omega)).le
    _ = 2 ^ l := by rw [← mul_two, ← zpow_add_one₀ two_ne_zero, sub_add_cancel]

theorem sub (hx : UpTo j x) (hy : UpTo k y) (hj : j + 1 ≤ l) (hk : k + 1 ≤ l) (hlow : -1074 ≤ l)
    (hhigh : l ≤ 1023) : UpTo l (x - y) := by
  rw [← Binary64.add_neg hx.finite hy.finite]
  exact hx.add hy.neg hj hk hlow hhigh

theorem mul (hx : UpTo j x) (hy : UpTo k y) (hl : j + k ≤ l) (hlow : -1074 ≤ l)
    (hhigh : l ≤ 1023) : UpTo l (x * y) := by
  refine of_signedRounds (signedRounds_mul hx.finite hy.finite) ?_ hlow hhigh
  refine le_trans ?_ (zpow_le_zpow_right₀ one_le_two hl)
  rw [abs_mul, zpow_add₀ two_ne_zero]
  exact mul_le_mul hx.le hy.le (abs_nonneg _) (zpow_pos two_pos j).le

theorem div (hx : UpTo j x) (hy : y.Measures r) (hr : 2 ^ k ≤ r) (hl : j - k ≤ l)
    (hlow : -1074 ≤ l) (hhigh : l ≤ 1023) : UpTo l (x / y) := by
  have hpos : (0 : ℚ) < 2 ^ k := zpow_pos two_pos k
  have hr0 := hpos.trans_le hr
  refine of_signedRounds (signedRounds_div hx.finite hy hr0) ?_ hlow hhigh
  refine le_trans ?_ (zpow_le_zpow_right₀ one_le_two hl)
  rw [abs_div, abs_of_pos hr0, zpow_sub₀ two_ne_zero]
  exact div_le_div₀ (zpow_pos two_pos j).le hx.le hpos hr

theorem exists_next {k : ℤ} (hlow : -1022 ≤ k) (hhigh : k ≤ 1023) :
    ∃ z : Binary64, z.Measures (2 ^ k) ∧
      magnitudeValue (z.magnitude.toNat + 1) = 2 ^ k + 2 ^ (k - 52) := by
  have hc : Canonical (2 ^ 52) (k - 52) := ⟨by decide, by omega, Or.inl le_rfl⟩
  have hsplit : (2 : ℚ) ^ k = ((2 ^ 52 : ℕ) : ℚ) * 2 ^ (k - 52) := by
    rw [Nat.cast_pow, Nat.cast_ofNat, ← zpow_natCast, ← zpow_add₀ two_ne_zero]
    congr 1
    omega
  obtain ⟨z, hz⟩ := hc.exists_measures (by omega)
  have hplace : z.magnitude.toNat = place (2 ^ 52) (k - 52) :=
    magnitudeValue_strictMono.injective (hz.value.trans (magnitudeValue_place hc).symm)
  refine ⟨z, hsplit ▸ hz, ?_⟩
  rw [hplace, magnitudeValue_place_succ hc, Nat.cast_add, Nat.cast_one, add_mul, one_mul, hsplit]

/-- **What is small against the bound does not lead beyond it**: the next number is so far away
that the sum is rounded to the bound at most. -/
theorem add_absorbed (hx : UpTo (k + 54) x) (hy : UpTo k y) (hlow : -1074 ≤ k)
    (hhigh : k ≤ 969) : UpTo (k + 54) (x + y) := by
  obtain ⟨z, hz, hnext⟩ := exists_next (k := k + 54) (by omega) (by omega)
  have hfar : (2 : ℚ) * 2 ^ k < 2 ^ (k + 54 - 52) := by
    rw [← zpow_one_add₀ two_ne_zero]
    exact zpow_lt_zpow_right₀ one_lt_two (by omega)
  have hsum : |x.toRat + y.toRat| ≤ 2 ^ (k + 54) + 2 ^ k :=
    (abs_add_le _ _).trans (add_le_add hx.le hy.le)
  have hmiddle : 2 * |x.toRat + y.toRat| <
      2 ^ (k + 54) + magnitudeValue (z.magnitude.toNat + 1) := by
    rw [hnext]
    linarith
  have hrounds := signedRounds_add hx.finite hy.finite
  rcases le_total 0 (x.toRat + y.toRat) with h0 | h0
  · rw [abs_of_nonneg h0] at hmiddle
    obtain ⟨hfin, hle⟩ := (hrounds.above h0).le_of_lt_middle hz hmiddle
    have hm := hrounds.measures hfin h0
    exact of_measures hm ((hm.le_iff hz).mp hle)
  · rw [abs_of_nonpos h0] at hmiddle
    obtain ⟨hfin, hle⟩ := (hrounds.below h0).le_of_lt_middle hz hmiddle
    have hm := hrounds.neg.measures hfin (neg_nonneg.mpr h0)
    rw [← Binary64.neg_neg (x + y)]
    exact (of_measures hm ((hm.le_iff hz).mp hle)).neg

end UpTo

/-! ## Numbers that are not finite -/

/-- Neither a zero nor a finite number. -/
def Lost (u : UnpackedFloat) : Prop := u = .notANumber ∨ ∃ s, u = .infinity s

theorem isFinite_eq_false_of_pack {u : UnpackedFloat} (hu : Lost u)
    (hbits : x.bits.toNat = (UnpackedFloat.pack Format.binary64 u).toNat) :
    x.isFinite = false := by
  rw [Bool.eq_false_iff, Ne, isFinite_iff, toNat_magnitude, hbits]
  rcases hu with rfl | ⟨s, rfl⟩
  · decide
  · cases s <;> decide

theorem lost_of_not_isFinite (hx : x.isFinite = false) : Lost x.toFloat.toModel.unpack := by
  have hlt := x.toNat_bits_lt
  have hinf : @unpackExponent Format.binary64 x.bits.toBitVec = -1#11 := by
    refine BitVec.eq_of_toNat_eq ((toNat_unpackExponent _).trans ?_)
    rw [Bool.eq_false_iff, Ne, isFinite_iff, toNat_magnitude] at hx
    show x.bits.toNat / 2 ^ 52 % 2 ^ 11 = 2047
    omega
  have hunpacked : Lost x.unpacked := by
    rw [unpacked, UnpackedFloat.unpack]
    simp only
    rw [if_pos hinf]
    split_ifs
    · exact Or.inr ⟨_, rfl⟩
    · exact Or.inl rfl
  show Lost (UnpackedFloat.unpack Format.binary64 (UnpackedFloat.pack Format.binary64 x.unpacked))
  rcases hunpacked with hu | ⟨s, hu⟩
  · rw [hu]
    exact Or.inl rfl
  · rw [hu]
    refine Or.inr ⟨s, ?_⟩
    cases s <;> rfl

theorem not_lost (hx : x.isFinite = true) : ¬ Lost x.toFloat.toModel.unpack := by
  rw [toModel_toFloat hx]
  rcases unpacked_cases hx with ⟨s, hu⟩ | ⟨s, m, e, hm, hu⟩ <;> simp [Lost, hu]

/-- What is lost stays lost in every operation with a number that is not. -/
theorem Lost.keep {u v : UnpackedFloat} (hu : Lost u) (hv : ¬ Lost v) :
    (Lost (UnpackedFloat.add Format.binary64 u v) ∧ Lost (UnpackedFloat.sub Format.binary64 u v)) ∧
      Lost (UnpackedFloat.mul Format.binary64 v u) ∧
        Lost (UnpackedFloat.div Format.binary64 u v) := by
  cases v with
  | notANumber => exact absurd (Or.inl rfl) hv
  | infinity s => exact absurd (Or.inr ⟨s, rfl⟩) hv
  | zero s =>
      rcases hu with rfl | ⟨t, rfl⟩
      · exact ⟨⟨Or.inl rfl, Or.inl rfl⟩, Or.inl rfl, Or.inl rfl⟩
      · exact ⟨⟨Or.inr ⟨_, rfl⟩, Or.inr ⟨_, rfl⟩⟩, Or.inl rfl, Or.inr ⟨_, rfl⟩⟩
  | finite s m e hm =>
      rcases hu with rfl | ⟨t, rfl⟩
      · exact ⟨⟨Or.inl rfl, Or.inl rfl⟩, Or.inl rfl, Or.inl rfl⟩
      · exact ⟨⟨Or.inr ⟨_, rfl⟩, Or.inr ⟨_, rfl⟩⟩, Or.inr ⟨_, rfl⟩, Or.inr ⟨_, rfl⟩⟩

section

variable (hx : x.isFinite = false) (hy : y.isFinite = true)

include hx hy

theorem isFinite_add_eq_false : (x + y).isFinite = false :=
  isFinite_eq_false_of_pack ((lost_of_not_isFinite hx).keep (not_lost hy)).1.1 rfl

theorem isFinite_sub_eq_false : (x - y).isFinite = false :=
  isFinite_eq_false_of_pack ((lost_of_not_isFinite hx).keep (not_lost hy)).1.2 rfl

theorem isFinite_mul_eq_false : (y * x).isFinite = false :=
  isFinite_eq_false_of_pack ((lost_of_not_isFinite hx).keep (not_lost hy)).2.1 rfl

theorem isFinite_div_eq_false : (x / y).isFinite = false :=
  isFinite_eq_false_of_pack ((lost_of_not_isFinite hx).keep (not_lost hy)).2.2 rfl

end

/-- **Nothing is divided by a zero into a finite number.** -/
theorem isFinite_div_zero (hx : x.isFinite = true) (hy : y.isZero = true) :
    (x / y).isFinite = false := by
  have hzero := (Rounds.of_isZero hy).measures .zero
  refine isFinite_eq_false_of_pack ?_ (toNat_bits_div hx hzero.finite)
  rcases hzero.unpacked_cases with ⟨hyu, -⟩ | ⟨m₂, e₂, hm₂, -, -, hvalue⟩
  · rcases unpacked_cases hx with ⟨s, hxu⟩ | ⟨s, m, e, hm, hxu⟩ <;> rw [hxu, hyu]
    · exact Or.inl rfl
    · exact Or.inr ⟨_, rfl⟩
  · have hpos : (0 : ℚ) < m₂ * 2 ^ e₂ := mul_pos (Nat.cast_pos.mpr hm₂) (zpow_pos two_pos e₂)
    exact absurd hvalue hpos.ne

end Binary64

end Queueing
