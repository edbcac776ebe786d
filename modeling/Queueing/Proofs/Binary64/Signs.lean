import Queueing.Proofs.Binary64.Operations

/-!
# Operations and signs

Rounding does not look at the sign. So a difference that is below zero is the negative of the
opposite one (`sub_eq_neg`), the negative of a number is added by taking the number away
(`add_neg`), and signs are carried through products and quotients (`neg_mul_neg`, `neg_div`).
What is known of numbers that are not below zero tells all of the others.
-/

namespace Queueing

namespace Binary64

open Float.Model Float.Model.UnpackedFloat

/-! ## Negatives -/

theorem Canonical.eq_of_place {m m' : ℕ} {e e' : ℤ} (hc : Canonical m e) (hc' : Canonical m' e')
    (h : place m e = place m' e') : m = m' ∧ e = e' := by
  have hlt := hc.lt
  have hlt' := hc'.lt
  have hlow := hc.low
  have hlow' := hc'.low
  have hnormal := hc.normal
  have hnormal' := hc'.normal
  simp only [place] at h
  omega

theorem sign_neg (x : Binary64) : (-x).sign = -x.sign := by
  rw [sign, sign, isNegative_neg]
  cases x.isNegative <;> rfl

theorem isFinite_neg (x : Binary64) : (-x).isFinite = x.isFinite := by
  rw [Bool.eq_iff_iff, isFinite_iff, isFinite_iff, magnitude_neg]

def toRat (x : Binary64) : ℚ :=
  if x.isNegative then -magnitudeValue x.magnitude.toNat else magnitudeValue x.magnitude.toNat

theorem Measures.toRat_eq {x : Binary64} {q : ℚ} (hx : x.Measures q) : x.toRat = q := by
  rw [toRat, hx.value]
  split_ifs with hneg
  · have hzero : x.magnitude.toNat = 0 := by
      refine hx.sign.resolve_left fun hs => ?_
      rw [Binary64.sign, if_pos hneg] at hs
      cases hs
    rw [← hx.value, hzero, magnitudeValue_zero, neg_zero]
  · rfl

theorem toRat_neg (x : Binary64) : (-x).toRat = -x.toRat := by
  rw [toRat, toRat, isNegative_neg, magnitude_neg]
  cases x.isNegative <;> simp

theorem unpacked_neg {x : Binary64} (hx : x.isFinite = true) :
    (-x).unpacked = UnpackedFloat.neg x.unpacked := by
  have hneg : (-x).isFinite = true := (isFinite_neg x).trans hx
  rcases unpack_of_isFinite hx with ⟨h0, hu⟩ | ⟨m, e, hm, hu, hc, hplace⟩
  · rcases unpack_of_isFinite hneg with ⟨-, hu'⟩ | ⟨m', e', hm', -, -, hplace'⟩
    · rw [unpacked, unpacked, hu, hu', sign_neg]
      rfl
    · rw [magnitude_neg, h0] at hplace'
      exact absurd hplace' (place_pos e' hm').ne'
  · rcases unpack_of_isFinite hneg with ⟨h0', -⟩ | ⟨m', e', hm', hu', hc', hplace'⟩
    · rw [magnitude_neg, ← hplace] at h0'
      exact absurd h0' (place_pos e hm).ne'
    · rw [magnitude_neg, ← hplace] at hplace'
      obtain ⟨rfl, rfl⟩ := hc'.eq_of_place hc hplace'
      rw [unpacked, unpacked, hu, hu', sign_neg]
      rfl

/-! ## Rounding and packing -/

theorem eq_neg_of_pack {x y : Binary64} {u : UnpackedFloat} (hu : u ≠ .notANumber)
    (hx : x.bits.toNat = (UnpackedFloat.pack Format.binary64 (UnpackedFloat.neg u)).toNat)
    (hy : y.bits.toNat = (UnpackedFloat.pack Format.binary64 u).toNat) : x = -y := by
  obtain ⟨s, n, hn, hpack, hpack'⟩ : ∃ s n, n < 2 ^ 63 ∧
      (UnpackedFloat.pack Format.binary64 u).toNat = signPart s + n ∧
        (UnpackedFloat.pack Format.binary64 (UnpackedFloat.neg u)).toNat = signPart (-s) + n := by
    cases u with
    | notANumber => exact absurd rfl hu
    | infinity s =>
        exact ⟨s, _, by decide, toNat_packedInfinity s, toNat_packedInfinity (-s)⟩
    | zero s => exact ⟨s, 0, by decide, toNat_pack_zero s, toNat_pack_zero (-s)⟩
    | finite s m e hm =>
        obtain ⟨n, hn, hpack⟩ := toNat_pack_le e hm
        exact ⟨s, n, hn.trans_lt (by decide), hpack s, hpack (-s)⟩
  obtain ⟨hxs, hxm⟩ := sign_magnitude_of_toNat hn (hx.trans hpack')
  obtain ⟨hys, hym⟩ := sign_magnitude_of_toNat hn (hy.trans hpack)
  refine ext_of_toNat_bits ?_
  rw [toNat_bits_eq, toNat_bits_eq (-y), sign_neg, magnitude_neg, hxs, hxm, hys, hym]

/-- Rounding does not look at the sign. -/
theorem roundWithAccuracy_neg (s : Sign) (m : ℕ) (e : ℤ) (a : Accuracy) :
    roundWithAccuracy Format.binary64 (-s) m e a =
      UnpackedFloat.neg (roundWithAccuracy Format.binary64 s m e a) := by
  unfold roundWithAccuracy
  dsimp only
  split_ifs <;> rfl

theorem normalize_neg {n : ℤ} (hn : n ≠ 0) (e : ℤ) (s : Sign) :
    UnpackedFloat.normalize Format.binary64 (-n) e s =
      UnpackedFloat.neg (UnpackedFloat.normalize Format.binary64 n e s) := by
  rcases lt_or_gt_of_ne hn with hlt | hgt
  · rw [UnpackedFloat.normalize, UnpackedFloat.normalize, Int.compare_eq_gt.mpr (by omega),
      Int.compare_eq_lt.mpr hlt]
    exact roundWithAccuracy_neg .negative _ _ .exact
  · rw [UnpackedFloat.normalize, UnpackedFloat.normalize, Int.compare_eq_lt.mpr (by omega),
      Int.compare_eq_gt.mpr hgt, neg_neg]
    exact roundWithAccuracy_neg .positive _ _ .exact

theorem roundWithAccuracy_ne_notANumber (s : Sign) (m : ℕ) (e : ℤ) (a : Accuracy) :
    roundWithAccuracy Format.binary64 s m e a ≠ .notANumber := by
  rcases roundWithAccuracy_cases s m e a with hzero | ⟨m', e', h, hfinite⟩
  · rw [hzero]
    simp
  · rw [hfinite]
    simp

theorem normalize_ne_notANumber (n e : ℤ) (s : Sign) :
    UnpackedFloat.normalize Format.binary64 n e s ≠ .notANumber := by
  unfold UnpackedFloat.normalize
  split
  · exact roundWithAccuracy_ne_notANumber _ _ _ _
  · simp
  · exact roundWithAccuracy_ne_notANumber _ _ _ _

theorem unpacked_cases {x : Binary64} (hx : x.isFinite = true) :
    (∃ s, x.unpacked = .zero s) ∨ ∃ s m e h, x.unpacked = .finite s m e h := by
  rcases unpack_of_isFinite hx with ⟨-, hu⟩ | ⟨m, e, hm, hu, -⟩
  · exact Or.inl ⟨_, hu⟩
  · exact Or.inr ⟨_, m, e, hm, hu⟩

theorem apply_neg (s : Sign) (n : ℤ) : (-s).apply n = -s.apply n := by
  cases s
  · exact (neg_neg n).symm
  · rfl

/-! ## Sums and differences -/

variable {x y : Binary64}

/-- **The negative of a number is added by taking the number away.** -/
protected theorem add_neg (hx : x.isFinite = true) (hy : y.isFinite = true) : x + -y = x - y := by
  refine ext_of_toNat_bits ?_
  rw [toNat_bits_add hx ((isFinite_neg y).trans hy), toNat_bits_sub hx hy, unpacked_neg hy]
  rcases unpacked_cases hx with ⟨s₁, hxu⟩ | ⟨s₁, m₁, e₁, hm₁, hxu⟩ <;>
    rcases unpacked_cases hy with ⟨s₂, hyu⟩ | ⟨s₂, m₂, e₂, hm₂, hyu⟩ <;> rw [hxu, hyu]
  · cases s₁ <;> cases s₂ <;> rfl
  · rfl
  · rfl
  · simp only [UnpackedFloat.neg, UnpackedFloat.add, UnpackedFloat.sub, apply_neg, sub_eq_add_neg]

protected theorem neg_sub_neg (hx : x.isFinite = true) (hy : y.isFinite = true) :
    -x - -y = y - x := by
  refine ext_of_toNat_bits ?_
  rw [toNat_bits_sub ((isFinite_neg x).trans hx) ((isFinite_neg y).trans hy),
    toNat_bits_sub hy hx, unpacked_neg hx, unpacked_neg hy]
  rcases unpacked_cases hx with ⟨s₁, hxu⟩ | ⟨s₁, m₁, e₁, hm₁, hxu⟩ <;>
    rcases unpacked_cases hy with ⟨s₂, hyu⟩ | ⟨s₂, m₂, e₂, hm₂, hyu⟩ <;> rw [hxu, hyu]
  · cases s₁ <;> cases s₂ <;> rfl
  · cases s₂ <;> rfl
  · rfl
  · simp only [UnpackedFloat.neg, UnpackedFloat.sub, apply_neg, min_comm e₁ e₂, neg_sub_neg]

/-- **A difference is the negative of the opposite one**, unless the numbers are equal. -/
theorem Measures.sub_eq_neg {p q : ℚ} (hx : x.Measures p) (hy : y.Measures q) (hne : p ≠ q) :
    x - y = -(y - x) := by
  suffices hsub : UnpackedFloat.sub Format.binary64 x.unpacked y.unpacked =
      UnpackedFloat.neg (UnpackedFloat.sub Format.binary64 y.unpacked x.unpacked) ∧
        UnpackedFloat.sub Format.binary64 y.unpacked x.unpacked ≠ .notANumber by
    refine eq_neg_of_pack hsub.2 ?_ (toNat_bits_sub hy.finite hx.finite)
    rw [toNat_bits_sub hx.finite hy.finite, hsub.1]
  rcases hx.unpacked_cases with ⟨hxu, rfl⟩ | ⟨m₁, e₁, hm₁, hxu, -, rfl⟩
  · rcases hy.unpacked_cases with ⟨-, rfl⟩ | ⟨m₂, e₂, hm₂, hyu, -, rfl⟩
    · exact absurd rfl hne
    · rw [hxu, hyu]
      exact ⟨rfl, by simp [UnpackedFloat.sub]⟩
  · rcases hy.unpacked_cases with ⟨hyu, rfl⟩ | ⟨m₂, e₂, hm₂, hyu, -, rfl⟩
    · rw [hxu, hyu]
      exact ⟨rfl, by simp [UnpackedFloat.sub]⟩
    · rw [hxu, hyu]
      refine ⟨?_, normalize_ne_notANumber _ _ _⟩
      -- equal mantissas at the common exponent would be equal numbers
      have hmantissas : ((m₂ <<< (e₂ - min e₁ e₂).toNat : ℕ) : ℤ) -
          ((m₁ <<< (e₁ - min e₁ e₂).toNat : ℕ) : ℤ) ≠ 0 := by
        intro heq
        apply hne
        rw [← shiftLeft_mul_zpow (min_le_left e₁ e₂), ← shiftLeft_mul_zpow (min_le_right e₁ e₂)]
        congr 1
        exact_mod_cast (sub_eq_zero.mp heq).symm
      have hnormalize := normalize_neg hmantissas (min e₁ e₂) .positive
      rw [neg_sub] at hnormalize
      simp only [UnpackedFloat.sub, min_comm e₂ e₁]
      exact hnormalize

/-! ## Products and quotients -/

theorem mul_sign_neg_neg (s t : Sign) : -s * -t = s * t := by
  cases s <;> cases t <;> rfl

protected theorem neg_mul_neg (hx : x.isFinite = true) (hy : y.isFinite = true) :
    -x * -y = x * y := by
  refine ext_of_toNat_bits ?_
  rw [toNat_bits_mul ((isFinite_neg x).trans hx) ((isFinite_neg y).trans hy),
    toNat_bits_mul hx hy, unpacked_neg hx, unpacked_neg hy]
  rcases unpacked_cases hx with ⟨s₁, hxu⟩ | ⟨s₁, m₁, e₁, hm₁, hxu⟩ <;>
    rcases unpacked_cases hy with ⟨s₂, hyu⟩ | ⟨s₂, m₂, e₂, hm₂, hyu⟩ <;>
      simp only [hxu, hyu, UnpackedFloat.neg, UnpackedFloat.mul, mul_sign_neg_neg]

/-- **The quotient of the negative is the negative of the quotient.** -/
protected theorem neg_div {q : ℚ} (hx : x.isFinite = true) (hy : y.Measures q) (hq : 0 < q) :
    -x / y = -(x / y) := by
  suffices hdiv : UnpackedFloat.div Format.binary64 (UnpackedFloat.neg x.unpacked) y.unpacked =
      UnpackedFloat.neg (UnpackedFloat.div Format.binary64 x.unpacked y.unpacked) ∧
        UnpackedFloat.div Format.binary64 x.unpacked y.unpacked ≠ .notANumber by
    refine eq_neg_of_pack hdiv.2 ?_ (toNat_bits_div hx hy.finite)
    rw [toNat_bits_div ((isFinite_neg x).trans hx) hy.finite, unpacked_neg hx, hdiv.1]
  rcases hy.unpacked_cases with ⟨-, rfl⟩ | ⟨m₂, e₂, hm₂, hyu, -⟩
  · exact absurd hq (lt_irrefl 0)
  · rcases unpacked_cases hx with ⟨s, hxu⟩ | ⟨s, m₁, e₁, hm₁, hxu⟩
    · rw [hxu, hyu]
      cases s <;> exact ⟨rfl, by simp [UnpackedFloat.div]⟩
    · rw [hxu, hyu]
      refine ⟨?_, ?_⟩
      · cases s
        · exact roundWithAccuracy_neg .negative _ _ _
        · exact roundWithAccuracy_neg .positive _ _ _
      · exact roundWithAccuracy_ne_notANumber _ _ _ _

end Binary64

end Queueing
