import Queueing.Proofs.Binary64.Addition

/-!
# Binary64 numbers at infinity

A sum or a quotient of numbers that are not negative is finite or infinity and nothing else:
the sign stays clear, and nothing is packed above infinity. Infinity absorbs what is added to
it, and is the greatest of any two numbers.
-/

namespace Queueing

namespace Binary64

open Float.Model Float.Model.UnpackedFloat

theorem eq_infinity {x : Binary64} (hs : x.sign = .positive)
    (hm : x.magnitude.toNat = 0x7FF0000000000000) : x = infinity := by
  refine ext_of_toNat_bits ?_
  rw [toNat_bits_eq, hs, hm]
  rfl

theorem isFinite_or_eq_infinity {x : Binary64} (hs : x.sign = .positive ∨ x.magnitude.toNat = 0)
    (hm : x.magnitude.toNat ≤ 0x7FF0000000000000) : x.isFinite = true ∨ x = infinity := by
  rcases Nat.lt_or_eq_of_le hm with hlt | heq
  · exact Or.inl ((isFinite_iff x).mpr hlt)
  · exact Or.inr (eq_infinity (hs.resolve_right (by omega)) heq)

/-! ## Sums -/

theorem add_eq_infinity {x y : Binary64} (hx : x.isFinite = true) (hy : y.isFinite = true)
    (hx0 : 0 ≤ x) (hy0 : 0 ≤ y) (h : (x + y).isFinite = false) : x + y = infinity := by
  obtain ⟨hs, -, hm, -⟩ := magnitude_add_of_nonneg hx hy (sign_of_nonneg hx0) (sign_of_nonneg hy0)
  refine (isFinite_or_eq_infinity hs hm).resolve_left ?_
  rw [h]
  decide

theorem toModel_toFloat_infinity : infinity.toFloat.toModel.unpack = .infinity .positive := rfl

theorem add_infinity {x : Binary64} (hx : x.isFinite = true) : x + infinity = infinity := by
  refine ext_of_toNat_bits ?_
  show (UnpackedFloat.pack Format.binary64 (UnpackedFloat.add Format.binary64
    x.toFloat.toModel.unpack infinity.toFloat.toModel.unpack)).toNat = _
  rw [toModel_toFloat hx, toModel_toFloat_infinity]
  rcases unpack_of_isFinite hx with ⟨-, hu⟩ | ⟨m, e, hm, hu, -⟩
  · rw [unpacked, hu]
    rfl
  · rw [unpacked, hu]
    rfl

theorem infinity_add {x : Binary64} (hx : x.isFinite = true ∨ x = infinity) :
    infinity + x = infinity := by
  refine ext_of_toNat_bits ?_
  show (UnpackedFloat.pack Format.binary64 (UnpackedFloat.add Format.binary64
    infinity.toFloat.toModel.unpack x.toFloat.toModel.unpack)).toNat = _
  rcases hx with hx | rfl
  · rw [toModel_toFloat hx, toModel_toFloat_infinity]
    rcases unpack_of_isFinite hx with ⟨-, hu⟩ | ⟨m, e, hm, hu, -⟩
    · rw [unpacked, hu]
      rfl
    · rw [unpacked, hu]
      rfl
  · rfl

/-! ## Maxima -/

theorem max_infinity (x : Binary64) : max x infinity = infinity := by
  have hlt : ¬ infinity < x := by
    intro h
    obtain ⟨-, hn, hpos⟩ := lt_iff.mp h
    have hmag : ¬ 0x7FF0000000000000 < x.magnitude.toNat := by
      rw [← isNaN_iff, hn]
      decide
    rw [show infinity.position = 0x7FF0000000000000 from rfl, position] at hpos
    split_ifs at hpos <;> omega
  show (if infinity.isNaN || decide (infinity < x) then x else infinity) = infinity
  rw [decide_eq_false hlt]
  rfl

theorem infinity_max (x : Binary64) : max infinity x = infinity := by
  show (if x.isNaN || decide (x < infinity) then infinity else x) = infinity
  by_cases hn : x.isNaN = true
  · rw [hn]
    rfl
  · by_cases hlt : x < infinity
    · rw [decide_eq_true hlt, Bool.or_true]
      rfl
    · have hn' : x.isNaN = false := by simpa using hn
      have hmag : ¬ 0x7FF0000000000000 < x.magnitude.toNat := fun h => hn ((isNaN_iff x).mpr h)
      have hpos : ¬ x.position < 0x7FF0000000000000 :=
        fun h => hlt (lt_iff.mpr ⟨hn', rfl, h⟩)
      rw [hn', decide_eq_false hlt]
      show x = infinity
      -- nothing but infinity itself lies as far up
      unfold position at hpos
      by_cases hneg : x.isNegative = true
      · rw [if_pos hneg] at hpos
        omega
      · rw [if_neg hneg] at hpos
        exact eq_infinity (by rw [sign, if_neg hneg]) (by omega)

/-! ## Quotients -/

/-- Nothing is packed above infinity, and packing keeps sign and magnitude apart. -/
theorem toNat_pack_le {m : ℕ} (e : ℤ) (hm : 0 < m) :
    ∃ n, n ≤ 0x7FF0000000000000 ∧
      ∀ s, (UnpackedFloat.pack Format.binary64 (.finite s m e hm)).toNat = signPart s + n := by
  simp only [UnpackedFloat.pack]
  generalize hbiased : (e + Format.binary64.exponentBias +
    Format.binary64.mantissaBitsWithoutImplicit).toNat = biased
  by_cases hinf : 2 ^ 11 ≤ biased + 1
  · refine ⟨_, le_rfl, fun s => ?_⟩
    rw [if_pos hinf, toNat_packedInfinity]
  · have hparts : ∀ exponent : BitVec 11, exponent.toNat < 2 ^ 11 - 1 → ∃ n,
        n ≤ 0x7FF0000000000000 ∧ ∀ s, (packComponents Format.binary64 s exponent
          (BitVec.ofNat 52 m)).toNat = signPart s + n := by
      intro exponent hexponent
      have hfraction := (BitVec.ofNat 52 m).isLt
      refine ⟨exponent.toNat * 2 ^ 52 + (BitVec.ofNat 52 m).toNat, by omega, ?_⟩
      intro s
      rw [toNat_packComponents, Nat.add_assoc]
    simp only [if_neg hinf]
    split_ifs
    · refine hparts (BitVec.ofNat 11 biased) ?_
      rw [BitVec.toNat_ofNat, Nat.mod_eq_of_lt (by omega)]
      omega
    · exact hparts 0 (by decide)

theorem toNat_bits_div {x y : Binary64} (hx : x.isFinite = true) (hy : y.isFinite = true) :
    (x / y).bits.toNat = (UnpackedFloat.pack Format.binary64
      (UnpackedFloat.div Format.binary64 x.unpacked y.unpacked)).toNat := by
  rw [← toModel_toFloat hx, ← toModel_toFloat hy]
  rfl

theorem roundWithAccuracy_cases (s : Sign) (m : ℕ) (e : ℤ) (a : Accuracy) :
    roundWithAccuracy Format.binary64 s m e a = .zero s ∨
      ∃ m' e' h, roundWithAccuracy Format.binary64 s m e a = .finite s m' e' h := by
  unfold roundWithAccuracy
  dsimp only
  split_ifs with hm
  · exact Or.inl rfl
  · exact Or.inr ⟨_, _, Nat.pos_of_ne_zero hm, rfl⟩

/-- **The quotient of a number that is not negative by a positive one** is not negative, and
finite or infinity. -/
theorem div_of_nonneg {x y : Binary64} (hx : x.isFinite = true) (hy : y.isFinite = true)
    (hx0 : x.sign = .positive ∨ x.magnitude.toNat = 0) (hy0 : 0 < y) :
    0 ≤ x / y ∧ ((x / y).isFinite = true ∨ x / y = infinity) := by
  suffices hbound : ((x / y).sign = .positive ∨ (x / y).magnitude.toNat = 0) ∧
      (x / y).magnitude.toNat ≤ 0x7FF0000000000000 by
    obtain ⟨hs, hm⟩ := hbound
    refine ⟨le_iff.mpr ⟨rfl, isNaN_eq_false_of_le hm, ?_⟩, isFinite_or_eq_infinity hs hm⟩
    rw [position_of_sign hs]
    exact Int.natCast_nonneg _
  have hbits := toNat_bits_div hx hy
  have hypos := (lt_iff.mp hy0).2.2
  have hys : y.sign = .positive := by
    refine (sign_of_nonneg (le_iff.mpr ⟨rfl, (lt_iff.mp hy0).2.1, hypos.le⟩)).resolve_right ?_
    intro hzero
    rw [position_of_sign (Or.inr hzero), hzero] at hypos
    exact absurd hypos (by decide)
  rcases unpack_of_isFinite hy with ⟨hy00, -⟩ | ⟨m₂, e₂, h₂, hyu, -⟩
  · rw [position_of_sign (Or.inl hys), hy00] at hypos
    exact absurd hypos (by decide)
  · rw [hys] at hyu
    rcases unpack_of_isFinite hx with ⟨-, hxu⟩ | ⟨m₁, e₁, h₁, hxu, -, hp₁⟩
    · have hzero : ∃ s, UnpackedFloat.div Format.binary64 x.unpacked y.unpacked = .zero s := by
        rw [unpacked, unpacked, hxu, hyu]
        exact ⟨_, rfl⟩
      obtain ⟨s, hzero⟩ := hzero
      rw [hzero, toNat_pack_zero] at hbits
      have hmag := (sign_magnitude_of_toNat (n := 0) (by decide) hbits).2
      exact ⟨Or.inr hmag, by omega⟩
    · have hxs : x.sign = .positive := hx0.resolve_right (hp₁ ▸ (place_pos e₁ h₁).ne')
      rw [hxs] at hxu
      have hround : ∃ m e a, UnpackedFloat.div Format.binary64 x.unpacked y.unpacked =
          roundWithAccuracy Format.binary64 .positive m e a := by
        rw [unpacked, unpacked, hxu, hyu]
        exact ⟨_, _, _, rfl⟩
      obtain ⟨m, e, a, hround⟩ := hround
      rw [hround] at hbits
      rcases roundWithAccuracy_cases .positive m e a with hzero | ⟨m', e', h', hfinite⟩
      · rw [hzero, toNat_pack_zero] at hbits
        obtain ⟨hsign, hmag⟩ :=
          sign_magnitude_of_toNat (s := .positive) (n := 0) (by decide) hbits
        exact ⟨Or.inl hsign, by omega⟩
      · obtain ⟨n, hn, hpack⟩ := toNat_pack_le e' h'
        rw [hfinite, hpack] at hbits
        obtain ⟨hsign, hmag⟩ := sign_magnitude_of_toNat (hn.trans_lt (by decide)) hbits
        exact ⟨Or.inl hsign, hmag ▸ hn⟩

/-! ## Negatives -/

theorem magnitude_neg (x : Binary64) : (-x).magnitude.toNat = x.magnitude.toNat := by
  rw [toNat_magnitude, toNat_magnitude]
  show (x.bits ^^^ signBit).toNat % 2 ^ 63 = _
  rw [UInt64.toNat_xor, Nat.xor_mod_two_pow]
  exact Nat.xor_zero _

theorem isNegative_neg (x : Binary64) : (-x).isNegative = !x.isNegative := by
  have hbit : ∀ y : Binary64, y.isNegative = y.bits.toNat.testBit 63 := by
    intro y
    have hlt := y.toNat_bits_lt
    rw [Bool.eq_iff_iff, isNegative_iff, Nat.testBit_eq_decide_div_mod_eq, decide_eq_true_eq]
    omega
  rw [hbit, hbit]
  show (x.bits ^^^ signBit).toNat.testBit 63 = _
  rw [UInt64.toNat_xor, Nat.testBit_xor]
  exact Bool.xor_true _

theorem position_neg (x : Binary64) : (-x).position = -x.position := by
  rw [position, position, magnitude_neg, isNegative_neg]
  cases x.isNegative <;> simp

theorem isNaN_neg (x : Binary64) : (-x).isNaN = x.isNaN := by
  rw [Bool.eq_iff_iff, isNaN_iff, isNaN_iff, magnitude_neg]

theorem neg_le_swap {x y : Binary64} (h : -y ≤ x) : -x ≤ y := by
  rw [le_iff, isNaN_neg, position_neg] at h ⊢
  exact ⟨h.2.1, h.1, by omega⟩

theorem neg_of_nonpos {x : Binary64} (hx : x.isFinite = true) (hx0 : x ≤ 0) :
    (-x).isFinite = true ∧ ((-x).sign = .positive ∨ (-x).magnitude.toNat = 0) := by
  refine ⟨?_, ?_⟩
  · rw [isFinite_iff, magnitude_neg, ← isFinite_iff]
    exact hx
  · have hpos := (le_iff.mp hx0).2.2
    rw [show (0 : Binary64).position = 0 from rfl, position] at hpos
    rw [magnitude_neg, sign, isNegative_neg]
    by_cases hneg : x.isNegative = true
    · rw [hneg]
      exact Or.inl rfl
    · rw [if_neg hneg] at hpos
      exact Or.inr (by omega)

end Binary64

end Queueing
