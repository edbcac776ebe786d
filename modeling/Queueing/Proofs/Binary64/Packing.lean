import Queueing.Proofs.Binary64.Rounding

/-!
# Patterns and unpacked numbers

A finite pattern unpacks into its sign and either a zero or a canonical pair that has the
magnitude for its place (`unpack_of_isFinite`), and a canonical pair packs into its place,
capped at infinity (`toNat_pack_finite`). So a finite pattern survives being unpacked and
packed again.
-/

namespace Queueing

namespace Binary64

open Float.Model Float.Model.UnpackedFloat

def sign (x : Binary64) : Sign := if x.isNegative then .negative else .positive

def signPart : Sign → ℕ
  | .negative => 2 ^ 63
  | .positive => 0

theorem toNat_bits_eq (x : Binary64) :
    x.bits.toNat = signPart x.sign + x.magnitude.toNat := by
  have hlt := x.toNat_bits_lt
  rw [toNat_magnitude, sign]
  by_cases h : x.isNegative = true
  · have := (isNegative_iff x).mp h
    rw [if_pos h, signPart]
    omega
  · have : ¬ 2 ^ 63 ≤ x.bits.toNat := fun hn => h ((isNegative_iff x).mpr hn)
    rw [if_neg h, signPart]
    omega

theorem ext_of_toNat_bits {x y : Binary64} (h : x.bits.toNat = y.bits.toNat) : x = y := by
  cases x
  cases y
  exact congrArg Binary64.mk (UInt64.toNat_inj.mp h)

/-! ## Packing -/

theorem toNat_append {v w : ℕ} (a : BitVec v) (b : BitVec w) :
    (a ++ b).toNat = a.toNat * 2 ^ w + b.toNat := by
  rw [BitVec.toNat_append, ← Nat.shiftLeft_add_eq_or_of_lt b.isLt, Nat.shiftLeft_eq]

theorem toNat_packComponents (s : Sign) (e : BitVec 11) (m : BitVec 52) :
    (packComponents Format.binary64 s e m).toNat =
      signPart s + e.toNat * 2 ^ 52 + m.toNat := by
  have hs : s.toBitVec.toNat * 2 ^ 63 = signPart s := by
    cases s <;> rfl
  have h : (packComponents Format.binary64 s e m).toNat =
      (s.toBitVec.toNat * 2 ^ 11 + e.toNat) * 2 ^ 52 + m.toNat := by
    show (s.toBitVec ++ e ++ m).toNat = _
    rw [toNat_append, toNat_append]
  rw [h, ← hs, Nat.add_mul, Nat.mul_assoc, ← Nat.pow_add]

theorem toNat_packedInfinity (s : Sign) :
    (packedInfinity Format.binary64 s).toNat = signPart s + 0x7FF0000000000000 := by
  cases s <;> rfl

/-- **A canonical pair packs into its place**, capped at infinity. -/
theorem toNat_pack_finite (s : Sign) {m : ℕ} {e : ℤ} (hm : 0 < m) (hc : Canonical m e) :
    (UnpackedFloat.pack Format.binary64 (.finite s m e hm)).toNat =
      signPart s + min (place m e) 0x7FF0000000000000 := by
  have hlt := hc.lt
  have hlow := hc.low
  have hplace : place m e = (e + 1074).toNat * 2 ^ 52 + m := rfl
  have hbiased : (e + Format.binary64.exponentBias +
      Format.binary64.mantissaBitsWithoutImplicit).toNat = (e + 1074).toNat + 1 := by
    show (e + 1023 + 52).toNat = _
    omega
  simp only [UnpackedFloat.pack, hbiased]
  by_cases hinf : 2 ^ 11 ≤ (e + 1074).toNat + 1 + 1
  · -- the exponent does not fit
    have hn : 2 ^ 52 ≤ m := hc.normal.resolve_right (by omega)
    rw [if_pos hinf, toNat_packedInfinity]
    omega
  · have hcap : place m e ≤ 0x7FF0000000000000 := by omega
    rw [if_neg hinf, min_eq_left hcap, hplace]
    by_cases hn : 2 ^ 52 ≤ m
    · have hlog : m.log2 + 1 = Format.binary64.mantissaBits := by
        rw [(Nat.log2_eq_iff hm.ne').mpr ⟨hn, hlt⟩]
        rfl
      -- the leading bit of a full mantissa is left out, and counts for one exponent
      have hm' : m % 2 ^ 52 = m - 2 ^ 52 := by omega
      rw [if_pos hlog, toNat_packComponents, BitVec.toNat_ofNat, BitVec.toNat_ofNat,
        Nat.mod_eq_of_lt (by omega), hm']
      omega
    · have he := hc.normal.resolve_left hn
      have hlog : ¬ m.log2 + 1 = Format.binary64.mantissaBits := by
        have := (Nat.log2_lt hm.ne').mpr (not_le.mp hn)
        show ¬ m.log2 + 1 = 53
        omega
      have he' : (e + 1074).toNat = 0 := by omega
      rw [if_neg hlog, toNat_packComponents, BitVec.toNat_ofNat, BitVec.toNat_ofNat,
        Nat.mod_eq_of_lt (by omega), he']
      omega

/-! ## Unpacking -/

theorem toNat_unpackMantissa (b : BitVec 64) :
    (@unpackMantissa Format.binary64 b).toNat = b.toNat % 2 ^ 52 := by
  simp [unpackMantissa, BitVec.extractLsb_toNat]

theorem toNat_unpackExponent (b : BitVec 64) :
    (@unpackExponent Format.binary64 b).toNat = b.toNat / 2 ^ 52 % 2 ^ 11 := by
  simp [unpackExponent, BitVec.extractLsb_toNat, Nat.shiftRight_eq_div_pow]

theorem ofBitVec_unpackSign (x : Binary64) :
    Sign.ofBitVec (@unpackSign Format.binary64 x.bits.toBitVec) = x.sign := by
  have hlt := x.toNat_bits_lt
  have h : (@unpackSign Format.binary64 x.bits.toBitVec).toNat =
      x.bits.toNat / 2 ^ 63 % 2 := by
    simp [unpackSign, BitVec.extractLsb_toNat, Nat.shiftRight_eq_div_pow]
  have hiff : @unpackSign Format.binary64 x.bits.toBitVec = 0#1 ↔
      ¬ x.isNegative = true := by
    rw [← BitVec.toNat_inj, h, isNegative_iff]
    simp only [BitVec.toNat_ofNat]
    omega
  rw [Sign.ofBitVec, sign]
  by_cases hn : x.isNegative = true
  · rw [if_pos hn, if_neg (fun h0 => hiff.mp h0 hn)]
  · rw [if_neg hn, if_pos (hiff.mpr hn)]

/-- **A finite pattern unpacks into its sign and its magnitude.** -/
theorem unpack_of_isFinite {x : Binary64} (hx : x.isFinite = true) :
    x.magnitude.toNat = 0 ∧
        UnpackedFloat.unpack Format.binary64 x.bits.toBitVec = .zero x.sign ∨
      ∃ m e h, UnpackedFloat.unpack Format.binary64 x.bits.toBitVec = .finite x.sign m e h ∧
        Canonical m e ∧ place m e = x.magnitude.toNat := by
  rw [isFinite_iff, toNat_magnitude] at hx
  rw [toNat_magnitude]
  have hsum : x.bits.toNat % 2 ^ 63 =
      x.bits.toNat / 2 ^ 52 % 2 ^ 11 * 2 ^ 52 + x.bits.toNat % 2 ^ 52 := by omega
  have hm : (@unpackMantissa Format.binary64 x.bits.toBitVec).toNat =
      x.bits.toNat % 2 ^ 52 := toNat_unpackMantissa _
  have he : (@unpackExponent Format.binary64 x.bits.toBitVec).toNat =
      x.bits.toNat / 2 ^ 52 % 2 ^ 11 := toNat_unpackExponent _
  -- the greatest exponent is that of infinity and of what is no number
  have hinf : @unpackExponent Format.binary64 x.bits.toBitVec ≠ -1#11 := by
    intro h
    have he' : x.bits.toNat / 2 ^ 52 % 2 ^ 11 = 2047 := by rw [← he, h]; rfl
    omega
  simp only [UnpackedFloat.unpack, ofBitVec_unpackSign]
  rw [if_neg hinf]
  by_cases hsub : @unpackExponent Format.binary64 x.bits.toBitVec = 0#11
  · have he0 : x.bits.toNat / 2 ^ 52 % 2 ^ 11 = 0 := by rw [← he, hsub]; rfl
    rw [if_pos hsub, hsum, he0, Nat.zero_mul, Nat.zero_add, ← hm]
    by_cases hz : @unpackMantissa Format.binary64 x.bits.toBitVec = 0#52
    · rw [dif_pos hz, hz]
      exact Or.inl ⟨rfl, rfl⟩
    · have hmpos : (@unpackMantissa Format.binary64 x.bits.toBitVec).toNat ≠ 0 :=
        fun h0 => hz (BitVec.eq_of_toNat_eq h0)
      have hmlt := (@unpackMantissa Format.binary64 x.bits.toBitVec).isLt
      rw [dif_neg hz]
      refine Or.inr ⟨_, -1074, Nat.pos_of_ne_zero hmpos, ?_, ⟨?_, le_rfl, Or.inr rfl⟩, ?_⟩
      · rw [hsub]
        rfl
      · exact lt_of_lt_of_le hmlt (Nat.pow_le_pow_right (by decide) (by decide : 52 ≤ 53))
      · rw [place, Int.add_left_neg, Int.toNat_zero, Nat.zero_mul, Nat.zero_add]
  · have hepos : x.bits.toNat / 2 ^ 52 % 2 ^ 11 ≠ 0 :=
      fun h0 => hsub (BitVec.eq_of_toNat_eq (he.trans h0))
    have hfull : (1#1 ++ @unpackMantissa Format.binary64 x.bits.toBitVec).toNat =
        2 ^ 52 + x.bits.toNat % 2 ^ 52 := by
      rw [toNat_append, hm]
      rfl
    have hbias : (Format.binary64.exponentBias : ℤ) = 1023 := rfl
    rw [if_neg hsub]
    refine Or.inr ⟨_, _, by rw [hfull]; omega, rfl, ?_⟩
    rw [hfull, he, hbias, hsum]
    refine ⟨⟨by omega, by push_cast; omega, Or.inl (by omega)⟩, ?_⟩
    rw [place]
    push_cast
    omega

end Binary64

end Queueing
