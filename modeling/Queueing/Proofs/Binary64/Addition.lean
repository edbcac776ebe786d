import Queueing.Proofs.Binary64.Packing

/-!
# Sums of non-negative binary64 numbers

The sum of two finite numbers that are not negative is not a NaN and not below either
summand, however it is rounded (`le_add_of_nonneg`); it may be infinite. Zero changes no
number whose sign is clear (`add_zero_of_sign`).
-/

namespace Queueing

namespace Binary64

open Float.Model Float.Model.UnpackedFloat

/-! ## Addition of patterns -/

def unpacked (x : Binary64) : UnpackedFloat :=
  UnpackedFloat.unpack Format.binary64 x.bits.toBitVec

theorem toNat_pack_zero (s : Sign) :
    (UnpackedFloat.pack Format.binary64 (.zero s)).toNat = signPart s := by
  cases s <;> rfl

theorem pack_unpacked {x : Binary64} (hx : x.isFinite = true) :
    UnpackedFloat.pack Format.binary64 x.unpacked = x.bits.toBitVec := by
  have hfin := (isFinite_iff x).mp hx
  refine BitVec.eq_of_toNat_eq ?_
  show _ = x.bits.toNat
  rw [toNat_bits_eq]
  rcases unpack_of_isFinite hx with ⟨h0, hz⟩ | ⟨m, e, hm, hu, hc, hp⟩
  · rw [unpacked, hz, toNat_pack_zero, h0, Nat.add_zero]
  · rw [unpacked, hu, toNat_pack_finite _ hm hc, hp, min_eq_left hfin.le]

theorem toModel_toFloat {x : Binary64} (hx : x.isFinite = true) :
    x.toFloat.toModel.unpack = x.unpacked := by
  show UnpackedFloat.unpack Format.binary64
    (UnpackedFloat.pack Format.binary64 x.unpacked) = x.unpacked
  rw [pack_unpacked hx]
  rfl

theorem toNat_bits_add {x y : Binary64} (hx : x.isFinite = true) (hy : y.isFinite = true) :
    (x + y).bits.toNat = (UnpackedFloat.pack Format.binary64
      (UnpackedFloat.add Format.binary64 x.unpacked y.unpacked)).toNat := by
  rw [← toModel_toFloat hx, ← toModel_toFloat hy]
  rfl

/-! ## Two positive numbers -/

/-- **The rounded sum of two positive numbers has the place of the first or a larger one.** -/
theorem place_le_add {m₁ m₂ : ℕ} {e₁ e₂ : ℤ} (h₁ : 0 < m₁) (h₂ : 0 < m₂)
    (hc₁ : Canonical m₁ e₁) (hc₂ : Canonical m₂ e₂) :
    ∃ m e h, UnpackedFloat.add Format.binary64 (.finite .positive m₁ e₁ h₁)
        (.finite .positive m₂ e₂ h₂) = .finite .positive m e h ∧
      Canonical m e ∧ place m₁ e₁ ≤ place m e := by
  obtain ⟨M, hM⟩ : ∃ M, M = m₁ <<< (e₁ - min e₁ e₂).toNat + m₂ <<< (e₂ - min e₁ e₂).toNat :=
    ⟨_, rfl⟩
  have hle₁ : m₁ * 2 ^ (e₁ - min e₁ e₂).toNat ≤ M := by
    rw [hM, Nat.shiftLeft_eq]
    exact Nat.le_add_right _ _
  have hle₂ : m₂ * 2 ^ (e₂ - min e₁ e₂).toNat ≤ M := by
    rw [hM, Nat.shiftLeft_eq, Nat.shiftLeft_eq]
    exact Nat.le_add_left _ _
  have hpos : 0 < M :=
    lt_of_lt_of_le (Nat.mul_pos h₁ (Nat.two_pow_pos _)) hle₁
  have hlow : -1074 ≤ min e₁ e₂ := le_min hc₁.low hc₂.low
  -- the lesser exponent is one of the two, so the sum has no bits to gain below it
  have ht : min e₁ e₂ ≤ target M (min e₁ e₂) := by
    have key : ∀ {m : ℕ} {e : ℤ}, Canonical m e → min e₁ e₂ = e → m ≤ M →
        min e₁ e₂ ≤ target M (min e₁ e₂) := by
      intro m e hc he hm
      rcases hc.normal with hn | hn
      · have := (Nat.le_log2 hpos.ne').mpr (le_trans hn hm)
        simp only [target]
        omega
      · rw [he, hn]
        exact le_max_right _ _
    rcases min_choice e₁ e₂ with h | h
    · exact key hc₁ h (le_trans (Nat.le_mul_of_pos_right _ (Nat.two_pow_pos _)) hle₁)
    · exact key hc₂ h (le_trans (Nat.le_mul_of_pos_right _ (Nat.two_pow_pos _)) hle₂)
  obtain ⟨m, e, h, hr, hc, hplace⟩ := roundWithAccuracy_eq .positive hpos.ne' hlow ht
  refine ⟨m, e, h, ?_, hc, ?_⟩
  · have hshift : (min e₁ e₂ - target M (min e₁ e₂)).toNat = 0 := by omega
    have hcmp : compare (M : ℤ) 0 = .gt := Int.compare_eq_gt.mpr (by omega)
    have hadd : UnpackedFloat.add Format.binary64 (.finite .positive m₁ e₁ h₁)
        (.finite .positive m₂ e₂ h₂) =
        UnpackedFloat.normalize Format.binary64 (M : ℤ) (min e₁ e₂) .positive := by
      rw [hM, Nat.cast_add]
      rfl
    rw [hadd, UnpackedFloat.normalize, hcmp]
    show UnpackedFloat.round Format.binary64 .positive M (min e₁ e₂) = _
    rw [UnpackedFloat.round, targetExponent_eq]
    change roundWithAccuracy _ _ (M <<< (min e₁ e₂ - target M (min e₁ e₂)).toNat)
      (min e₁ e₂ - ((min e₁ e₂ - target M (min e₁ e₂)).toNat : ℤ)) _ = _
    rw [hshift, Nat.shiftLeft_zero, Nat.cast_zero, Int.sub_zero, hr]
  · exact le_trans (place_le_wholePart hc₁ hpos.ne' (min_le_left e₁ e₂) hle₁) hplace.1

/-! ## Numbers that are not negative -/

theorem sign_of_nonneg {x : Binary64} (h : 0 ≤ x) :
    x.sign = .positive ∨ x.magnitude.toNat = 0 := by
  have hpos := (le_iff.mp h).2.2
  by_cases hn : x.isNegative = true
  · rw [show (0 : Binary64).position = 0 from rfl, position, if_pos hn] at hpos
    exact Or.inr (by omega)
  · exact Or.inl (by rw [sign, if_neg hn])

theorem position_of_sign {x : Binary64} (h : x.sign = .positive ∨ x.magnitude.toNat = 0) :
    x.position = x.magnitude.toNat := by
  unfold position
  by_cases hn : x.isNegative = true
  · have hm : x.magnitude.toNat = 0 := h.resolve_left (by rw [sign, if_pos hn]; simp)
    rw [if_pos hn, hm]
    rfl
  · rw [if_neg hn]

theorem sign_magnitude_of_toNat {x : Binary64} {s : Sign} {n : ℕ} (hn : n < 2 ^ 63)
    (h : x.bits.toNat = signPart s + n) : x.sign = s ∧ x.magnitude.toNat = n := by
  rw [toNat_magnitude, sign]
  cases s with
  | negative =>
      rw [signPart] at h
      rw [if_pos ((isNegative_iff x).mpr (by omega))]
      exact ⟨rfl, by omega⟩
  | positive =>
      rw [signPart] at h
      rw [if_neg (fun hneg => absurd ((isNegative_iff x).mp hneg) (by omega))]
      exact ⟨rfl, by omega⟩

/-- **The sum of numbers that are not negative.** Its magnitude is at least that of the
first and at most that of infinity, and a sign that is clear stays clear. -/
theorem magnitude_add_of_nonneg {x y : Binary64} (hx : x.isFinite = true)
    (hy : y.isFinite = true) (hx0 : x.sign = .positive ∨ x.magnitude.toNat = 0)
    (hy0 : y.sign = .positive ∨ y.magnitude.toNat = 0) :
    ((x + y).sign = .positive ∨ (x + y).magnitude.toNat = 0) ∧
      x.magnitude.toNat ≤ (x + y).magnitude.toNat ∧
      (x + y).magnitude.toNat ≤ 0x7FF0000000000000 ∧
      (x.sign = .positive → (x + y).sign = .positive) := by
  have hxfin := (isFinite_iff x).mp hx
  have hyfin := (isFinite_iff y).mp hy
  have hbits := toNat_bits_add hx hy
  -- only two numbers other than zero are really added: otherwise one of them is the sum
  rcases unpack_of_isFinite hx with ⟨hx00, hxz⟩ | ⟨m₁, e₁, h₁, hxu, hc₁, hp₁⟩
  · rcases unpack_of_isFinite hy with ⟨hy00, hyz⟩ | ⟨m₂, e₂, h₂, hyu, hc₂, hp₂⟩
    · have hsum : ∃ s, UnpackedFloat.add Format.binary64 x.unpacked y.unpacked = .zero s ∧
          (x.sign = .positive → s = .positive) := by
        rw [unpacked, unpacked, hxz, hyz]
        cases x.sign <;> cases y.sign <;> exact ⟨_, rfl, by simp⟩
      obtain ⟨s, hadd, hs⟩ := hsum
      rw [hadd, toNat_pack_zero] at hbits
      obtain ⟨hsign, hmag⟩ := sign_magnitude_of_toNat (s := s) (n := 0) (by decide) hbits
      rw [hsign, hmag, hx00]
      exact ⟨Or.inr rfl, le_rfl, Nat.zero_le _, hs⟩
    · have hadd : UnpackedFloat.add Format.binary64 x.unpacked y.unpacked = y.unpacked := by
        rw [unpacked, unpacked, hxz, hyu]
        rfl
      rw [hadd, pack_unpacked hy] at hbits
      have hxy : x + y = y := ext_of_toNat_bits hbits
      have hys : y.sign = .positive := hy0.resolve_right (hp₂ ▸ (place_pos e₂ h₂).ne')
      rw [hxy, hx00]
      exact ⟨hy0, Nat.zero_le _, hyfin.le, fun _ => hys⟩
  · have hxs : x.sign = .positive := hx0.resolve_right (hp₁ ▸ (place_pos e₁ h₁).ne')
    rcases unpack_of_isFinite hy with ⟨hy00, hyz⟩ | ⟨m₂, e₂, h₂, hyu, hc₂, hp₂⟩
    · have hadd : UnpackedFloat.add Format.binary64 x.unpacked y.unpacked = x.unpacked := by
        rw [unpacked, unpacked, hxu, hyz]
        rfl
      rw [hadd, pack_unpacked hx] at hbits
      rw [ext_of_toNat_bits hbits]
      exact ⟨hx0, le_rfl, hxfin.le, id⟩
    · have hys : y.sign = .positive := hy0.resolve_right (hp₂ ▸ (place_pos e₂ h₂).ne')
      obtain ⟨m, e, h, hadd, hc, hplace⟩ := place_le_add h₁ h₂ hc₁ hc₂
      rw [unpacked, unpacked, hxu, hyu, hxs, hys, hadd, toNat_pack_finite _ h hc] at hbits
      obtain ⟨hsign, hmag⟩ := sign_magnitude_of_toNat
        (lt_of_le_of_lt (min_le_right _ _) (by decide)) hbits
      rw [hsign, hmag, ← hp₁]
      exact ⟨Or.inl rfl, le_min hplace (hp₁ ▸ hxfin.le), min_le_right _ _, fun _ => rfl⟩

theorem isNaN_eq_false_of_le {x : Binary64} (h : x.magnitude.toNat ≤ 0x7FF0000000000000) :
    x.isNaN = false := by
  rw [← Bool.not_eq_true, isNaN_iff]
  omega

/-- **A sum is not below its first summand**, where neither is negative. -/
theorem le_add_of_nonneg {x y : Binary64} (hx : x.isFinite = true) (hy : y.isFinite = true)
    (hx0 : 0 ≤ x) (hy0 : 0 ≤ y) : x ≤ x + y := by
  obtain ⟨hsign, hle, hinf, -⟩ :=
    magnitude_add_of_nonneg hx hy (sign_of_nonneg hx0) (sign_of_nonneg hy0)
  refine le_iff.mpr ⟨isNaN_eq_false_of_isFinite hx, isNaN_eq_false_of_le hinf, ?_⟩
  rw [position_of_sign (sign_of_nonneg hx0), position_of_sign hsign]
  exact Int.ofNat_le.mpr hle

theorem sign_add_of_nonneg {x y : Binary64} (hx : x.isFinite = true) (hy : y.isFinite = true)
    (hx0 : x.sign = .positive) (hy0 : 0 ≤ y) : (x + y).sign = .positive :=
  (magnitude_add_of_nonneg hx hy (Or.inl hx0) (sign_of_nonneg hy0)).2.2.2 hx0

theorem add_zero_of_sign {x : Binary64} (hx : x.isFinite = true) (hx0 : x.sign = .positive) :
    x + 0 = x := by
  have hbits := toNat_bits_add hx (y := 0) rfl
  refine ext_of_toNat_bits ?_
  rw [hbits]
  have hzero : (0 : Binary64).unpacked = .zero .positive := rfl
  have hadd : UnpackedFloat.add Format.binary64 x.unpacked (0 : Binary64).unpacked =
      x.unpacked := by
    rw [hzero]
    rcases unpack_of_isFinite hx with ⟨-, hz⟩ | ⟨m, e, h, hu, -⟩
    · rw [unpacked, hz, hx0]
      rfl
    · rw [unpacked, hu]
      rfl
  rw [hadd, pack_unpacked hx]
  rfl

/-- Of the patterns of finite numbers, those at or above zero in the total order are the
ones with a clear sign. -/
theorem sign_of_compareTotal {x : Binary64} (h : (compareTotal 0 x).isLE = true) :
    x.sign = .positive := by
  rw [isLE_compareTotal_iff, toNat_rank, toNat_rank] at h
  have hlt := x.toNat_bits_lt
  have h0 : (0 : Binary64).bits.toNat = 0 := rfl
  rw [h0] at h
  rw [sign, if_neg]
  intro hn
  have := (isNegative_iff x).mp hn
  rw [if_neg (by decide), if_pos this] at h
  omega

theorem compareTotal_zero_of_sign {x : Binary64} (h : x.sign = .positive) :
    (compareTotal 0 x).isLE = true := by
  have hn : ¬ 2 ^ 63 ≤ x.bits.toNat := by
    intro hle
    rw [sign, if_pos ((isNegative_iff x).mpr hle)] at h
    exact absurd h (by simp)
  have h0 : (0 : Binary64).bits.toNat = 0 := rfl
  rw [isLE_compareTotal_iff, toNat_rank, toNat_rank, h0, if_neg (by decide), if_neg hn]
  omega

end Binary64

end Queueing
