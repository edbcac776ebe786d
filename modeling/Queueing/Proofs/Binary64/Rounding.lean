import Mathlib
import Queueing.Proofs.Binary64.Order

/-!
# Packing and rounding of binary64 numbers

A finite number other than zero is a mantissa and an exponent in canonical form. Its
magnitude, as a pattern, is `place` of the two, and the place grows with the number. A
mantissa of 53 ones rounds up to one that is a bit too long, and the place does not notice
(`place_carry`): so rounding and packing are described by places alone, and a number that
is rounded from a larger exact value lies at a larger place (`place_le_wholePart`).
-/

namespace Queueing

namespace Binary64

open Float.Model Float.Model.UnpackedFloat

/-- Mantissa and exponent of a finite number other than zero: 53 bits, or fewer at the
least exponent. -/
structure Canonical (m : ℕ) (e : ℤ) : Prop where
  lt : m < 2 ^ 53
  low : -1074 ≤ e
  normal : 2 ^ 52 ≤ m ∨ e = -1074

/-- The magnitude of a mantissa at an exponent, as a pattern that may overflow. -/
def place (m : ℕ) (e : ℤ) : ℕ := (e + 1074).toNat * 2 ^ 52 + m

theorem place_mono {m m' : ℕ} (e : ℤ) (h : m ≤ m') : place m e ≤ place m' e := by
  unfold place
  exact Nat.add_le_add_left h _

theorem place_succ (m : ℕ) (e : ℤ) : place (m + 1) e = place m e + 1 := by
  unfold place
  exact (Nat.add_assoc _ _ _).symm

theorem place_pos {m : ℕ} (e : ℤ) (hm : 0 < m) : 0 < place m e :=
  Nat.add_pos_right _ hm

theorem place_carry {e : ℤ} (he : -1074 ≤ e) : place (2 ^ 52) (e + 1) = place (2 ^ 53) e := by
  have h : (e + 1 + 1074).toNat = (e + 1074).toNat + 1 := by omega
  rw [place, place, h]
  omega

theorem place_le_place {m m' : ℕ} {e e' : ℤ} (hc : Canonical m e) (hlow : -1074 ≤ e')
    (h : e < e' ∧ 2 ^ 52 ≤ m' ∨ e = e' ∧ m ≤ m') : place m e ≤ place m' e' := by
  have hm := hc.lt
  unfold place
  rcases h with ⟨he, hm'⟩ | ⟨rfl, hm'⟩
  · have hn : (e + 1074).toNat + 1 ≤ (e' + 1074).toNat := by
      have := hc.low
      omega
    have := Nat.mul_le_mul_right (2 ^ 52) hn
    omega
  · omega

/-! ## Shifting and rounding a mantissa -/

theorem mantissa_shiftRight (em : ExtendedMantissa) (k : ℕ) :
    (em >>> k).mantissa = em.mantissa / 2 ^ k := by
  induction k with
  | zero => exact (Nat.div_one em.mantissa).symm
  | succ k ih =>
      have hstep : (em >>> (k + 1)).mantissa = (em >>> k).mantissa / 2 := rfl
      rw [hstep, ih, Nat.div_div_eq_div_mul, Nat.pow_succ]

theorem roundedMantissa_bounds (em : ExtendedMantissa) :
    em.mantissa ≤ em.roundedMantissa ∧ em.roundedMantissa ≤ em.mantissa + 1 := by
  obtain ⟨m, r, s⟩ := em
  cases r <;> cases s <;>
    simp [ExtendedMantissa.roundedMantissa, ExtendedMantissa.accuracy,
      Accuracy.roundToNearestEven]
  omega

theorem targetExponent_eq (m : ℕ) (e : ℤ) :
    Format.binary64.targetExponent (totalExponent m e) = max (m.log2 + e - 52) (-1074) := by
  simp only [Format.targetExponent, totalExponent, Format.mantissaBits, Format.minExponent]
  norm_num
  omega

/-- The exponent at which a mantissa is rounded. -/
def target (m : ℕ) (e : ℤ) : ℤ := max (m.log2 + e - 52) (-1074)

/-- The whole part of a mantissa at the exponent at which it is rounded. -/
def wholePart (m : ℕ) (e : ℤ) : ℕ := m / 2 ^ (target m e - e).toNat

theorem wholePart_lt (m : ℕ) (e : ℤ) : wholePart m e < 2 ^ 53 := by
  rw [wholePart, Nat.div_lt_iff_lt_mul (Nat.two_pow_pos _), ← Nat.pow_add]
  refine lt_of_lt_of_le Nat.lt_log2_self (Nat.pow_le_pow_right (by decide) ?_)
  simp only [target]
  omega

theorem wholePart_normal {m : ℕ} {e : ℤ} (hm : m ≠ 0) (he : e ≤ target m e) :
    2 ^ 52 ≤ wholePart m e ∨ target m e = -1074 := by
  by_cases ht : target m e = -1074
  · exact Or.inr ht
  · left
    have hk : m.log2 = 52 + (target m e - e).toNat := by
      simp only [target] at ht he ⊢
      omega
    rw [wholePart, Nat.le_div_iff_mul_le (Nat.two_pow_pos _), ← Nat.pow_add, ← hk]
    exact Nat.log2_self_le hm

theorem shift_of_lt {m : ℕ} {e : ℤ} (hm : m < 2 ^ 53) (he : -1074 ≤ e) :
    shiftToTargetExponent Format.binary64 m e .exact = (⟨m, false, false⟩, e) := by
  have hlog : m.log2 ≤ 52 := by
    by_cases h : m = 0
    · simp [h]
    · have := (Nat.log2_lt h).mpr hm
      omega
  have hs : (Format.binary64.targetExponent (totalExponent m e) - e).toNat = 0 := by
    rw [targetExponent_eq]
    omega
  simp [shiftToTargetExponent, shiftToExponent, hs, HShiftRight.hShiftRight, Nat.repeat,
    ExtendedMantissa.ofMantissaAndAccuracy]

theorem shift_carry {e : ℤ} (he : -1074 ≤ e) :
    shiftToTargetExponent Format.binary64 (2 ^ 53) e .exact =
      (⟨2 ^ 52, false, false⟩, e + 1) := by
  have ht : Format.binary64.targetExponent (totalExponent (2 ^ 53) e) = e + 1 := by
    rw [targetExponent_eq, Nat.log2_two_pow]
    omega
  have hs : (e + 1 - e).toNat = 1 := by omega
  rw [shiftToTargetExponent, ht, shiftToExponent, hs]
  rfl

theorem wholePart_pos {m : ℕ} {e : ℤ} (hm : m ≠ 0) (hlow : -1074 ≤ e) :
    0 < wholePart m e := by
  refine Nat.div_pos ?_ (Nat.two_pow_pos _)
  refine le_trans (Nat.pow_le_pow_right (by decide) ?_) (Nat.log2_self_le hm)
  simp only [target]
  omega

theorem shift_accuracy {m : ℕ} {e : ℤ} (a : Accuracy) (he : e ≤ target m e) :
    shiftToTargetExponent Format.binary64 m e a =
      (ExtendedMantissa.ofMantissaAndAccuracy m a >>> (target m e - e).toNat, target m e) := by
  have hexp : e + ((target m e - e).toNat : ℤ) = target m e := by omega
  rw [shiftToTargetExponent, shiftToExponent, targetExponent_eq]
  exact congrArg (Prod.mk _) hexp

theorem shift_eq {m : ℕ} {e : ℤ} (he : e ≤ target m e) :
    shiftToTargetExponent Format.binary64 m e .exact =
      ((⟨m, false, false⟩ : ExtendedMantissa) >>> (target m e - e).toNat, target m e) :=
  shift_accuracy .exact he

/-- **Rounding keeps the whole part or adds one to it**, up to the carry. -/
theorem roundWithAccuracy_eq (s : Sign) {m : ℕ} {e : ℤ} (hm : m ≠ 0) (hlow : -1074 ≤ e)
    (he : e ≤ target m e) :
    ∃ m' e' h, roundWithAccuracy Format.binary64 s m e .exact = .finite s m' e' h ∧
      Canonical m' e' ∧ place (wholePart m e) (target m e) ≤ place m' e' ∧
      place m' e' ≤ place (wholePart m e) (target m e) + 1 := by
  have ht : -1074 ≤ target m e := le_max_right _ _
  have hq := wholePart_lt m e
  have hpos := wholePart_pos hm hlow
  unfold roundWithAccuracy
  rw [shift_eq he]
  dsimp only
  obtain ⟨hr, hr'⟩ :=
    roundedMantissa_bounds ((⟨m, false, false⟩ : ExtendedMantissa) >>> (target m e - e).toNat)
  rw [mantissa_shiftRight] at hr hr'
  change wholePart m e ≤ _ at hr
  change _ ≤ wholePart m e + 1 at hr'
  generalize ExtendedMantissa.roundedMantissa _ = r at hr hr' ⊢
  have hr0 : r ≠ 0 := by omega
  have hle : r ≤ 2 ^ 53 := by omega
  -- the rounded mantissa has 53 bits, or is a power of two that is one bit too long
  have hplace := And.intro (place_mono (target m e) hr) (place_mono (target m e) hr')
  rw [place_succ] at hplace
  rcases lt_or_eq_of_le hle with hlt | rfl
  · have hc : Canonical r (target m e) :=
      ⟨hlt, ht, (wholePart_normal hm he).imp_left fun h => le_trans h hr⟩
    rw [shift_of_lt hlt ht]
    dsimp only
    rw [dif_neg hr0]
    exact ⟨r, target m e, Nat.pos_of_ne_zero hr0, rfl, hc, hplace⟩
  · have hc : Canonical (2 ^ 52) (target m e + 1) := ⟨by decide, by omega, Or.inl le_rfl⟩
    rw [shift_carry ht]
    dsimp only
    rw [dif_neg (by decide)]
    refine ⟨2 ^ 52, target m e + 1, by decide, rfl, hc, ?_⟩
    rw [place_carry ht]
    exact hplace

theorem place_le_wholePart {m₀ m : ℕ} {e₀ e : ℤ} (hc : Canonical m₀ e₀) (hm : m ≠ 0)
    (he : e ≤ e₀) (h : m₀ * 2 ^ (e₀ - e).toNat ≤ m) :
    place m₀ e₀ ≤ place (wholePart m e) (target m e) := by
  have hlow := hc.low
  have ht : e₀ ≤ target m e := by
    rcases hc.normal with hn | rfl
    · have h52 : 2 ^ (52 + (e₀ - e).toNat) ≤ m := by
        rw [Nat.pow_add]
        exact le_trans (Nat.mul_le_mul_right _ hn) h
      have := (Nat.le_log2 hm).mpr h52
      simp only [target]
      omega
    · exact le_max_right _ _
  refine place_le_place hc (le_max_right _ _) ?_
  rcases lt_or_eq_of_le ht with hlt | heq
  · refine Or.inl ⟨hlt, (wholePart_normal hm (by omega)).resolve_right (by omega)⟩
  · refine Or.inr ⟨heq, ?_⟩
    rw [wholePart, ← heq, Nat.le_div_iff_mul_le (Nat.two_pow_pos _)]
    exact h

end Binary64

end Queueing
