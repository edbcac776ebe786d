import Queueing.Proofs.Binary64.Operations

/-!
# Square roots of binary64 numbers

A square root is rounded to the nearest number like the other operations. The exact root is
seldom a rational number, but some rational number lies on the same side of every magnitude, and
the result is rounded from that one (`Measures.sqrt`). So bounds are kept: they are compared by
their squares (`Measures.sqrt_le`, `Measures.le_sqrt`).
-/

namespace Queueing

namespace Binary64

open Float.Model Float.Model.UnpackedFloat

/-! ## The whole part of a root -/

/-- The accuracy of the whole part of a root, from what its square leaves. -/
def rootAccuracy (n : ℕ) : Accuracy :=
  if n - n.sqrt * n.sqrt = 0 then .exact
  else .inexact (if n - n.sqrt * n.sqrt ≤ n.sqrt then .lt else .gt)

def rootExponent (m : ℕ) (e : ℤ) : ℤ :=
  min (e / 2) (max ((m.log2 + e + 2) / 2 - 53) (-1074))

theorem sqrtCore_eq (m : ℕ) (e : ℤ) {t : ℤ} (ht : t = rootExponent m e) :
    sqrtCore Format.binary64 m e = ((m <<< (e - 2 * t).toNat).sqrt, t,
      rootAccuracy (m <<< (e - 2 * t).toNat)) := by
  have htarget : Format.binary64.targetExponent ((totalExponent m e + 1).ediv 2) =
      max ((m.log2 + e + 2) / 2 - 53) (-1074) := by
    show max ((totalExponent m e + 1) / 2 - 53) (-1074) = _
    rw [totalExponent]
    congr 3
    omega
  rw [sqrtCore, htarget, ht]
  rfl

/-- Some rational number lies on the same side of every natural number as the root does. -/
theorem exists_keeps_root (n : ℕ) :
    ∃ v, Keeps (ExtendedMantissa.ofMantissaAndAccuracy n.sqrt (rootAccuracy n)) v ∧
      (n.sqrt : ℚ) ≤ v ∧ ∀ c : ℕ, ((c : ℚ) ≤ v ↔ c ^ 2 ≤ n) ∧ (v ≤ c ↔ n ≤ c ^ 2) := by
  have hlow : n.sqrt ^ 2 ≤ n := Nat.sqrt_le' n
  have hhigh : n < (n.sqrt + 1) ^ 2 := Nat.lt_succ_sqrt' n
  have hsquare : n.sqrt * n.sqrt = n.sqrt ^ 2 := (pow_two _).symm
  unfold rootAccuracy
  rw [hsquare]
  generalize n.sqrt = root at hlow hhigh ⊢
  by_cases hexact : n - root ^ 2 = 0
  · obtain rfl : n = root ^ 2 := by omega
    rw [if_pos hexact]
    refine ⟨root, Keeps.exact root, le_rfl, fun c => ?_⟩
    rw [Nat.cast_le, Nat.cast_le, Nat.pow_le_pow_iff_left two_ne_zero,
      Nat.pow_le_pow_iff_left two_ne_zero]
    exact ⟨Iff.rfl, Iff.rfl⟩
  · -- any number between the whole part and the next one lies as the root does
    suffices hbetween : ∃ v : ℚ, Keeps (ExtendedMantissa.ofMantissaAndAccuracy root
        (.inexact (if n - root ^ 2 ≤ root then .lt else .gt))) v ∧ root < v ∧ v < root + 1 by
      obtain ⟨v, hkeeps, hv, hv'⟩ := hbetween
      rw [if_neg hexact]
      refine ⟨v, hkeeps, hv.le, fun c => ?_⟩
      rcases Nat.lt_or_ge root c with hc | hc
      · have hcast : (root : ℚ) + 1 ≤ c := by exact_mod_cast hc
        have hsq : (root + 1) ^ 2 ≤ c ^ 2 := Nat.pow_le_pow_left hc 2
        exact ⟨iff_of_false (by linarith) (by omega), iff_of_true (by linarith) (by omega)⟩
      · have hcast : (c : ℚ) ≤ root := by exact_mod_cast hc
        have hsq : c ^ 2 ≤ root ^ 2 := Nat.pow_le_pow_left hc 2
        exact ⟨iff_of_true (by linarith) (by omega), iff_of_false (by linarith) (by omega)⟩
    split_ifs
    · have hkeeps := Keeps.intro root false true (1 / 4) (by norm_num) (by norm_num) (by norm_num)
      rw [if_neg Bool.false_ne_true, add_zero] at hkeeps
      exact ⟨_, hkeeps, by linarith, by linarith⟩
    · have hkeeps := Keeps.intro root true true (1 / 4) (by norm_num) (by norm_num) (by norm_num)
      rw [if_pos rfl] at hkeeps
      exact ⟨_, hkeeps, by linarith, by linarith⟩

theorem two_pow_le_root {m : ℕ} (hm : 0 < m) {e t : ℤ} (ht : t = rootExponent m e)
    (hhigh : -1074 < t) : 2 ^ 52 ≤ (m <<< (e - 2 * t).toNat).sqrt := by
  rw [rootExponent] at ht
  obtain ⟨k, hk⟩ : ∃ k, k = (e - 2 * t).toNat := ⟨_, rfl⟩
  have hbits : 104 ≤ m.log2 + k := by omega
  rw [← hk, Nat.le_sqrt', ← pow_mul, Nat.shiftLeft_eq]
  calc 2 ^ (52 * 2) ≤ 2 ^ (m.log2 + k) := Nat.pow_le_pow_right (by decide) hbits
    _ = 2 ^ m.log2 * 2 ^ k := Nat.pow_add _ _ _
    _ ≤ m * 2 ^ k := Nat.mul_le_mul_right _ (Nat.log2_self_le hm.ne')

/-- A magnitude lies on the same side of a number as of the root if natural numbers do so at one
exponent, below which there are no more magnitudes of this size. -/
theorem side_of_root {n root : ℕ} {v : ℚ} {t : ℤ} (hroot : root ^ 2 ≤ n) (hv : (root : ℚ) ≤ v)
    (hfull : -1074 < t → 2 ^ 52 ≤ root)
    (hside : ∀ c : ℕ, ((c : ℚ) ≤ v ↔ c ^ 2 ≤ n) ∧ (v ≤ c ↔ n ≤ c ^ 2)) (k : ℕ) :
    (magnitudeValue k ≤ v * 2 ^ t ↔ magnitudeValue k ^ 2 ≤ n * (2 ^ t) ^ 2) ∧
      (v * 2 ^ t ≤ magnitudeValue k ↔ n * (2 ^ t) ^ 2 ≤ magnitudeValue k ^ 2) := by
  obtain ⟨c, f, hc, rfl⟩ := exists_canonical_place k
  have hpos : (0 : ℚ) < 2 ^ t := zpow_pos two_pos t
  rw [magnitudeValue_place hc]
  rcases le_or_gt t f with hle | hlt
  · obtain ⟨hbelow, habove⟩ := hside (c <<< (f - t).toNat)
    rw [← shiftLeft_mul_zpow hle, mul_pow, mul_le_mul_iff_left₀ hpos, mul_le_mul_iff_left₀ hpos,
      mul_le_mul_iff_left₀ (pow_pos hpos 2), mul_le_mul_iff_left₀ (pow_pos hpos 2), hbelow, habove]
    constructor <;> norm_cast
  · -- a magnitude with bits below the exponent is too small
    have hlow := hc.low
    have hshort : (c : ℚ) * 2 ^ f < root * 2 ^ t := by
      calc (c : ℚ) * 2 ^ f < 2 ^ 53 * 2 ^ f :=
            mul_lt_mul_of_pos_right (by exact_mod_cast hc.lt) (zpow_pos two_pos f)
        _ = 2 ^ 52 * 2 ^ (f + 1) := by
            rw [zpow_add_one₀ two_ne_zero]
            ring
        _ ≤ root * 2 ^ t := by
            refine mul_le_mul ?_ ?_ (zpow_pos two_pos _).le (Nat.cast_nonneg _)
            · exact_mod_cast hfull (by omega)
            · exact zpow_le_zpow_right₀ one_le_two hlt
    have hvalue : (c : ℚ) * 2 ^ f < v * 2 ^ t :=
      hshort.trans_le (mul_le_mul_of_nonneg_right hv hpos.le)
    have hsquare : ((c : ℚ) * 2 ^ f) ^ 2 < n * (2 ^ t) ^ 2 := by
      calc ((c : ℚ) * 2 ^ f) ^ 2 < (root * 2 ^ t) ^ 2 :=
            pow_lt_pow_left₀ hshort (by positivity) two_ne_zero
        _ = (root : ℚ) ^ 2 * (2 ^ t) ^ 2 := mul_pow _ _ _
        _ ≤ n * (2 ^ t) ^ 2 :=
            mul_le_mul_of_nonneg_right (by exact_mod_cast hroot) (pow_pos hpos 2).le
    exact ⟨iff_of_true hvalue.le hsquare.le,
      iff_of_false (not_le.mpr hvalue) (not_le.mpr hsquare)⟩

/-! ## Rounding -/

/-- **A square root is rounded to the nearest number**: it is rounded from a number that lies on
the same side of every magnitude as the root does. -/
theorem Measures.sqrt {x : Binary64} {p : ℚ} (hx : x.Measures p) :
    ∃ q, Rounds q x.sqrt ∧ ∀ n, (magnitudeValue n ≤ q ↔ magnitudeValue n ^ 2 ≤ p) ∧
      (q ≤ magnitudeValue n ↔ p ≤ magnitudeValue n ^ 2) := by
  have hbits : x.sqrt.bits.toNat = (UnpackedFloat.pack Format.binary64
      (UnpackedFloat.sqrt Format.binary64 x.unpacked)).toNat := by
    rw [← toModel_toFloat hx.finite]
    rfl
  rcases hx.unpacked_cases with ⟨hxu, rfl⟩ | ⟨m, e, hm, hxu, hc, rfl⟩
  · rw [hxu] at hbits
    refine ⟨0, rounds_of_zero ⟨_, rfl⟩ hbits, fun n => ?_⟩
    have h0 : 0 ≤ magnitudeValue n := by
      rw [← magnitudeValue_zero]
      exact magnitudeValue_strictMono.monotone (Nat.zero_le n)
    refine ⟨?_, iff_of_true h0 (sq_nonneg _)⟩
    rw [sq_nonpos_iff]
    exact ⟨fun h => le_antisymm h h0, fun h => h.le⟩
  · obtain ⟨t, ht⟩ : ∃ t, t = rootExponent m e := ⟨_, rfl⟩
    obtain ⟨n, hn⟩ : ∃ n, n = m <<< (e - 2 * t).toNat := ⟨_, rfl⟩
    obtain ⟨v, hkeeps, hv, hside⟩ := exists_keeps_root n
    have hfull : -1074 < t → 2 ^ 52 ≤ n.sqrt := hn ▸ two_pow_le_root hm ht
    have htarget : t ≤ target n.sqrt t := by
      by_cases hlow : t ≤ -1074
      · exact hlow.trans (le_max_right _ _)
      · have hroot := hfull (by omega)
        have := (Nat.le_log2 (by omega)).mpr hroot
        rw [target]
        omega
    obtain ⟨k, hk, hpack⟩ := roundWithAccuracy_nearest .positive hkeeps htarget
    have hsqrt : UnpackedFloat.sqrt Format.binary64 x.unpacked =
        roundWithAccuracy Format.binary64 .positive n.sqrt t (rootAccuracy n) := by
      rw [hxu, UnpackedFloat.sqrt, sqrtCore_eq m e ht, ← hn]
    have hvalue : (m : ℚ) * 2 ^ e = n * (2 ^ t) ^ 2 := by
      have hle : 2 * t ≤ e := by
        rw [rootExponent] at ht
        omega
      rw [hn, ← shiftLeft_mul_zpow hle, ← zpow_natCast, ← zpow_mul, mul_comm t]
      rfl
    rw [hsqrt] at hbits
    refine ⟨v * 2 ^ t, rounds_of_toNat hk (hbits.trans hpack), ?_⟩
    rw [hvalue]
    exact side_of_root (Nat.sqrt_le' n) hv hfull hside

namespace Measures

variable {x y : Binary64} {p r : ℚ}

theorem sqrt_le (hx : x.Measures p) (hy : y.Measures r) (h : p ≤ r ^ 2) :
    x.sqrt.isFinite = true ∧ x.sqrt ≤ y := by
  obtain ⟨q, hq, hside⟩ := hx.sqrt
  have hle := (hside y.magnitude.toNat).2
  rw [hy.value] at hle
  exact hq.le_of_le hy (hle.mpr h)

theorem le_sqrt (hx : x.Measures p) (hy : y.Measures r) (h : r ^ 2 ≤ p) : y ≤ x.sqrt := by
  obtain ⟨q, hq, hside⟩ := hx.sqrt
  have hle := (hside y.magnitude.toNat).1
  rw [hy.value] at hle
  exact hq.ge_of_ge hy (hle.mpr h)

theorem sqrt_nonneg (hx : x.Measures p) : 0 ≤ x.sqrt := by
  obtain ⟨q, hq, -⟩ := hx.sqrt
  exact hq.nonneg

theorem sqrt_zero (hx : x.Measures 0) : x.sqrt.Measures 0 := by
  obtain ⟨hfin, hle⟩ := hx.sqrt_le .zero (sq_nonneg 0)
  obtain ⟨q, hq, hq0⟩ := exists_measures_le hfin hx.sqrt_nonneg .zero hle
  rwa [← le_antisymm hq0 hq.nonneg]

/-- **Only the root of zero is zero**: that of the least number is far from the least one. -/
theorem sqrt_pos (hx : x.Measures p) (hp : 0 < p) : 0 < x.sqrt := by
  have hleast : 2 ^ (-1074 : ℤ) ≤ p := by
    rw [← hx.value, ← magnitudeValue_zero, magnitudeValue_strictMono.lt_iff_lt] at hp
    rw [← hx.value, ← magnitudeValue_one]
    exact magnitudeValue_strictMono.monotone hp
  obtain ⟨y, hy⟩ := exists_measures_two_pow (k := -537) (by decide) (by decide)
  have hsquare : ((2 : ℚ) ^ (-537 : ℤ)) ^ 2 ≤ p := by
    rw [← zpow_natCast, ← zpow_mul]
    exact hleast
  exact Binary64.lt_of_lt_of_le ((Measures.zero.lt_iff hy).mpr (zpow_pos two_pos _))
    (hx.le_sqrt hy hsquare)

end Measures

end Binary64

end Queueing
