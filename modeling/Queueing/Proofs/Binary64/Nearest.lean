import Queueing.Proofs.Binary64.Exact

/-!
# Rounding to the nearest number

While a mantissa is shifted to the exponent of its target, the two residual bits keep what is
known of the bits that are lost: whether the exact number lies below, at or above the middle
between the mantissa and the next one (`Keeps`). This is enough to round to the nearest: the
magnitude that is packed at last is nearest to the exact number among all magnitudes, those
beyond the finite numbers included, and capped at infinity (`roundWithAccuracy_nearest`,
`round_nearest`).
-/

namespace Queueing

namespace Binary64

open Float.Model Float.Model.UnpackedFloat

/-! ## Nearest magnitudes -/

/-- No magnitude stands for a number that is closer. -/
def Nearest (q : ℚ) (n : ℕ) : Prop :=
  ∀ k, |magnitudeValue n - q| ≤ |magnitudeValue k - q|

namespace Nearest

variable {q : ℚ} {n k : ℕ}

theorem le_of_le (h : Nearest q n) (hk : q ≤ magnitudeValue k) : n ≤ k := by
  by_contra hlt
  have hvalue := magnitudeValue_strictMono (not_le.mp hlt)
  have hnear := h k
  rw [abs_of_nonneg (by linarith), abs_of_nonneg (by linarith)] at hnear
  linarith

theorem ge_of_ge (h : Nearest q n) (hk : magnitudeValue k ≤ q) : k ≤ n := by
  by_contra hlt
  have hvalue := magnitudeValue_strictMono (not_le.mp hlt)
  have hnear := h k
  rw [abs_of_nonpos (by linarith), abs_of_nonpos (by linarith)] at hnear
  linarith

/-- What lies below the middle of two neighbours is rounded to the lower one at most. -/
theorem le_of_lt_middle (h : Nearest q n)
    (hk : 2 * q < magnitudeValue k + magnitudeValue (k + 1)) : n ≤ k := by
  by_contra hlt
  have hvalue := magnitudeValue_strictMono.monotone (Nat.succ_le_of_lt (not_le.mp hlt))
  rw [Nat.succ_eq_add_one] at hvalue
  rcases le_total q (magnitudeValue k) with hle | hge
  · exact hlt (h.le_of_le hle)
  · have hnear := h k
    rw [abs_of_nonneg (by linarith), abs_of_nonpos (by linarith)] at hnear
    linarith

theorem gt_of_middle_lt (h : Nearest q n)
    (hk : magnitudeValue k + magnitudeValue (k + 1) < 2 * q) : k < n := by
  by_contra hle
  have hvalue := magnitudeValue_strictMono.monotone (not_lt.mp hle)
  rcases le_total (magnitudeValue (k + 1)) q with hle' | hge
  · exact hle (h.ge_of_ge hle')
  · have hnear := h (k + 1)
    rw [abs_of_nonpos (by linarith), abs_of_nonneg (by linarith)] at hnear
    linarith

theorem of_neighbours (hlow : magnitudeValue k ≤ q) (hhigh : q ≤ magnitudeValue (k + 1))
    (hn : |magnitudeValue n - q| ≤ q - magnitudeValue k)
    (hn' : |magnitudeValue n - q| ≤ magnitudeValue (k + 1) - q) : Nearest q n := by
  intro j
  rcases Nat.lt_or_ge k j with hlt | hle
  · have hvalue := magnitudeValue_strictMono.monotone (Nat.succ_le_of_lt hlt)
    rw [Nat.succ_eq_add_one] at hvalue
    refine hn'.trans ?_
    rw [abs_of_nonneg (by linarith)]
    linarith
  · have hvalue := magnitudeValue_strictMono.monotone hle
    refine hn.trans ?_
    rw [abs_of_nonpos (by linarith)]
    linarith

end Nearest

/-- Nearest, and of two magnitudes that are equally close the even one. -/
structure NearestEven (q : ℚ) (n : ℕ) : Prop where
  nearest : Nearest q n
  even : ∀ k, 2 * q = magnitudeValue k + magnitudeValue (k + 1) → n % 2 = 0

theorem Nearest.succ_of_lt {q : ℚ} {n k : ℕ} (hn : Nearest q n) (hk : Nearest q k) (hlt : n < k) :
    k = n + 1 ∧ 2 * q = magnitudeValue n + magnitudeValue (n + 1) := by
  have hle : k ≤ n + 1 := by
    apply hk.le_of_lt_middle
    by_contra hfar
    have hstep := hn.gt_of_middle_lt (k := n)
    have hmono := magnitudeValue_strictMono (Nat.lt_succ_self (n + 1))
    have hmono' := magnitudeValue_strictMono (Nat.lt_succ_self n)
    exact lt_irrefl n (hstep (by simp only [Nat.succ_eq_add_one] at hmono hmono'; linarith))
  obtain rfl : k = n + 1 := by omega
  refine ⟨rfl, ?_⟩
  rcases lt_trichotomy (2 * q) (magnitudeValue n + magnitudeValue (n + 1)) with hside | hside | hside
  · exact absurd (hk.le_of_lt_middle hside) (by omega)
  · exact hside
  · exact absurd (hn.gt_of_middle_lt hside) (by omega)

namespace NearestEven

variable {q : ℚ} {n k : ℕ}

/-- **A number is rounded to one magnitude only.** -/
theorem unique (hn : NearestEven q n) (hk : NearestEven q k) : n = k := by
  rcases lt_trichotomy n k with hlt | heq | hlt
  · obtain ⟨rfl, htie⟩ := hn.nearest.succ_of_lt hk.nearest hlt
    have := hn.even n htie
    have := hk.even n htie
    omega
  · exact heq
  · obtain ⟨rfl, htie⟩ := hk.nearest.succ_of_lt hn.nearest hlt
    have := hn.even k htie
    have := hk.even k htie
    omega

theorem mono {p : ℚ} (hn : NearestEven q n) (hk : NearestEven p k) (hle : q ≤ p) : n ≤ k := by
  by_contra hlt
  have hvalue := magnitudeValue_strictMono (not_le.mp hlt)
  -- the two numbers would lie on the wrong sides of the middle of the magnitudes
  have hbelow : p ≤ (magnitudeValue k + magnitudeValue n) / 2 := by
    by_contra hfar
    have hnear := hk.nearest n
    rw [abs_sub_le_iff] at hnear
    rcases le_total (magnitudeValue n) p with h | h
    · rw [abs_of_nonpos (by linarith)] at hnear
      linarith
    · rw [abs_of_nonneg (by linarith)] at hnear
      linarith
  have habove : (magnitudeValue k + magnitudeValue n) / 2 ≤ q := by
    by_contra hfar
    have hnear := hn.nearest k
    rw [abs_sub_le_iff] at hnear
    rcases le_total (magnitudeValue k) q with h | h
    · rw [abs_of_nonpos (by linarith)] at hnear
      linarith
    · rw [abs_of_nonneg (by linarith)] at hnear
      linarith
  obtain rfl : q = p := le_antisymm hle (hbelow.trans habove)
  exact hlt (hn.unique hk).le

theorem eq_of_middle (hlow : magnitudeValue n ≤ q) (hhigh : q ≤ magnitudeValue (n + 1))
    (htie : 2 * q = magnitudeValue k + magnitudeValue (k + 1)) : k = n := by
  rcases lt_trichotomy k n with hlt | heq | hlt
  · have h := magnitudeValue_strictMono hlt
    have h' := magnitudeValue_strictMono.monotone (Nat.succ_le_of_lt hlt)
    rw [Nat.succ_eq_add_one] at h'
    linarith
  · exact heq
  · have h := magnitudeValue_strictMono.monotone (Nat.succ_le_of_lt hlt)
    have h' := magnitudeValue_strictMono (Nat.lt_succ_self k)
    rw [Nat.succ_eq_add_one] at h h'
    linarith

theorem of_value (n : ℕ) : NearestEven (magnitudeValue n) n := by
  refine ⟨?_, ?_⟩
  · intro k
    rw [sub_self, abs_zero]
    exact abs_nonneg _
  · intro k htie
    have hnext := magnitudeValue_strictMono (Nat.lt_succ_self n)
    obtain rfl := eq_of_middle le_rfl hnext.le htie
    rw [Nat.succ_eq_add_one] at hnext
    linarith

/-- What lies within the middles to both neighbours is rounded to the magnitude, but the middles
belong to an even one only. -/
theorem of_middles (hlow : magnitudeValue n + magnitudeValue (n + 1) ≤ 2 * q)
    (hhigh : 2 * q ≤ magnitudeValue (n + 1) + magnitudeValue (n + 2))
    (heven : 2 * q = magnitudeValue n + magnitudeValue (n + 1) ∨
      2 * q = magnitudeValue (n + 1) + magnitudeValue (n + 2) → (n + 1) % 2 = 0) :
    NearestEven q (n + 1) := by
  have hmono := magnitudeValue_strictMono (Nat.lt_succ_self n)
  have hmono' := magnitudeValue_strictMono (Nat.lt_succ_self (n + 1))
  rw [Nat.succ_eq_add_one] at hmono hmono'
  rcases le_total q (magnitudeValue (n + 1)) with hle | hge
  · have habs : |magnitudeValue (n + 1) - q| = magnitudeValue (n + 1) - q :=
      abs_of_nonneg (by linarith)
    refine ⟨Nearest.of_neighbours (k := n) (by linarith) hle ?_ ?_, ?_⟩
    · rw [habs]
      linarith
    · rw [habs]
    · intro k htie
      obtain rfl := eq_of_middle (by linarith) hle htie
      exact heven (Or.inl htie)
  · have habs : |magnitudeValue (n + 1) - q| = q - magnitudeValue (n + 1) := by
      rw [abs_of_nonpos (by linarith)]
      ring
    refine ⟨Nearest.of_neighbours (k := n + 1) hge (by linarith) ?_ ?_, ?_⟩
    · rw [habs]
    · rw [habs]
      linarith
    · intro k htie
      obtain rfl := eq_of_middle hge (by linarith) htie
      exact heven (Or.inr htie)

end NearestEven

/-! ## What the residual bits keep -/

/-- The number of which a mantissa with its residual bits is left: the round bit counts for one
half, and the sticky bit tells whether there is something less than one half beside it. -/
inductive Keeps : ExtendedMantissa → ℚ → Prop where
  | intro (m : ℕ) (r s : Bool) (rest : ℚ) (h0 : 0 ≤ rest) (hlt : rest < 1 / 2)
      (hs : s = false ↔ rest = 0) : Keeps ⟨m, r, s⟩ (m + (if r then 1 / 2 else 0) + rest)

namespace Keeps

variable {em : ExtendedMantissa} {v : ℚ}

theorem bounds (h : Keeps em v) : em.mantissa ≤ v ∧ v ≤ em.mantissa + 1 := by
  cases h with
  | intro m r s rest h0 hlt hs =>
      cases r
      · simp only [Bool.false_eq_true, if_false]
        constructor <;> linarith
      · simp only [if_true]
        constructor <;> linarith

theorem exact (m : ℕ) : Keeps ⟨m, false, false⟩ m := by
  have h := Keeps.intro m false false 0 le_rfl (by norm_num) (by simp)
  simpa using h

theorem shiftRightOne (h : Keeps em v) : Keeps em.shiftRightOne (v / 2) := by
  cases h with
  | intro m r s rest h0 hlt hs =>
      have hm : (m : ℚ) = 2 * (m / 2 : ℕ) + (m % 2 : ℕ) := by
        exact_mod_cast (Nat.div_add_mod m 2).symm
      -- what the round bit stood for is now part of the rest
      have hkeeps := Keeps.intro (m / 2) (m % 2 != 0) (r || s)
        (((if r then 1 / 2 else 0) + rest) / 2) (by split_ifs <;> linarith)
        (by split_ifs <;> linarith) (by
          cases r
          · simp [hs]
          · simp only [Bool.true_or, if_true]
            constructor
            · intro hfalse
              cases hfalse
            · intro hzero
              linarith)
      have hvalue : ((m / 2 : ℕ) : ℚ) + (if (m % 2 != 0) = true then 1 / 2 else 0) +
          ((if r then 1 / 2 else 0) + rest) / 2 = (m + (if r then 1 / 2 else 0) + rest) / 2 := by
        rw [hm]
        rcases Nat.mod_two_eq_zero_or_one m with hmod | hmod
        · simp [hmod]
          ring
        · simp [hmod]
          ring
      rw [hvalue] at hkeeps
      exact hkeeps

theorem shiftRight (h : Keeps em v) (k : ℕ) : Keeps (em >>> k) (v / 2 ^ k) := by
  induction k with
  | zero =>
      rw [pow_zero, div_one]
      exact h
  | succ k ih =>
      have hstep : em >>> (k + 1) = (em >>> k).shiftRightOne := rfl
      rw [hstep, pow_succ, ← div_div]
      exact ih.shiftRightOne

/-- **The rounded mantissa is nearest to the number**: it is one of its two neighbours, and no
farther away than the other one. -/
theorem rounded (h : Keeps em v) :
    (em.roundedMantissa = em.mantissa ∨ em.roundedMantissa = em.mantissa + 1) ∧
      |(em.roundedMantissa : ℚ) - v| ≤ v - em.mantissa ∧
        |(em.roundedMantissa : ℚ) - v| ≤ em.mantissa + 1 - v := by
  -- of the two neighbours it is the one on the side of the middle on which the number lies
  suffices hside : em.roundedMantissa = em.mantissa ∧ v - em.mantissa ≤ 1 / 2 ∨
      em.roundedMantissa = em.mantissa + 1 ∧ 1 / 2 ≤ v - em.mantissa by
    obtain ⟨hlow, hhigh⟩ := h.bounds
    rcases hside with ⟨hr, hv⟩ | ⟨hr, hv⟩
    · refine ⟨Or.inl hr, ?_⟩
      rw [hr, abs_of_nonpos (by linarith)]
      constructor <;> linarith
    · refine ⟨Or.inr hr, ?_⟩
      rw [hr, Nat.cast_add, Nat.cast_one, abs_of_nonneg (by linarith)]
      constructor <;> linarith
  cases h with
  | intro m r s rest h0 hlt hs =>
      cases r with
      | false =>
          left
          simp only [Bool.false_eq_true, if_false]
          refine ⟨?_, by linarith⟩
          cases s <;> rfl
      | true =>
          simp only [if_true]
          cases s with
          | true => exact Or.inr ⟨rfl, by linarith⟩
          | false =>
              have hrest := hs.mp rfl
              rcases Nat.mod_two_eq_zero_or_one m with hmod | hmod
              · exact Or.inl ⟨congrArg (m + ·) hmod, by linarith⟩
              · exact Or.inr ⟨congrArg (m + ·) hmod, by linarith⟩

theorem even_of_middle (h : Keeps em v) (htie : v = em.mantissa + 1 / 2) :
    em.roundedMantissa % 2 = 0 := by
  cases h with
  | intro m r s rest h0 hlt hs =>
      dsimp only at htie
      cases r with
      | false =>
          simp only [Bool.false_eq_true, if_false] at htie
          linarith
      | true =>
          simp only [if_true] at htie
          obtain rfl := hs.mpr (by linarith)
          show (m + m % 2) % 2 = 0
          omega

end Keeps

/-! ## Rounding -/

/-- A rounded mantissa of at most 53 bits, or one bit too long by a carry, packs into its
place. -/
theorem pack_carried (s : Sign) {r : ℕ} {t : ℤ} (ht : -1074 ≤ t) (hr : r ≤ 2 ^ 53)
    (hnormal : 2 ^ 52 ≤ r ∨ t = -1074) :
    ∃ em e, shiftToTargetExponent Format.binary64 r t .exact = (em, e) ∧
      (UnpackedFloat.pack Format.binary64 (if h : em.mantissa = 0 then .zero s
        else .finite s em.mantissa e (Nat.pos_of_ne_zero h))).toNat =
          signPart s + min (place r t) 0x7FF0000000000000 := by
  rcases lt_or_eq_of_le hr with hlt | rfl
  · refine ⟨_, _, shift_of_lt hlt ht, ?_⟩
    by_cases h0 : r = 0
    · have hzero : place r t = 0 := by
        rw [place]
        omega
      rw [dif_pos h0, toNat_pack_zero, hzero]
      rfl
    · rw [dif_neg h0]
      exact toNat_pack_finite s (Nat.pos_of_ne_zero h0) ⟨hlt, ht, hnormal⟩
  · refine ⟨_, _, shift_carry ht, ?_⟩
    rw [dif_neg (by decide), ← place_carry ht]
    exact toNat_pack_finite s (by decide) ⟨by decide, by omega, Or.inl le_rfl⟩

/-- Between a canonical number and the next one, the places of the two mantissas tell which
magnitude is nearest. -/
theorem Canonical.nearestEven {w r : ℕ} {t : ℤ} {v : ℚ} (hc : Canonical w t)
    (hr : r = w ∨ r = w + 1) (hlow : |(r : ℚ) - v| ≤ v - w) (hhigh : |(r : ℚ) - v| ≤ w + 1 - v)
    (heven : v = w + 1 / 2 → r % 2 = 0) : NearestEven (v * 2 ^ t) (place r t) := by
  have hpos : (0 : ℚ) < 2 ^ t := zpow_pos two_pos t
  have hvalue : magnitudeValue (place r t) = r * 2 ^ t := by
    rcases hr with rfl | rfl
    · exact magnitudeValue_place hc
    · rw [place_succ]
      exact magnitudeValue_place_succ hc
  have habs : |magnitudeValue (place r t) - v * 2 ^ t| = |(r : ℚ) - v| * 2 ^ t := by
    rw [hvalue, ← sub_mul, abs_mul, abs_of_pos hpos]
  have hsides : (w : ℚ) ≤ v ∧ v ≤ w + 1 := by
    have h0 := abs_nonneg ((r : ℚ) - v)
    constructor <;> linarith
  have hbelow : magnitudeValue (place w t) ≤ v * 2 ^ t := by
    rw [magnitudeValue_place hc]
    exact mul_le_mul_of_nonneg_right hsides.1 hpos.le
  have habove : v * 2 ^ t ≤ magnitudeValue (place w t + 1) := by
    rw [magnitudeValue_place_succ hc]
    push_cast
    exact mul_le_mul_of_nonneg_right hsides.2 hpos.le
  refine ⟨Nearest.of_neighbours hbelow habove ?_ ?_, ?_⟩
  · rw [habs, magnitudeValue_place hc, ← sub_mul]
    exact mul_le_mul_of_nonneg_right hlow hpos.le
  · rw [habs, magnitudeValue_place_succ hc, ← sub_mul]
    push_cast
    exact mul_le_mul_of_nonneg_right hhigh hpos.le
  · -- the middle of two magnitudes is here the middle of the two mantissas
    intro k htie
    obtain rfl := NearestEven.eq_of_middle hbelow habove htie
    rw [magnitudeValue_place hc, magnitudeValue_place_succ hc, ← mul_assoc, ← add_mul] at htie
    have hmiddle := mul_right_cancel₀ hpos.ne' htie
    push_cast at hmiddle
    have := heven (by linarith)
    rw [place]
    omega

/-- **Rounding leads to the nearest magnitude**, and to the even one of two; it is capped at
infinity. -/
theorem roundWithAccuracy_nearest (s : Sign) {m : ℕ} {e : ℤ} {a : Accuracy} {v : ℚ}
    (hkeeps : Keeps (ExtendedMantissa.ofMantissaAndAccuracy m a) v) (he : e ≤ target m e) :
    ∃ n, NearestEven (v * 2 ^ e) n ∧
      (UnpackedFloat.pack Format.binary64 (roundWithAccuracy Format.binary64 s m e a)).toNat =
        signPart s + min n 0x7FF0000000000000 := by
  have ht : -1074 ≤ target m e := le_max_right _ _
  have hnormal : 2 ^ 52 ≤ wholePart m e ∨ target m e = -1074 := by
    by_cases hm : m = 0
    · right
      rw [target, hm, Nat.log2_zero] at he ⊢
      omega
    · exact wholePart_normal hm he
  have hmantissa : (ExtendedMantissa.ofMantissaAndAccuracy m a >>>
      (target m e - e).toNat).mantissa = wholePart m e := by
    have hm : (ExtendedMantissa.ofMantissaAndAccuracy m a).mantissa = m := by
      rcases a with _ | ord
      · rfl
      · cases ord <;> rfl
    rw [mantissa_shiftRight, hm, wholePart]
  have hvalue : v * 2 ^ e = v / 2 ^ (target m e - e).toNat * 2 ^ target m e := by
    have hsplit : target m e = e + ((target m e - e).toNat : ℤ) := by omega
    rw [show (2 : ℚ) ^ target m e = 2 ^ e * 2 ^ (target m e - e).toNat by
      rw [← zpow_natCast, ← zpow_add₀ two_ne_zero, ← hsplit]]
    field_simp
  have hshifted := hkeeps.shiftRight (target m e - e).toNat
  obtain ⟨hr, hlow, hhigh⟩ := hshifted.rounded
  have heven := hshifted.even_of_middle
  rw [hmantissa] at hr hlow hhigh heven
  unfold roundWithAccuracy
  rw [shift_accuracy a he]
  dsimp only
  generalize ExtendedMantissa.roundedMantissa _ = r at hr hlow hhigh heven ⊢
  have hw := wholePart_lt m e
  obtain ⟨em, e', hshift, hpack⟩ := pack_carried s (r := r) ht (by omega) (by omega)
  refine ⟨place r (target m e), ?_, ?_⟩
  · rw [hvalue]
    exact Canonical.nearestEven ⟨hw, ht, hnormal⟩ hr hlow hhigh heven
  · rw [hshift]
    exact hpack

/-- **Rounding a number leads to the nearest magnitude**, whatever its exponent. -/
theorem round_nearest (s : Sign) {m : ℕ} (hm : m ≠ 0) (e : ℤ) :
    ∃ n, NearestEven (m * 2 ^ e) n ∧
      (UnpackedFloat.pack Format.binary64 (UnpackedFloat.round Format.binary64 s m e)).toNat =
        signPart s + min n 0x7FF0000000000000 := by
  have hround : UnpackedFloat.round Format.binary64 s m e = roundWithAccuracy Format.binary64 s
      (m <<< (e - target m e).toNat) (e - ((e - target m e).toNat : ℤ)) .exact := by
    rw [UnpackedFloat.round, targetExponent_eq]
    rfl
  obtain ⟨k, hk⟩ : ∃ k, k = (e - target m e).toNat := ⟨_, rfl⟩
  have hle : e - (k : ℤ) ≤ target (m * 2 ^ k) (e - k) := by
    rw [target_mul_two_pow hm, Int.sub_add_cancel]
    omega
  have hvalue : (m : ℚ) * 2 ^ e = ((m * 2 ^ k : ℕ) : ℚ) * 2 ^ (e - k : ℤ) := by
    rw [Nat.cast_mul, Nat.cast_pow, Nat.cast_ofNat, mul_assoc, ← zpow_natCast,
      ← zpow_add₀ two_ne_zero, add_sub_cancel]
  rw [hround, ← hk, Nat.shiftLeft_eq, hvalue]
  exact roundWithAccuracy_nearest s (Keeps.exact _) hle

end Binary64

end Queueing
