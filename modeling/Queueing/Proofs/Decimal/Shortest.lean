import Queueing.Decimal.Shortest
import Queueing.Proofs.Binary64.Scaling

/-!
# The shortest decimal reads back

The interval of a number holds nothing but decimals that are rounded to it
(`Interval.Contains.nearestEven`), the finest grid has a decimal in every interval
(`isSome_onGrid`), and so the decimal that is found is rounded to the number
(`shortest_readsBack`).
-/

namespace Queueing.Decimal

open Binary64

/-! ## The fields of a number -/

theorem significand_spec {x : Binary64} (hx : x.isFinite = true) :
    Canonical (significand x).1 (significand x).2 ∧
      place (significand x).1 (significand x).2 = x.magnitude.toNat ∧
        (significand x).2 ≤ 971 := by
  have hfin := (isFinite_iff x).mp hx
  have hexponent : (x.magnitude >>> 52).toNat = x.magnitude.toNat / 2 ^ 52 := by
    rw [UInt64.toNat_shiftRight, Nat.shiftRight_eq_div_pow]
    rfl
  have hfraction : (x.magnitude &&& 0xFFFFFFFFFFFFF).toNat = x.magnitude.toNat % 2 ^ 52 := by
    rw [UInt64.toNat_and]
    exact Nat.and_two_pow_sub_one_eq_mod x.magnitude.toNat 52
  simp only [significand, hexponent, hfraction, hiddenBit]
  by_cases h0 : x.magnitude.toNat / 2 ^ 52 = 0
  · rw [if_pos h0]
    refine ⟨⟨by omega, le_rfl, Or.inr rfl⟩, ?_, by norm_num⟩
    rw [place]
    omega
  · rw [if_neg h0]
    refine ⟨⟨by omega, by omega, Or.inl (by omega)⟩, ?_, by omega⟩
    rw [place]
    omega

/-! ## Intervals -/

/-- A point lies in an interval, in quarters of its last place. -/
def Interval.Contains (i : Interval) (r : ℚ) : Prop :=
  if i.closed then (i.low : ℚ) ≤ r ∧ r ≤ i.high else (i.low : ℚ) < r ∧ r < i.high

/-- The quarters of a place and the steps of a grid, both as whole numbers. -/
theorem scale_eq (q k : ℤ) :
    ((Nat.pow 2 (q - 2).toNat * Nat.pow 10 (-k).toNat : ℕ) : ℚ) * 10 ^ k =
      (Nat.pow 2 (2 - q).toNat * Nat.pow 10 k.toNat : ℕ) * 2 ^ (q - 2) := by
  have htwo : (2 : ℚ) ^ (q - 2) * 2 ^ (2 - q).toNat = 2 ^ (q - 2).toNat := by
    rw [← zpow_natCast, ← zpow_natCast, ← zpow_add₀ two_ne_zero]
    congr 1
    omega
  have hten : (10 : ℚ) ^ k * 10 ^ (-k).toNat = 10 ^ k.toNat := by
    rw [← zpow_natCast, ← zpow_natCast, ← zpow_add₀ (by norm_num)]
    congr 1
    omega
  simp only [Nat.pow_eq]
  push_cast
  rw [← htwo, ← hten]
  ring

theorem Interval.holds_iff (i : Interval) (q k : ℤ) (d : ℕ) :
    i.holds (Nat.pow 2 (q - 2).toNat * Nat.pow 10 (-k).toNat)
        (d * (Nat.pow 2 (2 - q).toNat * Nat.pow 10 k.toNat)) = true ↔
      i.Contains (d * 10 ^ k / 2 ^ (q - 2)) := by
  have hscale := scale_eq q k
  have hquarter : (0 : ℚ) < 2 ^ (q - 2) := zpow_pos two_pos _
  have ha : (0 : ℚ) < (Nat.pow 2 (q - 2).toNat * Nat.pow 10 (-k).toNat : ℕ) := by
    exact_mod_cast Nat.mul_pos (Nat.pow_pos (by decide)) (Nat.pow_pos (by decide))
  generalize Nat.pow 2 (q - 2).toNat * Nat.pow 10 (-k).toNat = a at hscale ha ⊢
  generalize Nat.pow 2 (2 - q).toNat * Nat.pow 10 k.toNat = b at hscale ⊢
  -- both sides are compared after the point is multiplied by the quarters
  have hpoint : (d : ℚ) * 10 ^ k / 2 ^ (q - 2) = (d * b : ℕ) / a := by
    rw [div_eq_div_iff hquarter.ne' ha.ne', mul_assoc, mul_comm _ (a : ℚ), hscale]
    push_cast
    ring
  rw [Contains, holds, hpoint, le_div_iff₀ ha, div_le_iff₀ ha, lt_div_iff₀ ha, div_lt_iff₀ ha]
  cases i.closed
  · simp only [Bool.false_eq_true, if_false, Bool.and_eq_true, decide_eq_true_eq]
    norm_cast
  · simp only [if_true, Bool.and_eq_true, decide_eq_true_eq]
    norm_cast

theorem exists_predecessor {m : ℕ} {q : ℤ} (hc : Canonical m q) (hm : 0 < m) :
    ∃ n, place m q = n + 1 ∧ ((Interval.ofSignificand m q).low : ℚ) * 2 ^ (q - 2) * 2 =
      magnitudeValue n + magnitudeValue (n + 1) := by
  have hquarter : (2 : ℚ) ^ q = 2 ^ (q - 2) * 4 := by
    rw [zpow_sub₀ two_ne_zero]
    norm_num
  have hvalue := magnitudeValue_place hc
  simp only [Interval.ofSignificand]
  by_cases hedge : m = hiddenBit ∧ -1074 < q
  · -- the places below a power of two are half as long
    obtain ⟨rfl, hq⟩ := hedge
    have hc' : Canonical (2 ^ 53 - 1) (q - 1) := ⟨by decide, by omega, Or.inl (by decide)⟩
    have hhalf : (2 : ℚ) ^ (q - 1) = 2 ^ (q - 2) * 2 := by
      rw [show q - 1 = q - 2 + 1 by ring, zpow_add_one₀ two_ne_zero]
    have hplace : place hiddenBit q = place (2 ^ 53 - 1) (q - 1) + 1 := by
      simp only [place, hiddenBit]
      omega
    refine ⟨_, hplace, ?_⟩
    rw [← hplace, hvalue, magnitudeValue_place hc', if_pos ⟨rfl, hq⟩, hquarter, hhalf]
    norm_num [hiddenBit]
    ring
  · have hc' : Canonical (m - 1) q := by
      refine ⟨by have := hc.lt; omega, hc.low, ?_⟩
      have := hc.normal
      have := hc.low
      simp only [hiddenBit] at hedge
      omega
    have hplace : place m q = place (m - 1) q + 1 := by
      simp only [place]
      omega
    refine ⟨_, hplace, ?_⟩
    rw [← hplace, hvalue, magnitudeValue_place hc', if_neg hedge, hquarter]
    rw [Nat.cast_sub (by omega), Nat.cast_sub (by omega)]
    push_cast
    ring

/-- **A number is the nearest one to every point of its interval**, and the even one of two. -/
theorem Interval.Contains.nearestEven {m : ℕ} {q : ℤ} {r : ℚ} (hc : Canonical m q) (hm : 0 < m)
    (h : (Interval.ofSignificand m q).Contains r) :
    NearestEven (r * 2 ^ (q - 2)) (place m q) := by
  have hpos : (0 : ℚ) < 2 ^ (q - 2) := zpow_pos two_pos _
  have hquarter : (2 : ℚ) ^ q = 2 ^ (q - 2) * 4 := by
    rw [zpow_sub₀ two_ne_zero]
    norm_num
  obtain ⟨n, hn, hlow⟩ := exists_predecessor hc hm
  have hhigh : ((Interval.ofSignificand m q).high : ℚ) * 2 ^ (q - 2) * 2 =
      magnitudeValue (n + 1) + magnitudeValue (n + 2) := by
    rw [show n + 2 = place m q + 1 by omega, ← hn, magnitudeValue_place_succ hc,
      magnitudeValue_place hc, hquarter]
    simp only [Interval.ofSignificand]
    push_cast
    ring
  have hparity : (n + 1) % 2 = m % 2 := by
    rw [← hn, place]
    omega
  rw [hn]
  rw [Interval.Contains] at h
  split_ifs at h with hclosed
  · refine NearestEven.of_middles ?_ ?_ fun _ => ?_
    · rw [← hlow]
      nlinarith [h.1]
    · rw [← hhigh]
      nlinarith [h.2]
    · rw [hparity]
      simpa [Interval.ofSignificand] using hclosed
  · -- the middles are not in an open interval
    have hlt : (Interval.ofSignificand m q).low * 2 ^ (q - 2) < r * 2 ^ (q - 2) :=
      mul_lt_mul_of_pos_right h.1 hpos
    have hgt : r * 2 ^ (q - 2) < (Interval.ofSignificand m q).high * 2 ^ (q - 2) :=
      mul_lt_mul_of_pos_right h.2 hpos
    refine NearestEven.of_middles ?_ ?_ ?_
    · linarith
    · linarith
    · rintro (htie | htie) <;> linarith

/-! ## Powers of two and ten -/

/-- `0.30103` is a little above the decimal logarithm of two. -/
theorem log_two_bounds : ∀ n < 1101, 10 ^ (n * 30103 / 100000) ≤ 2 ^ (n + 1) ∧
    2 ^ n ≤ 10 ^ (n * 30103 / 100000 + 1) ∧ 2 ^ n ≤ 2 * 10 ^ ((n * 30103 + 99999) / 100000) ∧
    10 ^ ((n * 30103 + 99999) / 100000) ≤ 10 * 2 ^ n := by
  decide +kernel

/-- The decimal exponent of a power of two is less than one power of two too large, and not too
small. -/
theorem ten_zpow_bounds {l : ℤ} (hlow : -1100 ≤ l) (hhigh : l ≤ 1100) :
    (10 : ℚ) ^ (l * 30103 / 100000) ≤ 2 ^ (l + 1) ∧
      (2 : ℚ) ^ l ≤ 10 ^ (l * 30103 / 100000 + 1) := by
  rcases le_total 0 l with h0 | h0
  · obtain ⟨n, rfl⟩ := Int.eq_ofNat_of_zero_le h0
    obtain ⟨hten, htwo, -, -⟩ := log_two_bounds n (by omega)
    have hexponent : (n : ℤ) * 30103 / 100000 = (n * 30103 / 100000 : ℕ) := by omega
    rw [hexponent]
    exact ⟨by exact_mod_cast hten, by exact_mod_cast htwo⟩
  · obtain ⟨n, hn⟩ := Int.eq_ofNat_of_zero_le (Int.neg_nonneg_of_nonpos h0)
    obtain rfl : l = -(n : ℤ) := by omega
    obtain ⟨-, -, htwo, hten⟩ := log_two_bounds n (by omega)
    have hexponent : -(n : ℤ) * 30103 / 100000 = -((n * 30103 + 99999) / 100000 : ℕ) := by omega
    rw [hexponent, zpow_add₀ two_ne_zero, zpow_add₀ (by norm_num), zpow_neg, zpow_neg,
      zpow_natCast, zpow_natCast, zpow_one, zpow_one]
    generalize (n * 30103 + 99999) / 100000 = c at htwo hten
    have htwo' : (2 : ℚ) ^ n ≤ 2 * 10 ^ c := by exact_mod_cast htwo
    have hten' : (10 : ℚ) ^ c ≤ 10 * 2 ^ n := by exact_mod_cast hten
    constructor
    · rw [inv_mul_eq_div, le_div_iff₀ (by positivity), inv_mul_eq_div, div_le_iff₀ (by positivity)]
      exact htwo'
    · rw [inv_mul_eq_div, le_div_iff₀ (by positivity), inv_mul_eq_div, div_le_iff₀ (by positivity)]
      exact hten'

/-! ## Grids -/

theorem onGrid_spec {tie : Tie} {i : Interval} {q k : ℤ} {s : Scientific}
    (h : onGrid tie i q k = some s) :
    s.exponent = k ∧ i.Contains (s.digits * 10 ^ s.exponent / 2 ^ (q - 2)) := by
  suffices hholds : s.exponent = k ∧ i.holds (Nat.pow 2 (q - 2).toNat * Nat.pow 10 (-k).toNat)
      (s.digits * (Nat.pow 2 (2 - q).toNat * Nat.pow 10 k.toNat)) = true by
    obtain ⟨rfl, hholds⟩ := hholds
    exact ⟨rfl, (i.holds_iff q _ _).mp hholds⟩
  simp only [onGrid] at h
  split at h
  case h_1 => cases h
  case h_2 hlow _ => cases h; exact ⟨rfl, hlow⟩
  case h_3 _ hhigh => cases h; exact ⟨rfl, hhigh⟩
  case h_4 hlow hhigh =>
    split at h
    case h_1 => cases h; exact ⟨rfl, hlow⟩
    case h_2 => cases h; exact ⟨rfl, hhigh⟩
    case h_3 => cases h; exact ⟨rfl, hhigh⟩
    case h_4 =>
      split_ifs at h
      · cases h; exact ⟨rfl, hlow⟩
      · cases h; exact ⟨rfl, hhigh⟩

/-- A grid with steps of a quarter of the last place at most has a point in every interval. -/
theorem isSome_onGrid (tie : Tie) {m : ℕ} {q k : ℤ} (hm : 0 < m) (h : (10 : ℚ) ^ k ≤ 2 ^ (q - 2)) :
    (onGrid tie (Interval.ofSignificand m q) q k).isSome = true := by
  have hscale := scale_eq q k
  have ha : 0 < Nat.pow 2 (q - 2).toNat * Nat.pow 10 (-k).toNat :=
    Nat.mul_pos (Nat.pow_pos (by decide)) (Nat.pow_pos (by decide))
  have hb : 0 < Nat.pow 2 (2 - q).toNat * Nat.pow 10 k.toNat :=
    Nat.mul_pos (Nat.pow_pos (by decide)) (Nat.pow_pos (by decide))
  simp only [onGrid]
  generalize Nat.pow 2 (q - 2).toNat * Nat.pow 10 (-k).toNat = a at hscale ha ⊢
  generalize Nat.pow 2 (2 - q).toNat * Nat.pow 10 k.toNat = b at hscale hb ⊢
  have hba : b ≤ a := by
    have hpos : (0 : ℚ) < 2 ^ (q - 2) := zpow_pos two_pos _
    have hle : (b : ℚ) * 2 ^ (q - 2) ≤ a * 2 ^ (q - 2) := by
      rw [← hscale]
      exact mul_le_mul_of_nonneg_left h (Nat.cast_nonneg a)
    exact_mod_cast le_of_mul_le_mul_right hle hpos
  -- the lower neighbour of the value is in the interval
  have hlow : (Interval.ofSignificand m q).holds a (4 * m * a / b * b) = true := by
    have hle : 4 * m * a / b * b ≤ 4 * m * a := Nat.div_mul_le_self _ _
    have hlt : 4 * m * a < 4 * m * a / b * b + b := by
      have := Nat.lt_div_mul_add hb (a := 4 * m * a)
      exact this
    have hlow : (Interval.ofSignificand m q).low * a + a ≤ 4 * m * a := by
      rw [← Nat.succ_mul]
      apply Nat.mul_le_mul_right
      simp only [Interval.ofSignificand]
      split_ifs <;> omega
    have hhigh : 4 * m * a + a ≤ (Interval.ofSignificand m q).high * a := by
      rw [← Nat.succ_mul]
      apply Nat.mul_le_mul_right
      simp only [Interval.ofSignificand]
      omega
    rw [Interval.holds]
    split_ifs
    · rw [Bool.and_eq_true, decide_eq_true_eq, decide_eq_true_eq]
      omega
    · rw [Bool.and_eq_true, decide_eq_true_eq, decide_eq_true_eq]
      omega
  have hvalue : (Interval.ofSignificand m q).value = 4 * m := rfl
  rw [hvalue, hlow]
  split
  case h_1 heq _ => cases heq
  case h_2 => rfl
  case h_3 => rfl
  case h_4 =>
    split
    case h_4 => split_ifs <;> rfl
    all_goals rfl

/-! ## The shortest decimal -/

/-- A decimal of at most eighteen digits that is rounded to the magnitude of a number. -/
structure ReadsBack (x : Binary64) (s : Scientific) : Prop where
  pos : 0 < s.digits
  lt : s.digits < 10 ^ 18
  low : -341 ≤ s.exponent
  high : s.exponent ≤ 308
  nearest : NearestEven (s.digits * 10 ^ s.exponent) x.magnitude.toNat

theorem readsBack_of_contains {x : Binary64} (hx : x.isFinite = true) {s : Scientific}
    (hm : 0 < (significand x).1) (hgrid : s.exponent ∈ grids (significand x).1 (significand x).2)
    (h : (Interval.ofSignificand (significand x).1 (significand x).2).Contains
      (s.digits * 10 ^ s.exponent / 2 ^ ((significand x).2 - 2))) : ReadsBack x s := by
  obtain ⟨hc, hplace, hq⟩ := significand_spec hx
  generalize (significand x).1 = m at hm hgrid h hc hplace
  generalize (significand x).2 = q at hgrid h hc hplace hq
  have hlog : m.log2 < 53 := (Nat.log2_lt hm.ne').mpr hc.lt
  have hqlow := hc.low
  obtain ⟨-, hten⟩ := ten_zpow_bounds (l := m.log2 + 1 + q) (by omega) (by omega)
  have hmagnitude : magnitude10 m q = (m.log2 + 1 + q) * 30103 / 100000 := rfl
  obtain ⟨i, hi, hexponent⟩ := List.mem_map.mp hgrid
  rw [List.mem_range] at hi
  rw [← hmagnitude] at hten
  have hquarter : (0 : ℚ) < 2 ^ (q - 2) := zpow_pos two_pos _
  -- the decimal lies in the interval, which begins above zero and ends below a power of ten
  have hnearest := h.nearestEven hc hm
  rw [div_mul_cancel₀ _ hquarter.ne', hplace] at hnearest
  have hsides : (0 : ℚ) < s.digits * 10 ^ s.exponent ∧
      (s.digits : ℚ) * 10 ^ s.exponent < 10 ^ (magnitude10 m q + 1) := by
    have hlow : (1 : ℚ) ≤ (Interval.ofSignificand m q).low := by
      simp only [Interval.ofSignificand, Nat.one_le_cast]
      split_ifs <;> omega
    have hhigh : ((Interval.ofSignificand m q).high : ℚ) * 2 ^ (q - 2) <
        2 ^ (m.log2 + 1 + q : ℤ) := by
      have hvalue : ((2 ^ (m.log2 + 1) * 4 : ℕ) : ℚ) * 2 ^ (q - 2) = 2 ^ (m.log2 + 1 + q : ℤ) := by
        rw [show (m.log2 + 1 + q : ℤ) = ((m.log2 + 1 : ℕ) : ℤ) + 2 + (q - 2) by push_cast; ring,
          zpow_add₀ two_ne_zero, zpow_add₀ two_ne_zero, zpow_natCast]
        push_cast
        ring
      rw [← hvalue]
      refine mul_lt_mul_of_pos_right (Nat.cast_lt.mpr ?_) hquarter
      have := Nat.lt_log2_self (n := m)
      simp only [Interval.ofSignificand]
      omega
    rw [Interval.Contains] at h
    split_ifs at h
    · rw [le_div_iff₀ hquarter, div_le_iff₀ hquarter] at h
      exact ⟨(mul_pos (by linarith) hquarter).trans_le h.1, (h.2.trans_lt hhigh).trans_le hten⟩
    · rw [lt_div_iff₀ hquarter, div_lt_iff₀ hquarter] at h
      exact ⟨(mul_pos (by linarith) hquarter).trans h.1, (h.2.trans hhigh).trans_le hten⟩
  have hstep : (0 : ℚ) < 10 ^ s.exponent := zpow_pos (by norm_num) _
  have hpos : 0 < s.digits := by
    have := pos_of_mul_pos_left hsides.1 hstep.le
    exact_mod_cast this
  have htop : s.exponent < magnitude10 m q + 1 := by
    have hone : (1 : ℚ) ≤ s.digits := by exact_mod_cast hpos
    refine (zpow_lt_zpow_iff_right₀ (a := (10 : ℚ)) (by norm_num)).mp ?_
    exact (le_mul_of_one_le_left hstep.le hone).trans_lt hsides.2
  refine ⟨hpos, ?_, by omega, by omega, hnearest⟩
  have hle : (10 : ℚ) ^ (magnitude10 m q + 1) ≤ 10 ^ 18 * 10 ^ s.exponent := by
    rw [← zpow_natCast, ← zpow_add₀ (by norm_num)]
    exact zpow_le_zpow_right₀ (by norm_num) (by push_cast; omega)
  have := lt_of_mul_lt_mul_right (hsides.2.trans_le hle) hstep.le
  exact_mod_cast this

theorem shortest_eq (tie : Tie) (x : Binary64) : shortest tie x =
    if (significand x).1 = 0 then ⟨0, 0⟩
    else ((grids (significand x).1 (significand x).2).findSome?
      (onGrid tie (Interval.ofSignificand (significand x).1 (significand x).2)
        (significand x).2)).getD ⟨0, 0⟩ :=
  rfl

theorem shortest_of_isZero (tie : Tie) {x : Binary64} (hx : x.isZero = true) :
    shortest tie x = ⟨0, 0⟩ := by
  have hzero := (isZero_iff x).mp hx
  have hfin : x.isFinite = true := (isFinite_iff x).mpr (by omega)
  obtain ⟨-, hplace, -⟩ := significand_spec hfin
  rw [hzero, place] at hplace
  rw [shortest_eq, if_pos (by omega)]

/-- **The shortest decimal of a number reads back**: it is rounded to the number. -/
theorem shortest_readsBack (tie : Tie) {x : Binary64} (hx : x.isFinite = true)
    (h0 : x.isZero = false) : ReadsBack x (shortest tie x) := by
  obtain ⟨hc, hplace, hq⟩ := significand_spec hx
  have hm : 0 < (significand x).1 := by
    refine Nat.pos_of_ne_zero fun hzero => ?_
    have hzero' : x.magnitude.toNat ≠ 0 := fun h => by
      rw [(isZero_iff x).mpr h] at h0
      cases h0
    have := hc.normal
    rw [place] at hplace
    omega
  have hlog : (significand x).1.log2 < 53 := (Nat.log2_lt hm.ne').mpr hc.lt
  have hqlow := hc.low
  -- the finest grid has a point in the interval
  have hfine : (10 : ℚ) ^ (magnitude10 (significand x).1 (significand x).2 - 17) ≤
      2 ^ ((significand x).2 - 2) := by
    obtain ⟨hten, -⟩ := ten_zpow_bounds (l := (significand x).1.log2 + 1 + (significand x).2)
      (by omega) (by omega)
    have htop : (2 : ℚ) ^ ((significand x).1.log2 + 1 + (significand x).2 + 1 : ℤ) ≤
        2 ^ (56 : ℤ) * 2 ^ ((significand x).2 - 2) := by
      rw [← zpow_add₀ two_ne_zero]
      exact zpow_le_zpow_right₀ one_le_two (by omega)
    have hpos : (0 : ℚ) < 2 ^ ((significand x).2 - 2) := zpow_pos two_pos _
    rw [magnitude10, zpow_sub₀ (by norm_num), div_le_iff₀ (by norm_num)]
    refine (hten.trans htop).trans ?_
    rw [mul_comm]
    exact mul_le_mul_of_nonneg_left (by norm_num) hpos.le
  have hsome : ((grids (significand x).1 (significand x).2).findSome? (onGrid tie
      (Interval.ofSignificand (significand x).1 (significand x).2) (significand x).2)).isSome
        = true := by
    rw [List.isSome_findSome?, List.any_eq_true]
    refine ⟨_, List.mem_map.mpr ⟨18, List.mem_range.mpr (by decide), ?_⟩,
      isSome_onGrid tie hm hfine⟩
    push_cast
    ring
  obtain ⟨s, hs⟩ := Option.isSome_iff_exists.mp hsome
  obtain ⟨k, hk, hfound⟩ := List.exists_of_findSome?_eq_some hs
  obtain ⟨rfl, hcontains⟩ := onGrid_spec hfound
  have hshortest : shortest tie x = s := by
    rw [shortest_eq, if_neg hm.ne', hs, Option.getD_some]
  rw [hshortest]
  exact readsBack_of_contains hx hm hk hcontains

end Queueing.Decimal
