import Queueing.Proofs.Binary64.Roots
import Queueing.Proofs.Binary64.Scaling
import Queueing.Proofs.Binary64.Signs

/-!
# Amounts

A sum of numbers that are not below zero is an amount: it is finite or infinity, and never below
one of its parts (`Amount.add_amount`). The operations at infinity are what they are expected to
be, and numbers that are much less than the greatest ones are added to any number without overflow
(`Measures.add_small`).
-/

namespace Queueing

namespace Binary64

open Float.Model Float.Model.UnpackedFloat

/-! ## Sums -/

/-- What a sum may be: not negative, and finite or infinity. -/
structure Amount (x : Binary64) : Prop where
  nonneg : 0 ≤ x
  finite_or_eq : x.isFinite = true ∨ x = infinity

theorem Amount.zero : (0 : Binary64).Amount := ⟨by decide, Or.inl rfl⟩

namespace Amount

variable {x y z : Binary64}

theorem cases (h : x.Amount) : (∃ q, x.Measures q) ∨ x = infinity :=
  h.finite_or_eq.imp_left fun hfin => exists_measures hfin h.nonneg

theorem of_rounds {q : ℚ} (h : Rounds q x) : x.Amount := ⟨h.nonneg, h.finite_or_eq⟩

theorem le_infinity (h : x.Amount) : x ≤ infinity := by
  rcases h.cases with ⟨q, hq⟩ | rfl
  · refine Binary64.le_iff.mpr ⟨hq.isNaN, rfl, ?_⟩
    have hlt := (isFinite_iff x).mp hq.finite
    rw [hq.position, show infinity.position = 0x7FF0000000000000 from rfl]
    omega
  · decide

/-- **The sum of two amounts is an amount** that is below neither. -/
theorem add_amount (hx : x.Amount) (hy : y.Amount) :
    (x + y).Amount ∧ x ≤ x + y ∧ y ≤ x + y := by
  rcases hx.cases with ⟨p, hp⟩ | rfl
  · rcases hy.cases with ⟨q, hq⟩ | rfl
    · have hsum := hp.add hq
      exact ⟨of_rounds hsum, hsum.ge_of_ge hp (le_add_of_nonneg_right hq.nonneg),
        hsum.ge_of_ge hq (le_add_of_nonneg_left hp.nonneg)⟩
    · rw [add_infinity hp.finite]
      exact ⟨hy, hx.le_infinity, hy.le_infinity⟩
  · rw [infinity_add hy.finite_or_eq]
    exact ⟨hx, hx.le_infinity, hy.le_infinity⟩

end Amount

/-- **A sum is positive exactly when one of its parts is.** -/
theorem Amount.add {x y : Binary64} (hx : x.Amount) (hy : y.isFinite = true) (hy0 : 0 ≤ y) :
    (x + y).Amount ∧ (0 < x + y ↔ 0 < x ∨ 0 < y) := by
  rcases hx.finite_or_eq with hfin | rfl
  · obtain ⟨p, hp⟩ := exists_measures hfin hx.nonneg
    obtain ⟨q, hq⟩ := exists_measures hy hy0
    have hsum := hp.add hq
    refine ⟨⟨hsum.nonneg, hsum.finite_or_eq⟩, ?_, ?_⟩
    · intro hpos
      by_contra hnot
      rw [not_or, Measures.zero.lt_iff hp, Measures.zero.lt_iff hq] at hnot
      have hzero : p + q ≤ 0 := by linarith [hnot.1, hnot.2]
      exact Binary64.not_lt_of_le (hsum.le_of_le .zero hzero).2 hpos
    · rintro (hpos | hpos)
      · have hle := hsum.ge_of_ge hp (le_add_of_nonneg_right hq.nonneg)
        exact Binary64.lt_of_lt_of_le hpos hle
      · have hle := hsum.ge_of_ge hq (le_add_of_nonneg_left hp.nonneg)
        exact Binary64.lt_of_lt_of_le hpos hle
  · rw [infinity_add (Or.inl hy)]
    exact ⟨hx, iff_of_true (by decide) (Or.inl (by decide))⟩

theorem Amount.foldl {xs : List Binary64} (h : ∀ x ∈ xs, x.isFinite = true ∧ 0 ≤ x) :
    ∀ {total : Binary64}, total.Amount → (xs.foldl (· + ·) total).Amount ∧
      (0 < xs.foldl (· + ·) total ↔ 0 < total ∨ ∃ x ∈ xs, 0 < x) := by
  induction xs with
  | nil =>
      intro total htotal
      refine ⟨htotal, ?_⟩
      simp
  | cons x xs ih =>
      intro total htotal
      obtain ⟨hfin, h0⟩ := h x List.mem_cons_self
      obtain ⟨hnext, hpos⟩ := htotal.add hfin h0
      obtain ⟨hall, hiff⟩ := ih (fun y hy => h y (List.mem_cons_of_mem x hy)) hnext
      refine ⟨hall, ?_⟩
      rw [List.foldl_cons, hiff, hpos, List.exists_mem_cons_iff, or_assoc]

/-! ## Infinity and the numbers next to it -/

variable {x y : Binary64} {p q : ℚ}

theorem Measures.isZero_iff (hx : x.Measures q) : x.isZero = true ↔ q = 0 := by
  rw [Binary64.isZero_iff, ← hx.value, ← magnitudeValue_zero,
    magnitudeValue_strictMono.injective.eq_iff]

theorem magnitudeValue_top : magnitudeValue 0x7FF0000000000000 = 2 ^ (1024 : ℤ) := by
  have hc : Canonical (2 ^ 52) 972 := ⟨by decide, by decide, Or.inl le_rfl⟩
  have hvalue := magnitudeValue_place hc
  rw [show place (2 ^ 52) 972 = 0x7FF0000000000000 from rfl] at hvalue
  rw [hvalue, Nat.cast_pow, Nat.cast_ofNat, ← zpow_natCast, ← zpow_add₀ two_ne_zero]
  rfl

theorem Measures.lt_top (hx : x.Measures q) : q < 2 ^ (1024 : ℤ) := by
  rw [← hx.value, ← magnitudeValue_top]
  exact magnitudeValue_strictMono ((isFinite_iff x).mp hx.finite)

theorem Measures.le_greatest (hx : x.Measures q) : q ≤ (2 ^ 53 - 1 : ℕ) * 2 ^ (971 : ℤ) := by
  have hlt := (isFinite_iff x).mp hx.finite
  have hmag : greatest.magnitude.toNat = 0x7FEFFFFFFFFFFFFF := rfl
  rw [← hx.value, ← greatest_measures.value]
  exact magnitudeValue_strictMono.monotone (by omega)

theorem not_isZero_of_pos (h : 0 < x) : ¬ x.isZero = true := by
  intro hzero
  have hpos := (Binary64.lt_iff.mp h).2.2
  rw [Binary64.isZero_iff] at hzero
  rw [position_of_sign (Or.inr hzero), hzero] at hpos
  exact absurd hpos (by decide)

theorem sub_infinity (hx : x.isFinite = true) : x - infinity = -infinity := by
  refine ext_of_toNat_bits ?_
  show (UnpackedFloat.pack Format.binary64 (UnpackedFloat.sub Format.binary64
    x.toFloat.toModel.unpack infinity.toFloat.toModel.unpack)).toNat = _
  rw [toModel_toFloat hx, toModel_toFloat_infinity]
  rcases unpacked_cases hx with ⟨s, hu⟩ | ⟨s, m, e, hm, hu⟩
  · rw [hu]
    rfl
  · rw [hu]
    rfl

theorem Measures.mul_infinity (hx : x.Measures q) (hq : 0 < q) : x * infinity = infinity := by
  refine ext_of_toNat_bits ?_
  show (UnpackedFloat.pack Format.binary64 (UnpackedFloat.mul Format.binary64
    x.toFloat.toModel.unpack infinity.toFloat.toModel.unpack)).toNat = _
  rw [toModel_toFloat hx.finite, toModel_toFloat_infinity]
  rcases hx.unpacked_cases with ⟨-, rfl⟩ | ⟨m, e, hm, hu, -⟩
  · exact absurd hq (lt_irrefl 0)
  · rw [hu]
    rfl

theorem sqrt_infinity : infinity.sqrt = infinity := by decide

/-- What is much less than the greatest numbers is added to any of them without overflow. -/
theorem Measures.add_small (hx : x.Measures p) (hy : y.Measures q) (hq : q ≤ 2 ^ (513 : ℤ)) :
    (x + y).isFinite = true ∧ x ≤ x + y := by
  have hsum := hx.add hy
  refine ⟨(hsum.le_of_lt_middle greatest_measures ?_).1,
    hsum.ge_of_ge hx (le_add_of_nonneg_right hy.nonneg)⟩
  have hp := hx.le_greatest
  have htop : ((2 ^ 53 - 1 : ℕ) : ℚ) * 2 ^ (971 : ℤ) + 2 ^ (971 : ℤ) = 2 ^ (1024 : ℤ) := by
    rw [← add_one_mul, show ((2 ^ 53 - 1 : ℕ) : ℚ) + 1 = 2 ^ 53 by norm_num, ← zpow_natCast,
      ← zpow_add₀ two_ne_zero]
    rfl
  have hfar : (2 : ℚ) * 2 ^ (513 : ℤ) < 2 ^ (971 : ℤ) := by
    rw [← zpow_one_add₀ two_ne_zero]
    exact zpow_lt_zpow_right₀ one_lt_two (by decide)
  rw [show greatest.magnitude.toNat + 1 = 0x7FF0000000000000 from rfl, magnitudeValue_top, ← htop]
  generalize ((2 ^ 53 - 1 : ℕ) : ℚ) * 2 ^ (971 : ℤ) = top at hp ⊢
  generalize (2 : ℚ) ^ (971 : ℤ) = step at hfar ⊢
  linarith

theorem Measures.sub_small (hx : x.Measures p) (hy : y.Measures q) :
    (x - y).isFinite = true ∧ x - y ≤ x := by
  rcases le_or_gt q p with hle | hlt
  · exact (hx.sub hy hle).le_of_le hx (sub_le_self p hy.nonneg)
  · have hdiff := hy.sub hx hlt.le
    obtain ⟨hfin, -⟩ := hdiff.le_of_le hy (sub_le_self q hx.nonneg)
    rw [hx.sub_eq_neg hy hlt.ne, isFinite_neg]
    refine ⟨hfin, Binary64.le_iff.mpr ⟨(isNaN_neg _).trans hdiff.isNaN, hx.isNaN, ?_⟩⟩
    rw [position_neg, hdiff.position, hx.position]
    omega

/-! ## Patterns in the range -/

theorem exists_measures_multiple {n : ℕ} {j : ℤ} (hn : n ≤ 2 ^ 53) (hlow : -1022 ≤ j)
    (hhigh : (n : ℚ) * 2 ^ j ≤ 2 ^ (1023 : ℤ)) : ∃ x : Binary64, x.Measures (n * 2 ^ j) := by
  by_cases h0 : n = 0
  · rw [h0, Nat.cast_zero, zero_mul]
    exact ⟨0, .zero⟩
  · have hlog : (n.log2 : ℤ) + j ≤ 1023 := by
      refine (zpow_le_zpow_iff_right₀ (one_lt_two (α := ℚ))).mp (le_trans ?_ hhigh)
      rw [zpow_add₀ two_ne_zero, zpow_natCast]
      refine mul_le_mul_of_nonneg_right ?_ (zpow_pos two_pos j).le
      exact_mod_cast Nat.log2_self_le h0
    rcases Nat.lt_or_eq_of_le hn with hlt | rfl
    · obtain ⟨m, f, -, hc, hf, hvalue⟩ := exists_canonical h0 hlt hlow
      rw [hvalue]
      exact hc.exists_measures (by omega)
    · rw [Nat.log2_two_pow] at hlog
      rw [Nat.cast_pow, Nat.cast_ofNat, ← zpow_natCast, ← zpow_add₀ two_ne_zero]
      exact exists_measures_two_pow (by omega) (by omega)

theorem exists_measures_count {n : ℕ} (h2 : 2 ≤ n) (hlt : n < 2 ^ 64) :
    ∃ r, (n : Binary64).Measures r ∧ 2 ≤ r := by
  obtain ⟨r, hr, -⟩ := natCast_lt_two_mul (by omega) hlt
  obtain ⟨two, htwo⟩ := exists_two_pow (k := 1) (by decide)
  rw [pow_one] at htwo
  refine ⟨r, hr, (htwo.le_iff hr).mp ((rounds_natCast (by omega)).ge_of_ge htwo ?_)⟩
  exact_mod_cast h2

end Binary64

end Queueing
