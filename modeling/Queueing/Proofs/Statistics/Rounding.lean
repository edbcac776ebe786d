import Queueing.Proofs.Binary64.Signed
import Queueing.Proofs.Statistics.Summary

/-!
# One more sample in rounded arithmetic

A sample moves the mean of a summary towards itself, and no farther than to itself, however the
steps are rounded (`Summary.moments_add`). What it adds to the sum of squares is not below zero:
it is bounded by the square of the distance to the mean, and is at least half of it as long as
neither overflows nor falls below the range of the numbers (`Increment.le`, `Increment.ge`).
-/

namespace Queueing

namespace Binary64

/-! ## Halves -/

theorem magnitudeValue_succ_le_two_mul {n : ℕ} (hn : 0 < n) :
    magnitudeValue (n + 1) ≤ 2 * magnitudeValue n := by
  obtain ⟨m, e, hc, rfl⟩ := exists_canonical_place n
  have hm : 1 ≤ m := by
    rcases hc.normal with hfull | rfl
    · exact (Nat.one_le_two_pow).trans hfull
    · rw [place] at hn
      omega
  have hcast : (1 : ℚ) ≤ m := by exact_mod_cast hm
  have hpos : (0 : ℚ) < 2 ^ e := zpow_pos two_pos e
  rw [magnitudeValue_place hc, magnitudeValue_place_succ hc, ← mul_assoc]
  refine mul_le_mul_of_nonneg_right ?_ hpos.le
  push_cast
  linarith

/-- **What is at most half of a magnitude is rounded below it.** -/
theorem NearestEven.le_of_half {q : ℚ} {n k : ℕ} (hn : NearestEven q n)
    (h : 2 * q ≤ magnitudeValue (k + 1)) : n ≤ k := by
  rcases Nat.eq_zero_or_pos k with rfl | hk
  · -- the middle between zero and the least magnitude is rounded to zero
    rcases h.lt_or_eq with hlt | heq
    · refine hn.nearest.le_of_lt_middle ?_
      rwa [magnitudeValue_zero, zero_add]
    · have heven := hn.even 0 (by rw [magnitudeValue_zero, zero_add, heq])
      have hpos : 0 ≤ magnitudeValue (0 + 1) := by
        rw [← magnitudeValue_zero]
        exact magnitudeValue_strictMono.monotone (Nat.zero_le _)
      have hle := hn.nearest.le_of_le (k := 1) (by rw [zero_add] at h hpos; linarith)
      omega
  · have hdouble := magnitudeValue_succ_le_two_mul hk
    exact hn.nearest.le_of_le (by linarith)

theorem Measures.exists_half {x : Binary64} {p : ℚ} (hx : x.Measures p)
    (h : 2 ^ (-1021 : ℤ) ≤ p) : ∃ y : Binary64, y.Measures (p / 2) := by
  obtain ⟨m, e, hc, hplace⟩ := exists_canonical_place x.magnitude.toNat
  have hfin := (isFinite_iff x).mp hx.finite
  obtain rfl : p = m * 2 ^ e := by rw [← hx.value, ← hplace, magnitudeValue_place hc]
  have hlt := hc.lt
  have hlow : -1074 < e := by
    -- a mantissa at the least exponent would be short
    by_contra hle
    obtain rfl : e = -1074 := le_antisymm (not_lt.mp hle) hc.low
    have hsplit : (2 : ℚ) ^ (-1021 : ℤ) = 2 ^ 53 * 2 ^ (-1074 : ℤ) := by
      rw [← zpow_natCast, ← zpow_add₀ two_ne_zero]
      rfl
    have hshort : (m : ℚ) * 2 ^ (-1074 : ℤ) < 2 ^ 53 * 2 ^ (-1074 : ℤ) :=
      mul_lt_mul_of_pos_right (by exact_mod_cast hlt) (zpow_pos two_pos _)
    rw [hsplit] at h
    exact absurd h (not_le.mpr hshort)
  have hfull : 2 ^ 52 ≤ m := hc.normal.resolve_right (by omega)
  rw [place] at hplace
  obtain ⟨y, hy⟩ := Canonical.exists_measures (m := m) (e := e - 1)
    ⟨hlt, by omega, Or.inl hfull⟩ (by omega)
  rw [zpow_sub_one₀ two_ne_zero, ← mul_assoc, ← div_eq_mul_inv] at hy
  exact ⟨y, hy⟩

/-! ## The increments of a sum of squares -/

/-- What a sample at this distance from the mean adds to a sum of squares. -/
structure Increment (dist : ℚ) (p : Binary64) : Prop where
  /-- The rounded distance and what is left of it when the mean has moved, which is at least half
  of it. -/
  exists_factors : ∃ (d : Binary64) (s v : ℚ), Rounds dist d ∧ d.Measures s ∧ 0 ≤ v ∧ v ≤ s ∧
    (2 ^ (-1021 : ℤ) ≤ s → s ≤ 2 * v) ∧ Rounds (s * v) p

namespace Increment

variable {dist : ℚ} {p y : Binary64} {k : ℤ}

theorem amount (h : Increment dist p) : p.Amount := by
  obtain ⟨d, s, v, -, -, -, -, -, hp⟩ := h.exists_factors
  exact ⟨hp.nonneg, hp.finite_or_eq⟩

/-- A sample that is no farther than a power of two adds no more than its square. -/
theorem le (h : Increment dist p) (hlow : -537 ≤ k) (hhigh : k ≤ 511) (hdist : dist ≤ 2 ^ k) :
    ∃ q, p.Measures q ∧ q ≤ 2 ^ (2 * k) := by
  obtain ⟨d, s, v, hd, hs, hv0, hv, -, hp⟩ := h.exists_factors
  obtain ⟨y, hy⟩ := exists_measures_two_pow (k := k) (by omega) (by omega)
  obtain ⟨z, hz⟩ := exists_measures_two_pow (k := 2 * k) (by omega) (by omega)
  have hsk : s ≤ 2 ^ k := (hs.le_iff hy).mp (hd.le_of_le hy hdist).2
  have hsquare : s * v ≤ 2 ^ (2 * k) := by
    calc s * v ≤ 2 ^ k * 2 ^ k :=
          mul_le_mul hsk (hv.trans hsk) hv0 (zpow_pos two_pos _).le
      _ = 2 ^ (2 * k) := by rw [← zpow_add₀ two_ne_zero, two_mul]
  obtain ⟨hfin, hle⟩ := hp.le_of_le hz hsquare
  exact exists_measures_le hfin hp.nonneg hz hle

/-- A sample that is at least as far away as a power of two adds at least half of its square. -/
theorem ge (h : Increment dist p) (hlow : -536 ≤ k) (hhigh : k ≤ 511) (hdist : 2 ^ k ≤ dist)
    (hy : y.Measures (2 ^ (2 * k - 1))) : y ≤ p := by
  obtain ⟨d, s, v, hd, hs, hv0, hv, hhalf, hp⟩ := h.exists_factors
  obtain ⟨z, hz⟩ := exists_measures_two_pow (k := k) (by omega) (by omega)
  have hks : 2 ^ k ≤ s := (hz.le_iff hs).mp (hd.ge_of_ge hz hdist)
  have hpos : (0 : ℚ) < 2 ^ k := zpow_pos two_pos k
  have hnormal : (2 : ℚ) ^ (-1021 : ℤ) ≤ 2 ^ k := zpow_le_zpow_right₀ one_le_two (by omega)
  have hkv : 2 ^ k ≤ 2 * v := hks.trans (hhalf (hnormal.trans hks))
  refine hp.ge_of_ge hy ?_
  have hsplit : (2 : ℚ) ^ (2 * k - 1) = 2 ^ k * (2 ^ k / 2) := by
    rw [zpow_sub_one₀ two_ne_zero, two_mul, zpow_add₀ two_ne_zero]
    ring
  rw [hsplit]
  exact mul_le_mul hks (by linarith) (by linarith) (hpos.le.trans hks)

theorem zero (h : Increment 0 p) : p.Measures 0 := by
  obtain ⟨d, s, v, hd, hs, hv0, hv, -, hp⟩ := h.exists_factors
  have hzero : s ≤ 0 := (hs.le_iff .zero).mp (hd.le_of_le .zero le_rfl).2
  obtain rfl : v = 0 := le_antisymm (hv.trans hzero) hv0
  rw [mul_zero] at hp
  exact hp.measures .zero

end Increment

/-- **A distance is divided and squared up** into a step that is no longer than the distance and
into what it adds to the sum of squares. -/
theorem increment_of_rounds {d n : Binary64} {dist s r : ℚ} (hd : Rounds dist d)
    (hs : d.Measures s) (h0 : 0 ≤ dist) (hn : n.Measures r) (hr : 2 ≤ r) :
    ∃ t, (d / n).Measures t ∧ t ≤ dist ∧ (0 < s → t < s) ∧ Increment dist (d * (d - d / n)) := by
  have hs0 := hs.nonneg
  have hpos : 0 < r := two_pos.trans_le hr
  have hstep := hs.div hn hpos
  have hhalf : s / r ≤ s / 2 := div_le_div_of_nonneg_left hs0 two_pos hr
  obtain ⟨hfin, hle⟩ := hstep.le_of_le hs (by linarith)
  obtain ⟨t, ht, hts⟩ := exists_measures_le hfin hstep.nonneg hs hle
  have hrest := hs.sub ht hts
  obtain ⟨hrfin, hrle⟩ := hrest.le_of_le hs (sub_le_self s ht.nonneg)
  obtain ⟨v, hv, hvs⟩ := exists_measures_le hrfin hrest.nonneg hs hrle
  have hshort : t ≤ dist ∧ (0 < s → t < s) := by
    obtain ⟨k, hk, hdk⟩ := hd.exists_nearest hs.finite
    obtain ⟨j, hj, htj⟩ := hstep.exists_nearest hfin
    obtain rfl : s = magnitudeValue k := by rw [← hs.value, ← hdk.value]
    obtain rfl : t = magnitudeValue j := by rw [← ht.value, ← htj.value]
    cases k with
    | zero =>
        rw [magnitudeValue_zero] at hts ⊢
        exact ⟨hts.trans h0, fun h => absurd h (lt_irrefl 0)⟩
    | succ k =>
        -- the step is below the rounded distance, and the exact one is not far below that
        have hjk : j ≤ k := hj.le_of_half (by linarith)
        have hle := magnitudeValue_strictMono.monotone hjk
        refine ⟨hle.trans ?_,
          fun _ => hle.trans_lt (magnitudeValue_strictMono (Nat.lt_succ_self k))⟩
        by_contra hfar
        exact Nat.not_succ_le_self k (hk.nearest.le_of_le (not_le.mp hfar).le)
  refine ⟨t, ht, hshort.1, hshort.2, ⟨d, s, v, hd, hs, hv.nonneg, hvs, ?_, hs.mul hv⟩⟩
  intro hnormal
  obtain ⟨y, hy⟩ := hs.exists_half hnormal
  have hty : t ≤ s / 2 := (ht.le_iff hy).mp (hstep.le_of_le hy hhalf).2
  have hvy : s / 2 ≤ v := (hy.le_iff hv).mp (hrest.ge_of_ge hy (by linarith))
  linarith

end Binary64

/-! ## The first sample and the next ones -/

namespace Summary

open Binary64

theorem moments_first {y : Binary64} {q : ℚ} (hy : y.Measures q) :
    ((empty.add y).m1.Measures q ∧ (empty.add y).m2.Measures 0) ∧ (empty.add y).count = 1 := by
  have hd : (y - 0).Measures q := by
    have h := hy.sub .zero hy.nonneg
    rw [sub_zero] at h
    exact h.measures hy
  have hn : ((0 + 1 : ℕ) : Binary64).Measures 1 := by
    simpa using (represents_natCast (n := 1) (by decide)).measures
  have hdn : ((y - 0) / ((0 + 1 : ℕ) : Binary64)).Measures q := by
    have h := hd.div hn one_pos
    rw [div_one] at h
    exact h.measures hy
  have hrest : (y - 0 - (y - 0) / ((0 + 1 : ℕ) : Binary64)).Measures 0 := by
    have h := hd.sub hdn le_rfl
    rw [sub_self] at h
    exact h.measures .zero
  have hproduct := hd.mul hrest
  have hmean := Measures.zero.add hdn
  rw [mul_zero] at hproduct
  rw [zero_add] at hmean
  have hsquares := Measures.zero.add (hproduct.measures .zero)
  rw [add_zero] at hsquares
  exact ⟨⟨hmean.measures hy, hsquares.measures .zero⟩, rfl⟩

/-- **A sample moves the mean towards itself**, to itself at most, and adds an increment to the
sum of squares. -/
theorem moments_add_signed {s : Summary Binary64} {y : Binary64} {r : ℚ}
    (hx : s.m1.isFinite = true) (hy : y.isFinite = true) (hd : (y - s.m1).isFinite = true)
    (hn : ((s.count + 1 : ℕ) : Binary64).Measures r) (hr : 2 ≤ r) :
    ((s.add y).m1.isFinite = true ∧ (s.add y).m1.toRat ∈ Set.uIcc s.m1.toRat y.toRat) ∧
      ∃ p, (s.add y).m2 = s.m2 + p ∧ Increment |y.toRat - s.m1.toRat| p := by
  obtain ⟨n, hcount⟩ : ∃ n, n = ((s.count + 1 : ℕ) : Binary64) := ⟨_, rfl⟩
  obtain ⟨d, hdistance⟩ : ∃ d, d = y - s.m1 := ⟨_, rfl⟩
  have hm1 : (s.add y).m1 = s.m1 + d / n := by
    rw [hcount, hdistance]
    rfl
  have hm2 : (s.add y).m2 = s.m2 + d * (d - d / n) := by
    rw [hcount, hdistance]
    rfl
  have hrounds := signedRounds_sub hy hx
  rw [← hcount] at hn
  rw [← hdistance] at hd hrounds
  rw [hm1, hm2]
  rcases le_or_gt s.m1.toRat y.toRat with hle | hlt
  · have hdist := sub_nonneg.mpr hle
    obtain ⟨t, ht, htd, -, hincrement⟩ := increment_of_rounds (hrounds.above hdist)
      (hrounds.measures hd hdist) hdist hn hr
    have hsum := signedRounds_add hx ht.finite
    rw [ht.toRat_eq] at hsum
    rw [abs_of_nonneg hdist]
    refine ⟨hsum.between hx hy (Set.mem_uIcc.mpr (Or.inl ⟨?_, ?_⟩)), _, rfl, hincrement⟩
    · exact le_add_of_nonneg_right ht.nonneg
    · linarith
  · -- the same distance, downwards
    have hdist := (sub_neg.mpr hlt).le
    have hopposite := hrounds.below hdist
    have hdfin : (-d).isFinite = true := (isFinite_neg d).trans hd
    have hds := hrounds.neg.measures hdfin (neg_nonneg.mpr hdist)
    obtain ⟨t, ht, htd, hshort, hincrement⟩ :=
      increment_of_rounds hopposite hds (neg_nonneg.mpr hdist) hn hr
    have hpos : 0 < r := two_pos.trans_le hr
    have hdpos : 0 < (-d).toRat := by
      refine (Measures.zero.lt_iff hds).mp (hopposite.pos ?_)
      have hleast : (0 : ℚ) < 2 ^ (-1074 : ℤ) := zpow_pos two_pos _
      linarith [least_le_sub hlt]
    have hstep : d / n = -(-d / n) := by
      rw [← Binary64.neg_div hdfin hn hpos, Binary64.neg_neg]
    have hsquare : d * (d - d / n) = -d * (-d - -d / n) := by
      have hrest := hds.sub ht (hshort hdpos).le
      have hrfin := (hrest.le_of_le hds (sub_le_self _ ht.nonneg)).1
      calc d * (d - d / n) = - -d * (- -d - -(-d / n)) := by
            rw [← hstep, Binary64.neg_neg]
        _ = - -d * -(-d - -d / n) := by
            rw [Binary64.neg_sub_neg hdfin ht.finite, ht.sub_eq_neg hds (hshort hdpos).ne]
        _ = -d * (-d - -d / n) := Binary64.neg_mul_neg hdfin hrfin
    have hsum := signedRounds_add hx ((isFinite_neg _).trans ht.finite)
    rw [toRat_neg, ht.toRat_eq, ← hstep] at hsum
    rw [abs_of_nonpos hdist, hsquare]
    refine ⟨hsum.between hx hy (Set.mem_uIcc.mpr (Or.inr ⟨?_, ?_⟩)), _, rfl, hincrement⟩
    · linarith
    · linarith [ht.nonneg]

theorem moments_add {s : Summary Binary64} {y : Binary64} {x q r : ℚ} (hx : s.m1.Measures x)
    (hy : y.Measures q) (hn : ((s.count + 1 : ℕ) : Binary64).Measures r) (hr : 2 ≤ r) :
    ∃ x' p, (s.add y).m1.Measures x' ∧ x' ∈ Set.uIcc x q ∧ (s.add y).m2 = s.m2 + p ∧
      Increment |q - x| p := by
  obtain ⟨⟨hfin, hbetween⟩, p, hm2, hincrement⟩ :=
    moments_add_signed hx.finite hy.finite (hy.sub_small hx).1 hn hr
  rw [hx.toRat_eq, hy.toRat_eq] at hbetween hincrement
  have hnonneg : 0 ≤ (s.add y).m1.toRat :=
    (le_min hx.nonneg hy.nonneg).trans (Set.mem_Icc.mp hbetween).1
  exact ⟨_, p, measures_toRat hfin hnonneg, hbetween, hm2, hincrement⟩

end Summary

end Queueing
