import Queueing.Proofs.Statistics.Extremes
import Queueing.Proofs.Statistics.Rearranged
import Queueing.Proofs.Statistics.Rounding
import Queueing.Proofs.Trial.Capacity

/-!
# The spread of results in rounded arithmetic

An aggregate of rounded numbers keeps its mean between the extremes, but squares of differences can
leave the range of the numbers. Results that are too far apart have an infinite deviation, and
results that are too close together have none (`spread_lost`). Between the two the deviation is
what it should be: it is finite as long as `n` times the square of the greatest difference is at
most `2 ^ 1021`, and it is zero only for equal results as long as `n` is at most `2 ^ 1071` times
the square of the least difference (`aggregate_rounded`).
-/

namespace Queueing

theorem Binary64.Positive.nonneg {x : Binary64} (hx : x.Positive) : 0 ≤ x :=
  Binary64.le_of_lt hx.pos

theorem Binary64.Positive.measures {x : Binary64} (hx : x.Positive) : x.Measures x.toRat := by
  obtain ⟨q, hq⟩ := exists_measures hx.finite hx.nonneg
  rwa [hq.toRat_eq]

theorem Binary64.Positive.eq_of_toRat {x y : Binary64} (hx : x.Positive) (hy : y.Positive)
    (h : x.toRat = y.toRat) : x = y := by
  refine hx.eq_of_position hy ?_
  rw [hx.measures.position, hy.measures.position, magnitudeValue_strictMono.injective
    (hx.measures.value.trans (h.trans hy.measures.value.symm))]

/-! ## What every sample keeps -/

namespace Summary

open Binary64

theorem extend_induction {P : Summary Binary64 → Prop} {N : ℕ} {ys : List Binary64}
    (hstep : ∀ s y, 1 ≤ s.count → s.count < N → y ∈ ys → P s → P (s.add y)) :
    ∀ {s : Summary Binary64}, 1 ≤ s.count → s.count + ys.length ≤ N → P s → P (s.extend ys) := by
  induction ys with
  | nil => exact fun _ _ hs => hs
  | cons y ys ih =>
      intro s hcount hN hs
      have hlength : (y :: ys).length = ys.length + 1 := rfl
      rw [extend_cons]
      refine ih (fun s z hc hlt hz => hstep s z hc hlt (List.mem_cons_of_mem y hz)) ?_ ?_
        (hstep s y hcount (by omega) List.mem_cons_self hs)
      · exact Nat.le_add_left 1 s.count
      · show s.count + 1 + ys.length ≤ N
        omega

/-- The mean lies within bounds, and the sum of squares is an amount. -/
structure Within (lo hi : ℚ) (s : Summary Binary64) : Prop where
  mean : ∃ x, s.m1.Measures x ∧ x ∈ Set.Icc lo hi
  squares : s.m2.Amount

variable {lo hi q : ℚ} {s : Summary Binary64} {y : Binary64}

theorem within_first (hy : y.Measures q) (hq : q ∈ Set.Icc lo hi) : (empty.add y).Within lo hi := by
  obtain ⟨⟨hmean, hsquares⟩, -⟩ := moments_first hy
  exact ⟨⟨q, hmean, hq⟩, .of_rounds hsquares.rounds⟩

/-- **A sample within the bounds keeps the mean within them**, and is no farther from it than the
bounds are from each other. -/
theorem Within.add (h : s.Within lo hi) (hcount : 1 ≤ s.count) (hlt : s.count < 2 ^ 64 - 1)
    (hy : y.Measures q) (hq : q ∈ Set.Icc lo hi) :
    (s.add y).Within lo hi ∧
      ∃ dist p, (s.add y).m2 = s.m2 + p ∧ Increment dist p ∧ dist ≤ hi - lo := by
  obtain ⟨x, hx, hxb⟩ := h.mean
  obtain ⟨r, hr, hr2⟩ := exists_measures_count (n := s.count + 1) (by omega) (by omega)
  obtain ⟨x', p, hx', hbetween, hm2, hincrement⟩ := moments_add hx hy hr hr2
  refine ⟨⟨⟨x', hx', Set.uIcc_subset_Icc hxb hq hbetween⟩, ?_⟩, _, p, hm2, hincrement, ?_⟩
  · rw [hm2]
    exact (h.squares.add_amount hincrement.amount).1
  · rw [abs_le]
    constructor <;> linarith [hxb.1, hxb.2, hq.1, hq.2]

/-- What the first sample has and each of the next ones keeps holds of a sample as a whole. -/
theorem ofList_induction {P : Summary Binary64 → Prop} {ys : List Binary64} (hne : ys ≠ [])
    (hfirst : ∀ y ∈ ys, P (empty.add y))
    (hstep : ∀ s y, 1 ≤ s.count → s.count < ys.length → y ∈ ys → P s → P (s.add y)) :
    P (ofList ys) := by
  cases ys with
  | nil => exact absurd rfl hne
  | cons y ys =>
      rw [ofList, extend_cons]
      refine extend_induction
        (fun s z hc hlt hz => hstep s z hc hlt (List.mem_cons_of_mem y hz)) le_rfl ?_
        (hfirst y List.mem_cons_self)
      rw [List.length_cons]
      exact (Nat.add_comm 1 ys.length).le

section

variable {ys : List Binary64}

theorem within_ofList (hne : ys ≠ []) (hlen : ys.length < 2 ^ 64)
    (hys : ∀ y ∈ ys, ∃ q, y.Measures q ∧ q ∈ Set.Icc lo hi) : (ofList ys).Within lo hi := by
  refine ofList_induction hne ?_ ?_
  · intro y hy
    obtain ⟨q, hq, hb⟩ := hys y hy
    exact within_first hq hb
  · intro s y hcount hlt hy hs
    obtain ⟨q, hq, hb⟩ := hys y hy
    exact (hs.add hcount (by omega) hq hb).1

/-- Distances up to `2 ^ 484` do not overflow: their squares are lost in a sum of squares before
it leaves the range. -/
theorem steady_ofList (hne : ys ≠ []) (hlen : ys.length < 2 ^ 64)
    (hys : ∀ y ∈ ys, ∃ q, y.Measures q ∧ q ∈ Set.Icc lo hi) (hwidth : hi - lo ≤ 2 ^ (484 : ℤ)) :
    Steady (ofList ys).m2 := by
  refine (ofList_induction (P := fun s => s.Within lo hi ∧ Steady s.m2) hne ?_ ?_).2
  · intro y hy
    obtain ⟨q, hq, hb⟩ := hys y hy
    exact ⟨within_first hq hb, 0, (moments_first hq).1.2, (zpow_pos two_pos _).le⟩
  · rintro s y hcount hlt hy ⟨hs, hsteady⟩
    obtain ⟨q, hq, hb⟩ := hys y hy
    obtain ⟨hnext, dist, p, hm2, hincrement, hdist⟩ := hs.add hcount (by omega) hq hb
    obtain ⟨v, hv, hvle⟩ := hincrement.le (by decide) (by decide) (hdist.trans hwidth)
    refine ⟨hnext, ?_⟩
    rw [hm2]
    refine hsteady.add ⟨v, hv, hvle.trans ?_⟩
    exact zpow_le_zpow_right₀ one_le_two (by decide)

/-- **A sum of squares grows by no more than the square of the greatest distance**, for every
sample, while the bounds are numbers. -/
theorem squares_le (hne : ys ≠ []) (hlen : ys.length ≤ 2 ^ 53)
    (hys : ∀ y ∈ ys, ∃ q, y.Measures q ∧ q ∈ Set.Icc lo hi) {k : ℤ} (hlow : -511 ≤ k)
    (hhigh : k ≤ 511) (hwidth : hi - lo ≤ 2 ^ k)
    (hsum : (ys.length : ℚ) * 2 ^ (2 * k) ≤ 2 ^ (1023 : ℤ)) :
    ∃ v, (ofList ys).m2.Measures v := by
  have hpos : (0 : ℚ) < 2 ^ (2 * k) := zpow_pos two_pos _
  suffices h : (ofList ys).Within lo hi ∧
      ∃ v, (ofList ys).m2.Measures v ∧ v ≤ (ofList ys).count * 2 ^ (2 * k) by
    obtain ⟨-, v, hv, -⟩ := h
    exact ⟨v, hv⟩
  refine ofList_induction (P := fun s => s.Within lo hi ∧
    ∃ v, s.m2.Measures v ∧ v ≤ s.count * 2 ^ (2 * k)) hne ?_ ?_
  · intro y hy
    obtain ⟨q, hq, hb⟩ := hys y hy
    obtain ⟨⟨-, hm2⟩, hcount⟩ := moments_first hq
    refine ⟨within_first hq hb, 0, hm2, ?_⟩
    rw [hcount, Nat.cast_one, one_mul]
    exact hpos.le
  · rintro s y hcount hlt hy ⟨hs, v, hv, hvle⟩
    obtain ⟨q, hq, hb⟩ := hys y hy
    obtain ⟨hnext, dist, p, hm2, hincrement, hdist⟩ := hs.add hcount (by omega) hq hb
    obtain ⟨u, hu, hule⟩ := hincrement.le (by omega) hhigh (hdist.trans hwidth)
    have hcast : ((s.count + 1 : ℕ) : ℚ) ≤ ys.length := by exact_mod_cast hlt
    obtain ⟨z, hz⟩ := exists_measures_multiple (n := s.count + 1) (j := 2 * k) (by omega) (by omega)
      ((mul_le_mul_of_nonneg_right hcast hpos.le).trans hsum)
    have hbound : v + u ≤ (s.count + 1 : ℕ) * 2 ^ (2 * k) := by
      push_cast
      linarith
    have hrounds := hv.add hu
    obtain ⟨hfin, hle⟩ := hrounds.le_of_le hz hbound
    refine ⟨hnext, ?_⟩
    rw [hm2]
    exact exists_measures_le hfin hrounds.nonneg hz hle

def Constant (q : ℚ) (s : Summary Binary64) : Prop := s.m1.Measures q ∧ s.m2.Measures 0

theorem Constant.add (h : s.Constant q) (hcount : 1 ≤ s.count) (hlt : s.count < 2 ^ 64 - 1)
    (hy : y.Measures q) : (s.add y).Constant q := by
  obtain ⟨r, hr, hr2⟩ := exists_measures_count (n := s.count + 1) (by omega) (by omega)
  obtain ⟨x', p, hx', hbetween, hm2, hincrement⟩ := moments_add h.1 hy hr hr2
  rw [Set.uIcc_self, Set.mem_singleton_iff] at hbetween
  rw [sub_self, abs_zero] at hincrement
  have hsum := h.2.add hincrement.zero
  rw [add_zero] at hsum
  refine ⟨hbetween ▸ hx', ?_⟩
  rw [hm2]
  exact hsum.measures .zero

theorem constant_ofList (hne : ys ≠ []) (hlen : ys.length < 2 ^ 64)
    (hys : ∀ y ∈ ys, y.Measures q) : (ofList ys).Constant q := by
  refine ofList_induction hne (fun y hy => (moments_first (hys y hy)).1) ?_
  intro s y hcount hlt hy hs
  exact hs.add hcount (by omega) (hys y hy)

/-- **The first sample that differs leaves a sum of squares behind**, which the next ones do not
take away. -/
theorem squares_ge {k : ℤ} {z : Binary64} (hlow : -536 ≤ k) (hhigh : k ≤ 511)
    (hz : z.Measures (2 ^ (2 * k - 1))) (hbq : q ∈ Set.Icc lo hi)
    (hys : ∀ y ∈ ys, ∃ p, y.Measures p ∧ p ∈ Set.Icc lo hi ∧ (p = q ∨ 2 ^ k ≤ |p - q|)) :
    ∀ {s : Summary Binary64}, s.Constant q → 1 ≤ s.count → s.count + ys.length < 2 ^ 64 →
      (∀ y ∈ ys, y.Measures q) ∨ z ≤ (s.extend ys).m2 := by
  induction ys with
  | nil => exact fun _ _ _ => Or.inl (by simp)
  | cons y ys ih =>
      intro s hs hcount hlen
      have hlength : (y :: ys).length = ys.length + 1 := rfl
      obtain ⟨p, hp, hb, hsame⟩ := hys y List.mem_cons_self
      have hrest : ∀ y' ∈ ys, ∃ p, y'.Measures p ∧ p ∈ Set.Icc lo hi ∧
          (p = q ∨ 2 ^ k ≤ |p - q|) := fun y' hy' => hys y' (List.mem_cons_of_mem y hy')
      have hnext : (s.add y).count = s.count + 1 := rfl
      rw [extend_cons]
      rcases hsame with rfl | hfar
      · refine (ih hrest (hs.add hcount (by omega) hp) (by omega) (by omega)).imp_left ?_
        intro hall y' hy'
        rcases List.mem_cons.mp hy' with rfl | hmem
        · exact hp
        · exact hall y' hmem
      · right
        have hwithin : s.Within lo hi := ⟨⟨q, hs.1, hbq⟩, .of_rounds hs.2.rounds⟩
        obtain ⟨r, hr, hr2⟩ := exists_measures_count (n := s.count + 1) (by omega) (by omega)
        obtain ⟨-, u, -, -, hm2, hincrement⟩ := moments_add hs.1 hp hr hr2
        have hgrown : z ≤ (s.add y).m2 := by
          rw [hm2]
          exact Binary64.le_trans (hincrement.ge hlow hhigh hfar hz)
            (hwithin.squares.add_amount hincrement.amount).2.2
        refine (extend_induction (P := fun s => s.Within lo hi ∧ z ≤ s.m2) (N := 2 ^ 64 - 1)
          ?_ (by omega) (by omega)
          ⟨(hwithin.add hcount (by omega) hp hb).1, hgrown⟩).2
        rintro s y' hcount hlt hy' ⟨hs, hge⟩
        obtain ⟨p', hp', hb', -⟩ := hrest y' hy'
        obtain ⟨hwithin', dist, u', hm2', hincrement', -⟩ := hs.add hcount hlt hp' hb'
        refine ⟨hwithin', ?_⟩
        rw [hm2']
        exact Binary64.le_trans hge (hs.squares.add_amount hincrement'.amount).2.1

end

end Summary

/-! ## Extremes -/

namespace Summary

open Binary64

def Encloses (extremes : Option Binary64 × Option Binary64) (ys : List Binary64) : Prop :=
  (∃ m ∈ ys, extremes.1 = some m ∧ ∀ y ∈ ys, m ≤ y) ∧
    ∃ m ∈ ys, extremes.2 = some m ∧ ∀ y ∈ ys, y ≤ m

/-- **The extremes of finite samples enclose them.** -/
theorem encloses_ofList {ys : List Binary64} (hne : ys ≠ [])
    (hys : ∀ y ∈ ys, y.isFinite = true) : Encloses (ofList ys).extremes ys := by
  have hnumbers : ∀ y ∈ ys, y.isNaN = false := fun y hy => isNaN_eq_false_of_isFinite (hys y hy)
  have hcovers := covers_ofList ys
  obtain ⟨m, hmin, hleast⟩ := hcovers.min.exists_extreme hne
  obtain ⟨k, hmax, hgreatest⟩ := hcovers.max.exists_extreme hne
  exact ⟨⟨m, hleast.mem, hmin, fun y hy => hleast.first y hy (hnumbers y hy)⟩,
    k, hgreatest.mem, hmax, fun y hy => hgreatest.first y hy (hnumbers y hy)⟩

end Summary

/-! ## Deviations -/

namespace Binary64

variable {x : Binary64} {p : ℚ}

/-- **The deviation of a finite sum of squares is finite**, and that of an infinite one is not. -/
theorem Amount.deviation {n : Binary64} {r : ℚ} (hx : x.Amount) (hn : n.Measures r) (hr : 1 ≤ r) :
    (∃ v u, x.Measures v ∧ (x / n).Measures u ∧ ∃ w, (x / n).sqrt.Measures w ∧ w ≤ 2 ^ (512 : ℤ)) ∨
      x = infinity ∧ (x / n).sqrt = infinity := by
  have hpos : 0 < r := one_pos.trans_le hr
  rcases hx.cases with ⟨v, hv⟩ | rfl
  · left
    have hquotient := hv.div hn hpos
    obtain ⟨hfin, hle⟩ := hquotient.le_of_le hv (div_le_self hv.nonneg hr)
    obtain ⟨u, hu, -⟩ := exists_measures_le hfin hquotient.nonneg hv hle
    obtain ⟨y, hy⟩ := exists_measures_two_pow (k := 512) (by decide) (by decide)
    have hsquare : u ≤ (2 ^ (512 : ℤ)) ^ 2 := by
      rw [← zpow_natCast, ← zpow_mul]
      exact hu.lt_top.le
    obtain ⟨hsfin, hsle⟩ := hu.sqrt_le hy hsquare
    exact ⟨v, u, hv, hu, exists_measures_le hsfin hu.sqrt_nonneg hy hsle⟩
  · right
    rw [infinity_div hn hpos]
    exact ⟨rfl, sqrt_infinity⟩

theorem Amount.deviation_pos {z n : Binary64} {r : ℚ} {k : ℕ} (hx : x.Amount) (hn : n.Measures r)
    (hr : 1 ≤ r) (hrk : r < 2 * k) (hz : z.Measures p) (hzx : z ≤ x)
    (hp : k * 2 ^ (-1074 : ℤ) ≤ p) : 0 < (x / n).sqrt := by
  have hpos : 0 < r := one_pos.trans_le hr
  rcases hx.deviation hn hr with ⟨v, u, hv, hu, -⟩ | ⟨-, hinf⟩
  · refine hu.sqrt_pos ((Measures.zero.lt_iff hu).mp ((hv.div hn hpos).pos ?_))
    have hpv := (hz.le_iff hv).mp hzx
    have hleast : (0 : ℚ) < 2 ^ (-1074 : ℤ) := zpow_pos two_pos _
    rw [← mul_div_assoc, lt_div_iff₀ hpos]
    generalize (2 : ℚ) ^ (-1074 : ℤ) = least at hp hleast ⊢
    calc least * r < least * (2 * k) := mul_lt_mul_of_pos_left hrk hleast
      _ = 2 * (k * least) := by ring
      _ ≤ 2 * v := mul_le_mul_of_nonneg_left (hp.trans hpv) two_pos.le
  · rw [hinf]
    decide

end Binary64

/-! ## When nothing is lost -/

namespace Summary

open Binary64

variable {ys : List Binary64} {lo hi : ℚ}

/-- **Results that are close enough have a finite sum of squares.** -/
theorem squares_finite (hlen2 : 2 ≤ ys.length) (hlen : ys.length < 2 ^ 64)
    (hys : ∀ y ∈ ys, ∃ q, y.Measures q ∧ q ∈ Set.Icc lo hi) {width : ℚ}
    (hwidth : hi - lo ≤ width) (hclose : ys.length * width ^ 2 ≤ 2 ^ 1021) :
    ∃ v, (ofList ys).m2.Measures v := by
  have hne : ys ≠ [] := by
    rintro rfl
    cases hlen2
  by_cases hnear : width ≤ 2 ^ (484 : ℤ)
  · obtain ⟨v, hv, -⟩ := steady_ofList hne hlen hys (hwidth.trans hnear)
    exact ⟨v, hv⟩
  · have hfar : (2 : ℚ) ^ (484 : ℤ) < width := not_le.mp hnear
    obtain ⟨k, hk, hk'⟩ := exists_mem_Ioc_zpow ((zpow_pos two_pos _).trans hfar)
      (one_lt_two (α := ℚ))
    -- the power of two above the width is less than twice as large
    have hlength : (2 : ℚ) ≤ ys.length := by exact_mod_cast hlen2
    have hsquare : ((2 : ℚ) ^ k) ^ 2 < width ^ 2 :=
      pow_lt_pow_left₀ hk (zpow_pos two_pos k).le two_ne_zero
    have hsum : (ys.length : ℚ) * 2 ^ (2 * (k + 1)) ≤ 2 ^ (1023 : ℤ) := by
      calc (ys.length : ℚ) * 2 ^ (2 * (k + 1)) = 4 * (ys.length * (2 ^ k) ^ 2) := by
            rw [mul_comm 2, zpow_mul, zpow_ofNat, zpow_add_one₀ two_ne_zero]
            ring
        _ ≤ 4 * (ys.length * width ^ 2) :=
            mul_le_mul_of_nonneg_left
              (mul_le_mul_of_nonneg_left hsquare.le (Nat.cast_nonneg _)) (by norm_num)
        _ ≤ 4 * 2 ^ 1021 := mul_le_mul_of_nonneg_left hclose (by norm_num)
        _ = 2 ^ (1023 : ℤ) := by
            rw [show (4 : ℚ) = 2 ^ 2 by norm_num, ← pow_add]
            rfl
    have hlow : 484 < k + 1 :=
      (zpow_lt_zpow_iff_right₀ (one_lt_two (α := ℚ))).mp (hfar.trans_le hk')
    have hhigh : 1 + 2 * (k + 1) ≤ 1023 := by
      refine (zpow_le_zpow_iff_right₀ (one_lt_two (α := ℚ))).mp (le_trans ?_ hsum)
      rw [zpow_one_add₀ two_ne_zero]
      exact mul_le_mul_of_nonneg_right hlength (zpow_pos two_pos _).le
    have hmany : ys.length ≤ 2 ^ 53 := by
      have hpos : (0 : ℚ) < 2 ^ (970 : ℤ) := zpow_pos two_pos _
      have hstep : (ys.length : ℚ) * 2 ^ (970 : ℤ) ≤ 2 ^ 53 * 2 ^ (970 : ℤ) := by
        calc (ys.length : ℚ) * 2 ^ (970 : ℤ) ≤ ys.length * 2 ^ (2 * (k + 1)) :=
              mul_le_mul_of_nonneg_left (zpow_le_zpow_right₀ one_le_two (by omega))
                (Nat.cast_nonneg _)
          _ ≤ 2 ^ (1023 : ℤ) := hsum
          _ = 2 ^ 53 * 2 ^ (970 : ℤ) := by
              rw [← zpow_natCast, ← zpow_add₀ two_ne_zero]
              rfl
      exact_mod_cast le_of_mul_le_mul_right hstep hpos
    exact squares_le hne hmany hys (by omega) (by omega) (hwidth.trans hk') hsum

/-- **Results that differ enough have a sum of squares that is not lost**, unless they are all
equal. -/
theorem squares_kept {q : ℚ} {y : Binary64} (hlen2 : 2 ≤ (y :: ys).length)
    (hlen : (y :: ys).length < 2 ^ 64) (hy : y.Measures q) (hbq : q ∈ Set.Icc lo hi) {gap : ℚ}
    (hgap : 0 < gap) (hys : ∀ z ∈ ys, ∃ p, z.Measures p ∧ p ∈ Set.Icc lo hi ∧
      (p = q ∨ gap ≤ |p - q|))
    (hfar : ((y :: ys).length : ℚ) ≤ 2 ^ 1071 * gap ^ 2) :
    (∀ z ∈ ys, z.Measures q) ∨ ∃ z p, z.Measures p ∧ z ≤ (ofList (y :: ys)).m2 ∧
      ((y :: ys).length : ℚ) * 2 ^ (-1074 : ℤ) ≤ p := by
  obtain ⟨i, hbelow, habove⟩ := exists_mem_Ico_zpow hgap (one_lt_two (α := ℚ))
  -- so many samples at most that a sum of squares can be divided by their number
  obtain ⟨k, hhigh, hki, hmany⟩ : ∃ k : ℤ, k ≤ 0 ∧ 2 ^ k ≤ gap ∧
      ((y :: ys).length : ℚ) ≤ 2 ^ (1073 + 2 * k) := by
    rcases le_total i 0 with hle | hge
    · have hsquare : gap ^ 2 ≤ ((2 : ℚ) ^ (i + 1)) ^ 2 :=
        pow_le_pow_left₀ hgap.le habove.le 2
      refine ⟨i, hle, hbelow, ?_⟩
      calc ((y :: ys).length : ℚ) ≤ 2 ^ 1071 * gap ^ 2 := hfar
        _ ≤ 2 ^ 1071 * (2 ^ (i + 1)) ^ 2 :=
            mul_le_mul_of_nonneg_left hsquare (by positivity)
        _ = 2 ^ (1073 + 2 * i) := by
            rw [← zpow_natCast, ← zpow_natCast, ← zpow_mul, ← zpow_add₀ two_ne_zero]
            congr 1
            omega
    · refine ⟨0, le_rfl, (zpow_le_zpow_right₀ one_le_two hge).trans hbelow, ?_⟩
      have hcast : ((y :: ys).length : ℚ) ≤ 2 ^ 64 := by exact_mod_cast hlen.le
      refine hcast.trans ?_
      rw [← zpow_natCast]
      exact zpow_le_zpow_right₀ one_le_two (by decide)
  have hlow : 1 ≤ 1073 + 2 * k := by
    refine (zpow_le_zpow_iff_right₀ (one_lt_two (α := ℚ))).mp (le_trans ?_ hmany)
    rw [zpow_one]
    exact_mod_cast hlen2
  obtain ⟨z, hz⟩ := exists_measures_two_pow (k := 2 * k - 1) (by omega) (by omega)
  obtain ⟨hfirst, hcount⟩ := moments_first hy
  have hsides : ∀ z ∈ ys, ∃ p, z.Measures p ∧ p ∈ Set.Icc lo hi ∧ (p = q ∨ 2 ^ k ≤ |p - q|) := by
    intro z hz
    obtain ⟨p, hp, hb, hside⟩ := hys z hz
    exact ⟨p, hp, hb, hside.imp_right hki.trans⟩
  refine (squares_ge (by omega) (by omega) hz hbq hsides hfirst hcount.ge ?_).imp_right ?_
  · rw [hcount, Nat.add_comm]
    exact hlen
  · intro hge
    refine ⟨z, _, hz, hge, ?_⟩
    calc ((y :: ys).length : ℚ) * 2 ^ (-1074 : ℤ) ≤ 2 ^ (1073 + 2 * k) * 2 ^ (-1074 : ℤ) :=
          mul_le_mul_of_nonneg_right hmany (zpow_pos two_pos _).le
      _ = 2 ^ (2 * k - 1) := by
          rw [← zpow_add₀ two_ne_zero]
          congr 1
          omega

theorem equal_or_kept (hys : ∀ y ∈ ys, y.Positive) (hbounds : ∀ y ∈ ys, y.toRat ∈ Set.Icc lo hi)
    (hlen2 : 2 ≤ ys.length) (hlen : ys.length < 2 ^ 64) {gap : ℚ} (hgap : 0 < gap)
    (hfar : ∀ x ∈ ys, ∀ y ∈ ys, y < x → gap ≤ x.toRat - y.toRat)
    (hmany : (ys.length : ℚ) ≤ 2 ^ 1071 * gap ^ 2) :
    (∀ x ∈ ys, ∀ y ∈ ys, x = y) ∨ ∃ z p, z.Measures p ∧ z ≤ (ofList ys).m2 ∧
      (ys.length : ℚ) * 2 ^ (-1074 : ℤ) ≤ p := by
  cases ys with
  | nil => cases hlen2
  | cons y ys =>
      have hy := hys y List.mem_cons_self
      have hsides : ∀ z ∈ ys, ∃ p, z.Measures p ∧ p ∈ Set.Icc lo hi ∧
          (p = y.toRat ∨ gap ≤ |p - y.toRat|) := by
        intro z hz
        have hzmem := List.mem_cons_of_mem y hz
        have hzm := (hys z hzmem).measures
        refine ⟨_, hzm, hbounds z hzmem, ?_⟩
        rcases lt_trichotomy z.toRat y.toRat with hlt | heq | hlt
        · have hdist := hfar y List.mem_cons_self z hzmem ((hzm.lt_iff hy.measures).mpr hlt)
          rw [abs_sub_comm]
          exact Or.inr (hdist.trans (le_abs_self _))
        · exact Or.inl heq
        · have hdist := hfar z hzmem y List.mem_cons_self ((hy.measures.lt_iff hzm).mpr hlt)
          exact Or.inr (hdist.trans (le_abs_self _))
      refine (squares_kept hlen2 hlen hy.measures (hbounds y List.mem_cons_self) hgap hsides
        hmany).imp_left ?_
      intro hall
      have hsame : ∀ z ∈ y :: ys, z = y := by
        intro z hz
        rcases List.mem_cons.mp hz with rfl | hmem
        · rfl
        · exact (hys z hz).eq_of_toRat hy (hall z hmem).toRat_eq
      intro x hx z hz
      rw [hsame x hx, hsame z hz]

end Summary

/-! ## Aggregates -/

namespace Aggregate

open Binary64

/-- What an aggregate of rounded numbers says of the values. -/
structure Rounded (a : Aggregate Binary64) (values : List Binary64) : Prop where
  n_eq : a.n = values.length
  least : a.min ∈ values ∧ ∀ x ∈ values, a.min ≤ x
  greatest : a.max ∈ values ∧ ∀ x ∈ values, x ≤ a.max
  min_le_mean : a.min ≤ a.mean
  mean_le_max : a.mean ≤ a.max
  lower_le_mean : a.lower ≤ a.mean
  mean_le_upper : a.mean ≤ a.upper
  stdDev_nonneg : 0 ≤ a.stdDev
  /-- The interval is finite, or it is the whole line. -/
  finite_or_whole :
    (a.stdDev.isFinite = true ∧ a.stdError.isFinite = true ∧ a.lower.isFinite = true ∧
      a.upper.isFinite = true) ∨
    (a.stdDev = infinity ∧ a.stdError = infinity ∧ a.lower = -infinity ∧ a.upper = infinity)
  /-- It is finite if the values are not too far apart. -/
  finite_of_close : ∀ width : ℚ, (∀ x ∈ values, ∀ y ∈ values, x.toRat - y.toRat ≤ width) →
    a.n * width ^ 2 ≤ 2 ^ 1021 → a.stdDev.isFinite = true
  /-- Equal values have no deviation. -/
  isZero_of_equal : (∀ x ∈ values, ∀ y ∈ values, x = y) → a.stdDev.isZero = true
  /-- Others have one if they are not too close together. -/
  equal_of_isZero : ∀ gap : ℚ, 0 < gap →
    (∀ x ∈ values, ∀ y ∈ values, y < x → gap ≤ x.toRat - y.toRat) →
      a.n ≤ 2 ^ 1071 * gap ^ 2 → a.stdDev.isZero = true → ∀ x ∈ values, ∀ y ∈ values, x = y

variable (log threeHalves : Binary64 → Binary64)

theorem normalQuantile_measures :
    letI := Binary64.arithmetic log threeHalves
    ∃ q, (normalQuantile Binary64).Measures q ∧ 0 < q ∧ q ≤ 2 := by
  have hn : ((49 : ℕ) : Binary64).Measures (49 : ℕ) :=
    (represents_natCast (n := 49) (by decide)).measures
  have hd : ((25 : ℕ) : Binary64).Measures (25 : ℕ) :=
    (represents_natCast (n := 25) (by decide)).measures
  obtain ⟨two, htwo⟩ := exists_two_pow (k := 1) (by decide)
  rw [pow_one] at htwo
  have hquotient := hn.div hd (by norm_num)
  obtain ⟨hfin, hle⟩ := hquotient.le_of_le htwo (by norm_num)
  obtain ⟨q, hq, hq2⟩ := exists_measures_le hfin hquotient.nonneg htwo hle
  have hone := (Represents.one.measures.le_iff hq).mp
    (hquotient.ge_of_ge Represents.one.measures (by norm_num))
  exact ⟨q, hq, one_pos.trans_le hone, hq2⟩

variable {a : Aggregate Binary64} {p r : ℚ}

/-- **The interval is finite exactly when the deviation is.** -/
theorem interval_cases (hmean : a.mean.Measures p) (hn : ((a.n : ℕ) : Binary64).Measures r)
    (hr : 1 ≤ r)
    (hdev : (∃ w, a.stdDev.Measures w ∧ w ≤ 2 ^ (512 : ℤ)) ∨ a.stdDev = infinity)
    (herror : a.stdError = a.stdDev / ((a.n : ℕ) : Binary64).sqrt) :
    letI := Binary64.arithmetic log threeHalves
    a.lower = a.mean - a.halfWidth → a.upper = a.mean + a.halfWidth →
      (a.lower ≤ a.mean ∧ a.mean ≤ a.upper) ∧
      ((a.stdDev.isFinite = true ∧ a.stdError.isFinite = true ∧ a.lower.isFinite = true ∧
        a.upper.isFinite = true) ∨
      (a.stdDev = infinity ∧ a.stdError = infinity ∧ a.lower = -infinity ∧
        a.upper = infinity)) := by
  let _ := Binary64.arithmetic log threeHalves
  intro hlower hupper
  obtain ⟨c, hc, hc0, hc2⟩ := normalQuantile_measures log threeHalves
  obtain ⟨root, hroot, hroot1⟩ : ∃ s, ((a.n : ℕ) : Binary64).sqrt.Measures s ∧ 1 ≤ s := by
    obtain ⟨hfin, hle⟩ := hn.sqrt_le hn (le_self_pow₀ hr two_ne_zero)
    obtain ⟨s, hs, -⟩ := exists_measures_le hfin hn.sqrt_nonneg hn hle
    have hone : (1 : Binary64) ≤ ((a.n : ℕ) : Binary64).sqrt :=
      hn.le_sqrt Represents.one.measures (by rwa [one_pow])
    exact ⟨s, hs, (Represents.one.measures.le_iff hs).mp hone⟩
  have hpos : 0 < root := one_pos.trans_le hroot1
  rcases hdev with ⟨w, hw, hwle⟩ | hinf
  · -- dividing by the root leaves less, and the quantile not even doubles it
    have hquotient := hw.div hroot hpos
    rw [← herror] at hquotient
    obtain ⟨hefin, hele⟩ := hquotient.le_of_le hw (div_le_self hw.nonneg hroot1)
    obtain ⟨e, he, hew⟩ := exists_measures_le hefin hquotient.nonneg hw hele
    obtain ⟨y, hy⟩ := exists_measures_two_pow (k := 513) (by decide) (by decide)
    have hbound : c * e ≤ 2 ^ (513 : ℤ) := by
      calc c * e ≤ 2 * 2 ^ (512 : ℤ) :=
            mul_le_mul hc2 (hew.trans hwle) he.nonneg two_pos.le
        _ = 2 ^ (513 : ℤ) := by
            rw [← zpow_one_add₀ two_ne_zero]
            rfl
    have hproduct := hc.mul he
    obtain ⟨hhfin, hhle⟩ := hproduct.le_of_le hy hbound
    obtain ⟨h, hh, hhb⟩ := exists_measures_le hhfin hproduct.nonneg hy hhle
    obtain ⟨hlfin, hlle⟩ := hmean.sub_small hh
    obtain ⟨hufin, hule⟩ := hmean.add_small hh hhb
    rw [hlower, hupper]
    exact ⟨⟨hlle, hule⟩, Or.inl ⟨hw.finite, hefin, hlfin, hufin⟩⟩
  · have hstdError : a.stdError = infinity := by rw [herror, hinf, infinity_div hroot hpos]
    have hhalf : a.halfWidth = infinity := by
      rw [halfWidth, hstdError]
      exact hc.mul_infinity hc0
    have hlow : a.lower = -infinity := by
      rw [hlower, hhalf]
      exact sub_infinity hmean.finite
    have hhigh : a.upper = infinity := by
      rw [hupper, hhalf]
      exact add_infinity hmean.finite
    refine ⟨?_, Or.inr ⟨hinf, hstdError, hlow, hhigh⟩⟩
    have hle := (Amount.of_rounds hmean.rounds).le_infinity
    rw [hlow, hhigh]
    refine ⟨Binary64.le_iff.mpr ⟨rfl, hmean.isNaN, ?_⟩, hle⟩
    rw [position_neg, hmean.position]
    exact (neg_nonpos.mpr (by decide)).trans (Int.natCast_nonneg _)

theorem rounded_of_readFrom {values : List Binary64} (hvalues : ∀ x ∈ values, x.Positive)
    (hlen2 : 2 ≤ values.length) (hlen : values.length < 2 ^ 64) :
    letI := Binary64.arithmetic log threeHalves
    a.ReadFrom (Summary.ofList values) → a.Rounded values := by
  let _ := Binary64.arithmetic log threeHalves
  intro h
  have hne : values ≠ [] := by
    rintro rfl
    cases hlen2
  have hmeasures : ∀ x ∈ values, x.Measures x.toRat := fun x hx => (hvalues x hx).measures
  -- the extremes, and the bounds that they are
  obtain ⟨⟨least, hleast, hmin, hbelow⟩, greatest, hgreatest, hmax, habove⟩ :=
    Summary.encloses_ofList hne fun x hx => (hvalues x hx).finite
  obtain rfl : a.min = least := Option.some.inj (h.min_eq.symm.trans hmin)
  obtain rfl : a.max = greatest := Option.some.inj (h.max_eq.symm.trans hmax)
  have hwithin : ∀ x ∈ values, x.toRat ∈ Set.Icc a.min.toRat a.max.toRat := by
    intro x hx
    have hxm := hmeasures x hx
    exact ⟨((hmeasures _ hleast).le_iff hxm).mp (hbelow x hx),
      (hxm.le_iff (hmeasures _ hgreatest)).mp (habove x hx)⟩
  have hbounds : ∀ x ∈ values, ∃ q, x.Measures q ∧ q ∈ Set.Icc a.min.toRat a.max.toRat :=
    fun x hx => ⟨_, hmeasures x hx, hwithin x hx⟩
  -- the moments
  have hn : a.n = values.length := h.n_eq.trans (Summary.count_ofList values)
  have hcount : (Summary.ofList values).count = values.length := Summary.count_ofList values
  obtain ⟨⟨mean, hm1, hb⟩, hsquares⟩ := Summary.within_ofList hne hlen hbounds
  have hmean : a.mean.Measures mean := by
    have hread := h.mean_eq
    rw [Summary.mean?, if_pos (by omega)] at hread
    rwa [← Option.some.inj hread]
  have hstdDev : a.stdDev =
      ((Summary.ofList values).m2 / ((values.length - 1 : ℕ) : Binary64)).sqrt := by
    have hread := h.stdDev_eq
    rw [Summary.stdDev?, Summary.variance?, if_pos (by omega), hcount] at hread
    exact (Option.some.inj hread).symm
  obtain ⟨d, hd, hd1, hd2⟩ := natCast_lt_two_mul (n := values.length - 1) (by omega) (by omega)
  obtain ⟨r, hr, hr1, -⟩ := natCast_lt_two_mul (n := values.length) (by omega) hlen
  rw [← hn] at hr
  have hdeviation := hsquares.deviation hd hd1
  rw [← hstdDev] at hdeviation
  have hbounded : (∃ w, a.stdDev.Measures w ∧ w ≤ 2 ^ (512 : ℤ)) ∨ a.stdDev = infinity := by
    rcases hdeviation with ⟨-, -, -, -, hw⟩ | ⟨-, hinf⟩
    · exact Or.inl hw
    · exact Or.inr hinf
  obtain ⟨⟨hlow, hhigh⟩, hcases⟩ := interval_cases log threeHalves hmean hr hr1 hbounded
    h.stdError_eq h.lower_eq h.upper_eq
  refine
    { n_eq := hn
      least := ⟨hleast, hbelow⟩
      greatest := ⟨hgreatest, habove⟩
      min_le_mean := ((hmeasures _ hleast).le_iff hmean).mpr hb.1
      mean_le_max := (hmean.le_iff (hmeasures _ hgreatest)).mpr hb.2
      lower_le_mean := hlow
      mean_le_upper := hhigh
      stdDev_nonneg := ?_
      finite_or_whole := hcases
      finite_of_close := ?_
      isZero_of_equal := ?_
      equal_of_isZero := ?_ }
  · rcases hdeviation with ⟨-, -, -, -, w, hw, -⟩ | ⟨-, hinf⟩
    · exact (Measures.zero.le_iff hw).mpr hw.nonneg
    · rw [hinf]
      decide
  · intro width hwidth hclose
    rw [hn] at hclose
    obtain ⟨v, hv⟩ := Summary.squares_finite hlen2 hlen hbounds
      (hwidth _ hgreatest _ hleast) hclose
    rcases hdeviation with ⟨-, -, -, -, w, hw, -⟩ | ⟨hinf, -⟩
    · exact hw.finite
    · rw [hinf] at hv
      exact absurd hv.finite (by decide)
  · intro hequal
    have hconstant := Summary.constant_ofList (q := a.min.toRat) hne hlen
      fun x hx => hequal _ hleast x hx ▸ hmeasures _ hleast
    have hquotient := hconstant.2.div hd (one_pos.trans_le hd1)
    rw [zero_div] at hquotient
    rw [hstdDev]
    exact (hquotient.measures .zero).sqrt_zero.isZero_iff.mpr rfl
  · intro gap hgap hfar hmany hzero
    rw [hn] at hmany
    rcases Summary.equal_or_kept hvalues hwithin hlen2 hlen hgap hfar hmany with hequal | hkept
    · exact hequal
    · -- what is left in the sum of squares is not divided away
      obtain ⟨z, p, hz, hzle, hzp⟩ := hkept
      have hcast : (values.length - 1 : ℕ) ≤ (values.length : ℚ) := by
        exact_mod_cast Nat.sub_le _ 1
      have hscaled := mul_le_mul_of_nonneg_right hcast
        (zpow_pos (two_pos (α := ℚ)) (-1074)).le
      have hpos := hsquares.deviation_pos hd hd1 hd2 hz hzle (hscaled.trans hzp)
      rw [← hstdDev] at hpos
      exact absurd hzero (not_isZero_of_pos hpos)

end Aggregate

/-- **An aggregate of positive results in binary64 arithmetic.** -/
theorem aggregate_rounded (log threeHalves : Binary64 → Binary64) :
    letI := Binary64.arithmetic log threeHalves
    ∀ results : List (TrialResult Binary64),
      (∀ x, .mean x ∈ results → x.isFinite = true ∧ 0 < x) →
      2 ≤ (results.filterMap TrialResult.value?).length →
      (results.filterMap TrialResult.value?).length < 2 ^ 64 →
      ∃ a, aggregate results = .ok a ∧ a.Rounded (results.filterMap TrialResult.value?) := by
  let _ := Binary64.arithmetic log threeHalves
  intro results hpositive hlen2 hlen
  have hvalues := positive_of_mem_values hpositive
  rcases aggregate_cases results with ⟨-, a, ha, -⟩ | ⟨hfew, -⟩
  · exact ⟨a, ha, Aggregate.rounded_of_readFrom log threeHalves hvalues hlen2 hlen
      (readFrom_of_aggregate ha)⟩
  · exact absurd hlen2 (Nat.not_le_of_lt hfew)

theorem aggregate_rounded_pair :
    letI results : List (TrialResult Binary64) := [.mean 1, .degenerate, .mean (2 : ℕ)]
    (∀ x, .mean x ∈ results → x.isFinite = true ∧ 0 < x) ∧
    (2 ≤ (results.filterMap TrialResult.value?).length ∧
      (results.filterMap TrialResult.value?).length < 2 ^ 64) ∧
    ∃ a, aggregate results = .ok a ∧ a.Rounded [1, (2 : ℕ)] ∧
      a.stdDev.isFinite = true ∧ ¬ a.stdDev.isZero = true := by
  let results : List (TrialResult Binary64) := [.mean 1, .degenerate, .mean (2 : ℕ)]
  have hpositive : ∀ x, .mean x ∈ results → x.isFinite = true ∧ 0 < x := by
    intro x hx
    simp only [results, List.mem_cons, TrialResult.mean.injEq, reduceCtorEq, List.not_mem_nil,
      or_false, false_or] at hx
    rcases hx with rfl | rfl <;> decide
  have hlen2 : 2 ≤ (results.filterMap TrialResult.value?).length := Nat.le_refl 2
  have hlen : (results.filterMap TrialResult.value?).length < 2 ^ 64 := by decide
  obtain ⟨a, ha, hrounded⟩ := aggregate_rounded Binary64.log Binary64.threeHalves results hpositive
    hlen2 hlen
  have hpair : a.Rounded [1, (2 : ℕ)] := hrounded
  have hone : (1 : Binary64).toRat = 1 := Binary64.Represents.one.measures.toRat_eq
  have htwo : ((2 : ℕ) : Binary64).toRat = (2 : ℕ) :=
    (Binary64.represents_natCast (n := 2) (by decide)).measures.toRat_eq
  have hn : (a.n : ℚ) = 2 := by exact_mod_cast hpair.n_eq
  refine ⟨hpositive, ⟨hlen2, hlen⟩, a, ha, hpair, ?_, ?_⟩
  · refine hpair.finite_of_close 1 ?_ ?_
    · simp only [List.mem_cons, List.not_mem_nil, or_false, forall_eq_or_imp, forall_eq, hone, htwo]
      norm_num
    · rw [hn, one_pow, mul_one]
      exact le_self_pow₀ one_le_two (by decide)
  · intro hzero
    have hequal := hpair.equal_of_isZero 1 one_pos ?_ ?_ hzero 1 List.mem_cons_self (2 : ℕ)
      (List.mem_cons_of_mem _ List.mem_cons_self)
    · exact absurd hequal (by decide)
    · simp only [List.mem_cons, List.not_mem_nil, or_false, forall_eq_or_imp, forall_eq, hone, htwo]
      refine ⟨⟨fun h => absurd h (by decide), fun h => absurd h (by decide)⟩,
        fun _ => by norm_num, fun h => absurd h (by decide)⟩
    · rw [hn, one_pow, mul_one]
      exact le_self_pow₀ one_le_two (by decide)

/-- The results `10 ^ 200` and `3 * 10 ^ 200`. -/
def farResults : List (TrialResult Binary64) :=
  [.mean ⟨0x6974E718D7D7625A⟩, .mean ⟨0x698F5AA543C31387⟩]

def nearResults : List (TrialResult Binary64) :=
  [.mean ⟨0x16687E92154EF7AC⟩, .mean ⟨0x16825EED8FFB39C1⟩]

/-- **The spread of results can be lost.** Of two results that are far apart the deviation is
infinite, and of two different ones that are close together it is zero, although each of them is
finite and positive. -/
theorem spread_lost :
    (∀ x, .mean x ∈ farResults ++ nearResults → x.isFinite = true ∧ 0 < x) ∧
    (∃ a, aggregate farResults = .ok a ∧ a.stdDev = .infinity ∧ a.stdError = .infinity ∧
      a.lower = -.infinity ∧ a.upper = .infinity) ∧
    ∃ a, aggregate nearResults = .ok a ∧ a.stdDev.isZero = true ∧ a.min < a.max ∧
      a.lower = a.upper := by
  have hfar : (aggregate farResults).toOption.map
      (fun a => (a.stdDev, a.stdError, a.lower, a.upper)) =
        some (.infinity, .infinity, -.infinity, .infinity) := by
    decide +kernel
  have hnear : (aggregate nearResults).toOption.map
      (fun a => (a.stdDev.isZero, decide (a.min < a.max), decide (a.lower = a.upper))) =
        some (true, true, true) := by
    decide +kernel
  refine ⟨?_, ?_, ?_⟩
  · intro x hx
    simp only [farResults, nearResults, List.cons_append, List.nil_append, List.mem_cons,
      TrialResult.mean.injEq, List.not_mem_nil, or_false] at hx
    rcases hx with rfl | rfl | rfl | rfl <;> decide
  · obtain ⟨a, ha, hvalues⟩ := exists_ok_of_toOption hfar
    simp only [Prod.mk.injEq] at hvalues
    exact ⟨a, ha, hvalues⟩
  · obtain ⟨a, ha, hvalues⟩ := exists_ok_of_toOption hnear
    simp only [Prod.mk.injEq, decide_eq_true_eq] at hvalues
    exact ⟨a, ha, hvalues⟩

end Queueing
