import Mathlib.Order.Compare
import Mathlib.Data.Nat.Bitwise
import Queueing.Binary64.Basic

/-!
# The two orders of binary64 numbers

Both orders are read off natural numbers. The total order compares `rank`, an injective
function of the pattern. The numeric order compares `position`, the signed magnitude, at
which the two zeros meet. Where numbers are not NaN, the rank never contradicts the
position (`position_le_of_rank_le`), so the total order refines the numeric one.
-/

namespace Queueing

namespace Binary64

/-! ## Patterns as natural numbers -/

theorem toNat_bits_lt (x : Binary64) : x.bits.toNat < 2 ^ 64 := x.bits.toNat_lt

theorem toNat_magnitude (x : Binary64) : x.magnitude.toNat = x.bits.toNat % 2 ^ 63 := by
  have h : (0x7FFFFFFFFFFFFFFF : UInt64).toNat = 2 ^ 63 - 1 := rfl
  rw [magnitude, UInt64.toNat_and, h, Nat.and_two_pow_sub_one_eq_mod]

theorem isNegative_iff (x : Binary64) : x.isNegative = true ↔ 2 ^ 63 ≤ x.bits.toNat := by
  simp only [isNegative, decide_eq_true_eq, UInt64.le_iff_toNat_le]
  rfl

theorem isNaN_iff (x : Binary64) :
    x.isNaN = true ↔ 0x7FF0000000000000 < x.magnitude.toNat := by
  simp only [isNaN, decide_eq_true_eq, UInt64.lt_iff_toNat_lt]
  rfl

theorem isFinite_iff (x : Binary64) :
    x.isFinite = true ↔ x.magnitude.toNat < 0x7FF0000000000000 := by
  simp only [isFinite, decide_eq_true_eq, UInt64.lt_iff_toNat_lt]
  rfl

theorem isZero_iff (x : Binary64) : x.isZero = true ↔ x.magnitude.toNat = 0 := by
  simp only [isZero, beq_iff_eq, ← UInt64.toNat_inj]
  rfl

theorem eq_of_magnitude {x y : Binary64} (hs : x.isNegative = y.isNegative)
    (hm : x.magnitude.toNat = y.magnitude.toNat) : x = y := by
  have hx := x.toNat_bits_lt
  have hy := y.toNat_bits_lt
  have hsign : 2 ^ 63 ≤ x.bits.toNat ↔ 2 ^ 63 ≤ y.bits.toNat := by
    rw [← isNegative_iff, ← isNegative_iff, hs]
  rw [toNat_magnitude, toNat_magnitude] at hm
  have hb : x.bits.toNat = y.bits.toNat := by omega
  cases x
  cases y
  exact congrArg Binary64.mk (UInt64.toNat_inj.mp hb)

theorem toNat_rank (x : Binary64) :
    x.rank.toNat =
      if 2 ^ 63 ≤ x.bits.toNat then 2 ^ 64 - 1 - x.bits.toNat else x.bits.toNat + 2 ^ 63 := by
  have hlt := x.toNat_bits_lt
  by_cases h : 2 ^ 63 ≤ x.bits.toNat
  · rw [if_pos h, rank, if_pos ((isNegative_iff x).mpr h), UInt64.toNat_not]
    rfl
  · have hs : signBit.toNat = 2 ^ 63 := rfl
    have hor : x.bits.toNat ||| 2 ^ 63 = 2 ^ 63 * 1 + x.bits.toNat := by
      rw [Nat.or_comm, Nat.two_pow_add_eq_or_of_lt (by omega), Nat.mul_one]
    rw [if_neg h, rank, if_neg (fun hn => h ((isNegative_iff x).mp hn)), UInt64.toNat_or, hs, hor]
    omega

/-! ## The total order -/

theorem rank_injective {x y : Binary64} (h : x.rank = y.rank) : x = y := by
  have hx := x.toNat_bits_lt
  have hy := y.toNat_bits_lt
  have hr := congrArg UInt64.toNat h
  rw [toNat_rank, toNat_rank] at hr
  have hb : x.bits.toNat = y.bits.toNat := by
    split_ifs at hr <;> omega
  cases x
  cases y
  exact congrArg Binary64.mk (UInt64.toNat_inj.mp hb)

instance : Std.TransCmp compareTotal :=
  inferInstanceAs (Std.TransCmp (compareOn rank))

instance : Std.LawfulEqCmp compareTotal where
  eq_of_compare h := rank_injective (Std.LawfulEqCmp.eq_of_compare h)

theorem isLE_compareTotal_iff {x y : Binary64} :
    (x.compareTotal y).isLE = true ↔ x.rank.toNat ≤ y.rank.toNat := by
  rw [compareTotal, Std.isLE_compare, UInt64.le_iff_toNat_le]

/-! ## The numeric order -/

/-- The place of a pattern on the number line, in steps of the format: its magnitude, with
its sign. The zeros share a place. -/
def position (x : Binary64) : Int :=
  if x.isNegative then -(x.magnitude.toNat : Int) else x.magnitude.toNat

theorem position_eq (x : Binary64) :
    x.position = if 2 ^ 63 ≤ x.bits.toNat then (2 : Int) ^ 63 - x.bits.toNat
      else (x.bits.toNat : Int) := by
  have hlt := x.toNat_bits_lt
  simp only [position, isNegative_iff, toNat_magnitude]
  split_ifs <;> omega

/-- The total order refines the numeric one, on all patterns. -/
theorem position_le_of_rank_le {x y : Binary64} (h : x.rank.toNat ≤ y.rank.toNat) :
    x.position ≤ y.position := by
  have hx := x.toNat_bits_lt
  have hy := y.toNat_bits_lt
  rw [toNat_rank, toNat_rank] at h
  rw [position_eq, position_eq]
  split_ifs at h ⊢ <;> omega

theorem le_iff {x y : Binary64} :
    x ≤ y ↔ x.isNaN = false ∧ y.isNaN = false ∧ x.position ≤ y.position := by
  have hx := x.toNat_bits_lt
  have hy := y.toNat_bits_lt
  show x.le y = true ↔ _
  simp only [Binary64.le, Bool.and_eq_true, Bool.or_eq_true, Bool.not_eq_true',
    decide_eq_true_eq, UInt64.le_iff_toNat_le, toNat_rank, isZero_iff, toNat_magnitude,
    position_eq, and_assoc]
  refine and_congr_right fun _ => and_congr_right fun _ => ?_
  split_ifs <;> omega

theorem lt_iff {x y : Binary64} :
    x < y ↔ x.isNaN = false ∧ y.isNaN = false ∧ x.position < y.position := by
  have hx := x.toNat_bits_lt
  have hy := y.toNat_bits_lt
  show x.lt y = true ↔ _
  simp only [Binary64.lt, Bool.and_eq_true, Bool.not_eq_true', decide_eq_true_eq,
    UInt64.lt_iff_toNat_lt, toNat_rank, ← Bool.not_eq_true, isZero_iff,
    toNat_magnitude, position_eq, and_assoc]
  refine and_congr_right fun _ => and_congr_right fun _ => ?_
  split_ifs <;> omega

theorem isNaN_eq_false_of_isFinite {x : Binary64} (h : x.isFinite = true) :
    x.isNaN = false := by
  rw [isFinite_iff] at h
  rw [← Bool.not_eq_true, isNaN_iff]
  omega

theorem le_refl_of_isFinite {x : Binary64} (h : x.isFinite = true) : x ≤ x :=
  le_iff.mpr ⟨isNaN_eq_false_of_isFinite h, isNaN_eq_false_of_isFinite h, Int.le_refl _⟩

protected theorem le_trans {x y z : Binary64} (hxy : x ≤ y) (hyz : y ≤ z) : x ≤ z := by
  rw [le_iff] at *
  exact ⟨hxy.1, hyz.2.1, Int.le_trans hxy.2.2 hyz.2.2⟩

protected theorem lt_of_lt_of_le {x y z : Binary64} (hxy : x < y) (hyz : y ≤ z) : x < z := by
  rw [lt_iff] at hxy ⊢
  rw [le_iff] at hyz
  exact ⟨hxy.1, hyz.2.1, by omega⟩

protected theorem le_of_lt {x y : Binary64} (h : x < y) : x ≤ y := by
  obtain ⟨hx, hy, hpos⟩ := lt_iff.mp h
  exact le_iff.mpr ⟨hx, hy, Int.le_of_lt hpos⟩

protected theorem not_lt_of_le {x y : Binary64} (h : x ≤ y) : ¬ y < x := by
  intro hlt
  have := (le_iff.mp h).2.2
  have := (lt_iff.mp hlt).2.2
  omega

theorem le_or_lt {x y : Binary64} (hx : x.isNaN = false) (hy : y.isNaN = false) :
    y ≤ x ∨ x < y := by
  by_cases hpos : y.position ≤ x.position
  · exact Or.inl (le_iff.mpr ⟨hy, hx, hpos⟩)
  · exact Or.inr (lt_iff.mpr ⟨hx, hy, Int.not_le.mp hpos⟩)

protected theorem le_of_not_lt {x y : Binary64} (hx : x.isFinite = true) (hy : y.isFinite = true)
    (h : ¬ x < y) : y ≤ x :=
  (le_or_lt (isNaN_eq_false_of_isFinite hx) (isNaN_eq_false_of_isFinite hy)).resolve_right h

theorem beq_of_le_of_le {x y : Binary64} (hxy : x ≤ y) (hyx : y ≤ x) : (x == y) = true := by
  have hx := x.toNat_bits_lt
  have hy := y.toNat_bits_lt
  obtain ⟨hxn, hyn, hle⟩ := le_iff.mp hxy
  have hpos : x.position = y.position := Int.le_antisymm hle (le_iff.mp hyx).2.2
  show x.beq y = true
  simp only [Binary64.beq, hxn, hyn, Bool.not_false, Bool.true_and, Bool.or_eq_true, beq_iff_eq,
    Bool.and_eq_true, isZero_iff, toNat_magnitude, ← UInt64.toNat_inj]
  rw [position_eq, position_eq] at hpos
  split_ifs at hpos <;> omega

theorem le_of_rank_le {x y : Binary64} (hx : x.isNaN = false) (hy : y.isNaN = false)
    (h : x.rank.toNat ≤ y.rank.toNat) : x ≤ y :=
  le_iff.mpr ⟨hx, hy, position_le_of_rank_le h⟩

theorem le_of_compareTotal {x y : Binary64} (hx : x.isFinite = true) (hy : y.isFinite = true)
    (h : (x.compareTotal y).isLE = true) : x ≤ y :=
  le_of_rank_le (isNaN_eq_false_of_isFinite hx) (isNaN_eq_false_of_isFinite hy)
    (isLE_compareTotal_iff.mp h)

theorem compareTotal_of_lt {x y : Binary64} (h : x < y) : x.compareTotal y = .lt := by
  refine Std.OrientedCmp.lt_of_not_isLE fun hle => ?_
  have hpos := position_le_of_rank_le (isLE_compareTotal_iff.mp hle)
  exact absurd (lt_iff.mp h).2.2 (by omega)

/-! ## Where the NaNs stand -/

theorem negativeNaN_of_rank_le {x y : Binary64} (h : x.rank.toNat ≤ y.rank.toNat)
    (hy : y.isNaN = true) (hneg : y.isNegative = true) :
    x.isNaN = true ∧ x.isNegative = true := by
  have hlt := x.toNat_bits_lt
  rw [isNaN_iff, toNat_magnitude] at hy ⊢
  rw [isNegative_iff] at hneg ⊢
  rw [toNat_rank, toNat_rank, if_pos hneg] at h
  split_ifs at h <;> omega

theorem positiveNaN_of_rank_le {x y : Binary64} (h : x.rank.toNat ≤ y.rank.toNat)
    (hx : x.isNaN = true) (hpos : x.isNegative = false) :
    y.isNaN = true ∧ y.isNegative = false := by
  have hlt := y.toNat_bits_lt
  rw [isNaN_iff, toNat_magnitude] at hx ⊢
  rw [← Bool.not_eq_true, isNegative_iff] at hpos ⊢
  rw [toNat_rank, toNat_rank, if_neg hpos] at h
  split_ifs at h <;> omega

end Binary64

end Queueing
