import Mathlib.Order.Compare
import Queueing.Arithmetic
import Queueing.Proofs.Binary64.Addition

/-!
# The laws of time

What a simulation needs of its numbers to keep its clock in order is little: the numeric
comparison is transitive, the total order by which events are queued refines it, waiting
moves time forward however the sum is rounded, and waiting for nothing leaves the time as
it is. `LawfulTime` collects these laws, and binary64 numbers have them under every
logarithm.
-/

namespace Queueing

/-- Numbers that may serve as times. -/
class LawfulTime (α : Type) [Arithmetic α] : Prop where
  /-- The total order is one, and equates nothing but equal numbers. -/
  transCmp : Std.TransCmp (Arithmetic.compareTotal (α := α))
  lawfulEqCmp : Std.LawfulEqCmp (Arithmetic.compareTotal (α := α))
  le_refl {x : α} : Arithmetic.isFinite x → x ≤ x
  le_trans {x y z : α} : x ≤ y → y ≤ z → x ≤ z
  /-- The total order refines the numeric one. -/
  le_of_compareTotal {x y : α} : Arithmetic.isFinite x → Arithmetic.isFinite y →
    (Arithmetic.compareTotal x y).isLE → x ≤ y
  isFinite_zero : Arithmetic.isFinite (0 : α)
  /-- Waiting does not move time backward. -/
  le_add {x y : α} : Arithmetic.isFinite x → Arithmetic.isFinite y → 0 ≤ x → 0 ≤ y → x ≤ x + y
  /-- No wait leads from a time at or above zero in the total order to one below it. -/
  compareTotal_add {x y : α} : Arithmetic.isFinite x → Arithmetic.isFinite y →
    (Arithmetic.compareTotal 0 x).isLE → 0 ≤ y → (Arithmetic.compareTotal 0 (x + y)).isLE
  /-- Waiting for nothing leaves such a time as it is. -/
  add_zero {x : α} : Arithmetic.isFinite x → (Arithmetic.compareTotal 0 x).isLE → x + 0 = x
  /-- Of such times, the two orders say the same. -/
  compareTotal_of_le {x y : α} : (Arithmetic.compareTotal 0 x).isLE →
    (Arithmetic.compareTotal 0 y).isLE → x ≤ y → (Arithmetic.compareTotal x y).isLE
  max_of_le {x y : α} : x ≤ y → max x y = y
  max_of_ge {x y : α} : (Arithmetic.compareTotal 0 x).isLE →
    (Arithmetic.compareTotal 0 y).isLE → y ≤ x → max x y = x

attribute [instance] LawfulTime.transCmp LawfulTime.lawfulEqCmp

/-- A reading of a clock that starts at zero: finite, and not below zero in the total
order, which leaves out the zero with a sign. -/
structure IsTime {α : Type} [Arithmetic α] (t : α) : Prop where
  finite : Arithmetic.isFinite t = true
  nonneg : (Arithmetic.compareTotal 0 t).isLE = true

namespace IsTime

variable {α : Type} [Arithmetic α] [LawfulTime α] {t u : α}

theorem zero : IsTime (0 : α) :=
  ⟨LawfulTime.isFinite_zero, Std.ReflCmp.isLE_rfl⟩

theorem zero_le (h : IsTime t) : 0 ≤ t :=
  LawfulTime.le_of_compareTotal LawfulTime.isFinite_zero h.finite h.nonneg

theorem le_refl (h : IsTime t) : t ≤ t := LawfulTime.le_refl h.finite

theorem add_zero (h : IsTime t) : t + 0 = t := LawfulTime.add_zero h.finite h.nonneg

theorem isLE_compareTotal_iff (ht : IsTime t) (hu : IsTime u) :
    (Arithmetic.compareTotal t u).isLE = true ↔ t ≤ u :=
  ⟨LawfulTime.le_of_compareTotal ht.finite hu.finite,
    LawfulTime.compareTotal_of_le ht.nonneg hu.nonneg⟩

theorem le_antisymm (ht : IsTime t) (hu : IsTime u) (h : t ≤ u) (h' : u ≤ t) : t = u :=
  Std.LawfulEqCmp.eq_of_compare (Std.OrientedCmp.isLE_antisymm
    ((isLE_compareTotal_iff ht hu).mpr h) ((isLE_compareTotal_iff hu ht).mpr h'))

/-- A wait that leads to a finite time leads to a later reading of the clock. -/
theorem add (ht : IsTime t) (hu : Arithmetic.isFinite u = true) (hu0 : 0 ≤ u)
    (hfin : Arithmetic.isFinite (t + u) = true) : IsTime (t + u) ∧ t ≤ t + u :=
  ⟨⟨hfin, LawfulTime.compareTotal_add ht.finite hu ht.nonneg hu0⟩,
    LawfulTime.le_add ht.finite hu ht.zero_le hu0⟩

end IsTime

/-! ## Binary64 numbers are times -/

namespace Binary64

theorem max_of_le {x y : Binary64} (h : x ≤ y) : max x y = y := by
  have hlt : ¬ y < x := by
    intro h'
    have := (le_iff.mp h).2.2
    have := (lt_iff.mp h').2.2
    omega
  show (if y.isNaN || decide (y < x) then x else y) = y
  rw [(le_iff.mp h).2.1, Bool.false_or, decide_eq_false hlt]
  rfl

theorem isLE_compareTotal_of_le {x y : Binary64} (hx : (compareTotal 0 x).isLE = true)
    (hy : (compareTotal 0 y).isLE = true) (h : x ≤ y) : (x.compareTotal y).isLE = true := by
  have hpos := (le_iff.mp h).2.2
  rw [position_of_sign (Or.inl (sign_of_compareTotal hx)),
    position_of_sign (Or.inl (sign_of_compareTotal hy))] at hpos
  have hxb := x.toNat_bits_eq
  have hyb := y.toNat_bits_eq
  rw [sign_of_compareTotal hx] at hxb
  rw [sign_of_compareTotal hy] at hyb
  have hx63 : x.magnitude.toNat < 2 ^ 63 := by rw [toNat_magnitude]; omega
  have hy63 : y.magnitude.toNat < 2 ^ 63 := by rw [toNat_magnitude]; omega
  rw [signPart] at hxb hyb
  rw [isLE_compareTotal_iff, toNat_rank, toNat_rank, if_neg (by omega), if_neg (by omega)]
  omega

theorem max_of_ge {x y : Binary64} (hx : (compareTotal 0 x).isLE = true)
    (hy : (compareTotal 0 y).isLE = true) (h : y ≤ x) : max x y = x := by
  by_cases hlt : y < x
  · show (if y.isNaN || decide (y < x) then x else y) = x
    rw [decide_eq_true hlt, Bool.or_true]
    rfl
  · have hle : x ≤ y := by
      obtain ⟨hn, hn', -⟩ := le_iff.mp h
      exact (le_or_lt hn hn').resolve_right hlt
    rw [max_of_le hle]
    exact Std.LawfulEqCmp.eq_of_compare (Std.OrientedCmp.isLE_antisymm
      (isLE_compareTotal_of_le hy hx h) (isLE_compareTotal_of_le hx hy hle))

/-- **Binary64 numbers are times**, whatever the platform takes for the logarithm. -/
instance lawfulTime (log threeHalves : Binary64 → Binary64) :
    @LawfulTime Binary64 (Binary64.arithmetic log threeHalves) := by
  let _ := Binary64.arithmetic log threeHalves
  exact
    { transCmp := inferInstanceAs (Std.TransCmp compareTotal)
      lawfulEqCmp := inferInstanceAs (Std.LawfulEqCmp compareTotal)
      le_refl := le_refl_of_isFinite
      le_trans := Binary64.le_trans
      le_of_compareTotal := le_of_compareTotal
      isFinite_zero := show Binary64.isFinite 0 = true from rfl
      le_add := fun hx hy hx0 hy0 => le_add_of_nonneg hx hy hx0 hy0
      compareTotal_add := fun hx hy hx0 hy0 =>
        compareTotal_zero_of_sign (sign_add_of_nonneg hx hy (sign_of_compareTotal hx0) hy0)
      add_zero := fun hx hx0 => add_zero_of_sign hx (sign_of_compareTotal hx0)
      compareTotal_of_le := isLE_compareTotal_of_le
      max_of_le := max_of_le
      max_of_ge := max_of_ge }

end Binary64

end Queueing
