import Queueing.Proofs.Binary64.Infinity
import Queueing.Proofs.Scheduler.Orderly

/-!
# Beyond the finite times

Times grow beyond all bounds in one way only: a sum that is not finite is one number, the
overflow, which absorbs everything that comes after it (`IsOverflow`). A wait that is not
negative, and finite or the overflow, is refused by a scheduler for this reason alone
(`Scheduler.overflow_of_schedule`). On binary64 numbers the overflow is infinity.
-/

namespace Queueing

variable {α : Type} [Arithmetic α]

/-- The one number beyond the finite times. -/
structure IsOverflow (top : α) : Prop where
  not_finite : Arithmetic.isFinite top = false
  /-- A sum of finite times leads nowhere else. -/
  eq_of_add {x y : α} : Arithmetic.isFinite x → Arithmetic.isFinite y → 0 ≤ x → 0 ≤ y →
    Arithmetic.isFinite (x + y) = false → x + y = top
  add_top {x : α} : Arithmetic.isFinite x → x + top = top
  top_add {x : α} : Arithmetic.isFinite x = true ∨ x = top → top + x = top
  max_top (x : α) : max x top = top
  top_max (x : α) : max top x = top

/-- A wait that may be asked for: not negative, and finite or the overflow. -/
structure IsWait (top x : α) : Prop where
  nonneg : 0 ≤ x
  finite_or_eq : Arithmetic.isFinite x = true ∨ x = top

/-- **A wait is refused only because it leads beyond the finite times.** -/
theorem Scheduler.overflow_of_schedule [LawfulTime α] {top x : α} (htop : IsOverflow top)
    {s : Scheduler α} (hs : s.Orderly) (hx : IsWait top x) {id : AgentId}
    {cause : SimulationError α} (h : s.schedule id x = .error cause) :
    cause = .invalidDelay top ∧ s.now + x = top := by
  rcases schedule_eq_error hs h with ⟨rfl, hnot⟩ | ⟨rfl, hfin, h0, hsum⟩
  · have heq : x = top := by
      refine hx.finite_or_eq.resolve_left ?_
      intro hfin
      exact hnot ⟨hfin, hx.nonneg⟩
    rw [heq]
    exact ⟨rfl, htop.add_top hs.now_finite⟩
  · have heq : s.now + x = top := by
      refine htop.eq_of_add hs.now_finite hfin hs.now_nonneg h0 ?_
      exact Bool.eq_false_iff.mpr hsum
    rw [heq]
    exact ⟨rfl, rfl⟩

theorem Binary64.isOverflow_infinity (log threeHalves : Binary64 → Binary64) :
    @IsOverflow Binary64 (Binary64.arithmetic log threeHalves) Binary64.infinity := by
  let _ := Binary64.arithmetic log threeHalves
  exact
    { not_finite := rfl
      eq_of_add := fun hx hy hx0 hy0 h => add_eq_infinity hx hy hx0 hy0 h
      add_top := fun hx => add_infinity hx
      top_add := fun hx => infinity_add hx
      max_top := max_infinity
      top_max := infinity_max }

end Queueing
