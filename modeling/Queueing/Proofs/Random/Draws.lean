import Queueing.Proofs.Binary64.Exact
import Queueing.Proofs.Overflow
import Queueing.Random.Xorshift

/-!
# Random numbers that are drawn

The numbers that a generator gives between zero and one are not rounded anywhere: they are the
top fifty-three bits of a word over `2 ^ 53`, and one less such a number
(`nextUnit_represents`, `nextPositive_represents`). So a logarithm is taken of numbers above
zero and up to one only, and what is drawn with an exponential distribution is a wait
(`isWait_draw`).
-/

namespace Queueing

/-- Of the numbers above zero and up to one, the logarithm is finite and not positive. -/
def Binary64.LawfulLog (log : Binary64 → Binary64) : Prop :=
  ∀ u : Binary64, 0 < u → u ≤ 1 → (log u).isFinite = true ∧ log u ≤ 0

namespace Xorshift

open Binary64

def topBits (g : Xorshift) : ℕ := (g.next.1 >>> 11).toNat

theorem topBits_lt (g : Xorshift) : g.topBits < 2 ^ 53 := by
  have hlt := g.next.1.toNat_lt
  rw [topBits, UInt64.toNat_shiftRight, Nat.shiftRight_eq_div_pow]
  show g.next.1.toNat / 2 ^ 11 < 2 ^ 53
  omega

theorem unitStep_represents :
    (1 / ((unitSteps : Nat) : Binary64)).Represents (2 ^ (-53 : ℤ)) := by
  have hbits : (1 / ((unitSteps : Nat) : Binary64)) = ⟨0x3CA0000000000000⟩ := by decide +kernel
  rw [hbits]
  refine ⟨rfl, rfl, ?_⟩
  rw [show (⟨0x3CA0000000000000⟩ : Binary64).magnitude.toNat = place (2 ^ 52) (-105) from rfl,
    magnitudeValue_place ⟨by decide, by decide, Or.inl le_rfl⟩]
  norm_num

section

variable (log threeHalves : Binary64 → Binary64)

/-- **A number in `[0, 1)` is the top bits of a word over `2 ^ 53`**, without rounding. -/
theorem nextUnit_represents (g : Xorshift) :
    letI := Binary64.arithmetic log threeHalves
    (g.nextUnit Binary64).1.Represents (g.topBits * 2 ^ (-53 : ℤ)) := by
  have hlt := g.topBits_lt
  exact (represents_natCast hlt).mul unitStep_represents
    (representable_of_le hlt.le (by decide) (by decide))

/-- **A number in `(0, 1]` is what is left of one**, without rounding. -/
theorem nextPositive_represents (g : Xorshift) :
    letI := Binary64.arithmetic log threeHalves
    (g.nextPositive Binary64).1.Represents ((2 ^ 53 - g.topBits : ℕ) * 2 ^ (-53 : ℤ)) := by
  have hlt := g.topBits_lt
  have hvalue : (1 : ℚ) - g.topBits * 2 ^ (-53 : ℤ) =
      (2 ^ 53 - g.topBits : ℕ) * 2 ^ (-53 : ℤ) := by
    rw [Nat.cast_sub hlt.le]
    push_cast
    ring
  rw [← hvalue]
  refine Represents.one.sub (nextUnit_represents log threeHalves g) ?_
  rw [hvalue]
  exact representable_of_le (Nat.sub_le _ _) (by decide) (by decide)

theorem nextPositive_mem (g : Xorshift) :
    letI := Binary64.arithmetic log threeHalves
    0 < (g.nextPositive Binary64).1 ∧ (g.nextPositive Binary64).1 ≤ 1 := by
  have hlt := g.topBits_lt
  have hu := nextPositive_represents log threeHalves g
  have hstep : (0 : ℚ) < 2 ^ (-53 : ℤ) := zpow_pos two_pos _
  constructor
  · refine (Represents.zero.lt_iff hu).mpr (mul_pos ?_ hstep)
    exact Nat.cast_pos.mpr (by omega)
  · refine (hu.le_iff .one).mpr ?_
    have hle : ((2 ^ 53 - g.topBits : ℕ) : ℚ) ≤ 2 ^ 53 := by
      exact_mod_cast Nat.sub_le (2 ^ 53) g.topBits
    calc ((2 ^ 53 - g.topBits : ℕ) : ℚ) * 2 ^ (-53 : ℤ)
        ≤ 2 ^ 53 * 2 ^ (-53 : ℤ) := mul_le_mul_of_nonneg_right hle hstep.le
      _ = 1 := by norm_num

variable {log}

/-- **What is drawn is a wait**: not negative, and finite or infinity. -/
theorem isWait_draw (hlog : LawfulLog log) {rate : Binary64} :
    letI := Binary64.arithmetic log threeHalves
    isRate rate = true →
      ∀ g : Xorshift, IsWait infinity (-(log (g.nextPositive Binary64).1) / rate) := by
  let _ := Binary64.arithmetic log threeHalves
  intro hrate g
  obtain ⟨hpos, hle⟩ := nextPositive_mem log threeHalves g
  obtain ⟨hfin, hnonpos⟩ := hlog _ hpos hle
  obtain ⟨hfin, hsign⟩ := neg_of_nonpos hfin hnonpos
  rw [isRate, Bool.and_eq_true, decide_eq_true_eq] at hrate
  obtain ⟨h0, hor⟩ := div_of_nonneg hfin hrate.1 hsign hrate.2
  exact ⟨h0, hor⟩

end

end Xorshift

end Queueing
