import Queueing.Proofs.Random.Draws
import Queueing.Proofs.Random.Words

/-!
# Random numbers between zero and one

A number that a generator gives between zero and one is a multiple of `2 ^ -53` that no step of
the arithmetic rounds. Since stirring and reading a state are bijections, every such multiple is
given by some state (`exists_topBits`): all of `[0, 1)` for the numbers that may be zero, all of
`(0, 1]` for those whose logarithm is taken (`units_exact`). So an exponential draw is never
undefined and never negative, whichever of its `2 ^ 53` numbers comes up.
-/

namespace Queueing.Xorshift

open Binary64

/-! ## Every multiple is reached -/

theorem exists_topBits {k : ℕ} (hk : k < 2 ^ 53) : ∃ g : Xorshift, g.state ≠ 0 ∧ g.topBits = k := by
  -- the lowest bit is set besides, since the output of the state zero is the word zero
  obtain ⟨stirred, hstirred⟩ := output_bijective.surjective (UInt64.ofNat (k * 2 ^ 11 + 1))
  obtain ⟨state, hstate⟩ := stir_bijective.surjective stirred
  have hword : ((⟨state⟩ : Xorshift).next.1).toNat = k * 2 ^ 11 + 1 := by
    show (output (stir state)).toNat = _
    rw [hstate, hstirred]
    exact UInt64.toNat_ofNat_of_lt' (by simp only [UInt64.size]; omega)
  refine ⟨⟨state⟩, ?_, ?_⟩
  · rintro (rfl : state = 0)
    cases hword
  · rw [topBits, UInt64.toNat_shiftRight, hword, Nat.shiftRight_eq_div_pow]
    show (k * 2 ^ 11 + 1) / 2 ^ 11 = k
    omega

/-! ## Values without rounding -/

section

variable (log threeHalves : Binary64 → Binary64)

theorem represents_unit (g : Xorshift) :
    letI := Binary64.arithmetic log threeHalves
    (g.nextUnit Binary64).1.Represents (g.topBits / 2 ^ 53) := by
  have h := nextUnit_represents log threeHalves g
  rwa [zpow_neg, ← div_eq_mul_inv] at h

theorem represents_positive (g : Xorshift) :
    letI := Binary64.arithmetic log threeHalves
    (g.nextPositive Binary64).1.Represents ((2 ^ 53 - g.topBits) / 2 ^ 53) := by
  have h := nextPositive_represents log threeHalves g
  rw [Nat.cast_sub g.topBits_lt.le, zpow_neg, ← div_eq_mul_inv] at h
  exact_mod_cast h

theorem unit_mem (g : Xorshift) :
    letI := Binary64.arithmetic log threeHalves
    0 ≤ (g.nextUnit Binary64).1 ∧ (g.nextUnit Binary64).1 < 1 := by
  have hunit := represents_unit log threeHalves g
  have hlt : (g.topBits : ℚ) < 2 ^ 53 := by exact_mod_cast g.topBits_lt
  constructor
  · apply (Represents.zero.le_iff hunit).mpr
    positivity
  · apply (hunit.lt_iff .one).mpr
    exact (div_lt_one (by positivity)).mpr hlt

theorem step_le_positive (g : Xorshift) :
    letI := Binary64.arithmetic log threeHalves
    1 / ((unitSteps : Nat) : Binary64) ≤ (g.nextPositive Binary64).1 := by
  apply (unitStep_represents.le_iff (nextPositive_represents log threeHalves g)).mpr
  have hle : (1 : ℚ) ≤ (2 ^ 53 - g.topBits : ℕ) := by
    exact_mod_cast Nat.sub_pos_of_lt g.topBits_lt
  have hstep : (0 : ℚ) < 2 ^ (-53 : ℤ) := zpow_pos two_pos _
  exact le_mul_of_one_le_left hstep.le hle

end

/-- **The numbers that are drawn**, whatever the platform takes for the logarithm of numbers above
zero and up to one, as long as it is finite and not positive. The top bits of a word become a
number, are scaled and are taken from one without rounding; every multiple of the step in `[0, 1)`
and in `(0, 1]` is the value of some state that is not zero. An exponential draw takes the logarithm
of a number above zero, and is a number that is not negative, or infinity. -/
theorem units_exact (log threeHalves : Binary64 → Binary64) :
    letI := Binary64.arithmetic log threeHalves
    (∀ g : Xorshift,
      ((g.next.1 >>> 11).toNat : Binary64).Represents g.topBits ∧
      (1 / ((unitSteps : Nat) : Binary64)).Represents (2 ^ (-53 : ℤ)) ∧
      (g.nextUnit Binary64).1.Represents (g.topBits / 2 ^ 53) ∧
      (g.nextPositive Binary64).1.Represents ((2 ^ 53 - g.topBits) / 2 ^ 53) ∧
      (0 ≤ (g.nextUnit Binary64).1 ∧ (g.nextUnit Binary64).1 < 1) ∧
      (0 < (g.nextPositive Binary64).1 ∧ (g.nextPositive Binary64).1 ≤ 1) ∧
      1 / ((unitSteps : Nat) : Binary64) ≤ (g.nextPositive Binary64).1) ∧
    (∀ k : ℕ, k < 2 ^ 53 →
      ∃ g : Xorshift, g.state ≠ 0 ∧ (g.nextUnit Binary64).1.Represents (k / 2 ^ 53)) ∧
    (∀ k : ℕ, 0 < k → k ≤ 2 ^ 53 →
      ∃ g : Xorshift, g.state ≠ 0 ∧ (g.nextPositive Binary64).1.Represents (k / 2 ^ 53)) ∧
    (LawfulLog log → ∀ rate : Binary64, isRate rate = true → ∀ g : Xorshift,
      ∃ x, g.exponential rate = .ok (x, g.next.2) ∧
        x = -(log (g.nextPositive Binary64).1) / rate ∧ x.isNaN = false ∧ ¬ x < 0) := by
  let _ := Binary64.arithmetic log threeHalves
  refine ⟨?_, ?_, ?_, ?_⟩
  · intro g
    exact ⟨represents_natCast g.topBits_lt, unitStep_represents, represents_unit log threeHalves g,
      represents_positive log threeHalves g, unit_mem log threeHalves g,
      nextPositive_mem log threeHalves g, step_le_positive log threeHalves g⟩
  · intro k hk
    obtain ⟨g, hg, rfl⟩ := exists_topBits hk
    exact ⟨g, hg, represents_unit log threeHalves g⟩
  · intro k hpos hk
    obtain ⟨g, hg, hbits⟩ := exists_topBits (k := 2 ^ 53 - k) (by omega)
    refine ⟨g, hg, ?_⟩
    have hvalue := represents_positive log threeHalves g
    have hk : ((2 : ℚ) ^ 53 - (2 ^ 53 - k : ℕ)) = k := by
      rw [Nat.cast_sub hk]
      push_cast
      ring
    rwa [hbits, hk] at hvalue
  · intro hlog rate hrate g
    have hwait := isWait_draw threeHalves hlog hrate g
    refine ⟨_, ?_, rfl, ?_, ?_⟩
    · rw [exponential, if_pos hrate]
      rfl
    · exact (le_iff.mp hwait.nonneg).2.1
    · exact Binary64.not_lt_of_le hwait.nonneg

/-- The generator whose next word has all bits set, so that the least number is drawn. -/
def leastDrawer : Xorshift := ⟨0xA8D395BE4B19CCE8⟩

def leastLog (u : Binary64) : Binary64 :=
  if u = ⟨0x3CA0000000000000⟩ then ⟨0xC0425E4F7B2737FA⟩ else 0

/-- At the least rate of all the draw leaves the range: it is infinity, and still no NaN. -/
theorem units_exact_least :
    letI := Binary64.arithmetic leastLog Binary64.threeHalves
    LawfulLog leastLog ∧ isRate (⟨1⟩ : Binary64) = true ∧
      leastDrawer.topBits = 2 ^ 53 - 1 ∧
      leastDrawer.exponential (⟨1⟩ : Binary64) = .ok (infinity, leastDrawer.next.2) ∧
      ∃ x, leastDrawer.exponential (⟨1⟩ : Binary64) = .ok (x, leastDrawer.next.2) ∧
        x = -(leastLog (leastDrawer.nextPositive Binary64).1) / ⟨1⟩ ∧
        x.isNaN = false ∧ ¬ x < 0 := by
  let _ := Binary64.arithmetic leastLog Binary64.threeHalves
  have hlog : LawfulLog leastLog := by
    intro u _ _
    unfold leastLog
    split_ifs <;> decide
  have hrate : isRate (⟨1⟩ : Binary64) = true := by decide +kernel
  obtain ⟨-, -, -, hdraws⟩ := units_exact leastLog Binary64.threeHalves
  exact ⟨hlog, hrate, by decide +kernel, by decide +kernel, hdraws hlog ⟨1⟩ hrate leastDrawer⟩

end Queueing.Xorshift
