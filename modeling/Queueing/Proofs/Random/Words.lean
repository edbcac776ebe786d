import Mathlib.Data.Fintype.EquivFin
import Queueing.Random.Xorshift

/-!
# Streams of random words

Folding a word onto itself, moved by one place or more to either side, loses nothing, and neither
does a multiplication by an odd constant. So stirring a state and reading its output are both
bijections of the words (`stir_bijective`, `output_bijective`): no state but zero is stirred to
zero, states that differ once differ from then on, in their outputs too, and a generator can be
replayed from any of its states (`streams_apart`).
-/

namespace Queueing.Xorshift

/-! ## Folding a word -/

/-- Each bit is told by the folded word and the bits above it. -/
theorem fold_right_injective {w k : ℕ} (hk : 0 < k) :
    Function.Injective fun x : BitVec w => x ^^^ (x >>> k) := by
  intro x y h
  have hbit : ∀ i, (x.getLsbD i ^^ x.getLsbD (k + i)) = (y.getLsbD i ^^ y.getLsbD (k + i)) := by
    intro i
    simpa using congrArg (·.getLsbD i) h
  -- from the top bit down: `n` counts the bits that are known already
  have hknown : ∀ n i, w ≤ i + n → x.getLsbD i = y.getLsbD i := by
    intro n
    induction n with
    | zero =>
      intro i hi
      rw [BitVec.getLsbD_of_ge x i hi, BitVec.getLsbD_of_ge y i hi]
    | succ n ih =>
      intro i hi
      have h := hbit i
      rw [ih (k + i) (by omega)] at h
      exact Bool.xor_left_inj.mp h
  apply BitVec.eq_of_getLsbD_eq
  intro i _
  exact hknown w i (Nat.le_add_left w i)

theorem fold_left_injective {w k : ℕ} (hk : 0 < k) :
    Function.Injective fun x : BitVec w => x ^^^ (x <<< k) := by
  intro x y h
  have hbit : ∀ i < w, (x.getLsbD i ^^ (!decide (i < k) && x.getLsbD (i - k))) =
      (y.getLsbD i ^^ (!decide (i < k) && y.getLsbD (i - k))) := by
    intro i hi
    have h := congrArg (·.getLsbD i) h
    simpa only [BitVec.getLsbD_xor, BitVec.getLsbD_shiftLeft, hi, decide_true, Bool.true_and]
      using h
  apply BitVec.eq_of_getLsbD_eq
  intro i
  -- from the lowest bit up
  induction i using Nat.strong_induction_on with
  | _ i ih =>
    intro hi
    have h := hbit i hi
    by_cases hik : i < k
    · simpa [hik] using h
    · rw [ih (i - k) (by omega) (by omega)] at h
      exact Bool.xor_left_inj.mp h

theorem bijective_of_injective {f : UInt64 → UInt64} (h : Function.Injective f) :
    Function.Bijective f := by
  have : Finite UInt64 := Finite.of_injective UInt64.toFin fun _ _ h => UInt64.toFin_inj.mp h
  exact Finite.injective_iff_bijective.mp h

/-! ## Stirring and reading a state -/

theorem stir_injective : Function.Injective stir := by
  intro x y h
  have h := congrArg UInt64.toBitVec h
  simp only [stir, UInt64.toBitVec_xor, UInt64.toBitVec_shiftRight, UInt64.toBitVec_shiftLeft] at h
  have h := fold_right_injective (k := 27) (by decide) h
  have h := fold_left_injective (k := 25) (by decide) h
  exact UInt64.toBitVec_inj.mp (fold_right_injective (k := 12) (by decide) h)

/-- The number that undoes a multiplication by the constant of the output. -/
def outputInverse : UInt64 := 0x59071D96D81ECD35

theorem output_injective : Function.Injective output := by
  intro x y h
  have hinverse : (0x2545F4914F6CDD1D : UInt64) * outputInverse = 1 := by decide
  have h := congrArg (· * outputInverse) h
  simpa only [output, UInt64.mul_assoc, hinverse, UInt64.mul_one] using h

theorem stir_bijective : Function.Bijective stir := bijective_of_injective stir_injective

theorem output_bijective : Function.Bijective output := bijective_of_injective output_injective

/-- **Only zero is stirred to zero.** -/
theorem stir_eq_zero_iff {x : UInt64} : stir x = 0 ↔ x = 0 :=
  stir_injective.eq_iff (b := 0)

/-! ## Streams -/

variable {g h : Xorshift}

def word (g : Xorshift) (n : ℕ) : UInt64 := (g.skip n).next.1

theorem skip_succ (g : Xorshift) (n : ℕ) : g.skip (n + 1) = (g.skip n).next.2 := rfl

theorem state_skip_succ (g : Xorshift) (n : ℕ) :
    (g.skip (n + 1)).state = stir (g.skip n).state := rfl

theorem skip_skip (g : Xorshift) (m n : ℕ) : (g.skip n).skip m = g.skip (n + m) := by
  induction m with
  | zero => rfl
  | succ m ih => rw [skip_succ, ih, ← Nat.add_assoc, skip_succ]

/-- **States that differ are never stirred to the same state.** -/
theorem state_skip_inj (n : ℕ) : (g.skip n).state = (h.skip n).state ↔ g.state = h.state := by
  induction n with
  | zero => rfl
  | succ n ih => rw [state_skip_succ, state_skip_succ, stir_injective.eq_iff, ih]

theorem word_inj (n : ℕ) : g.word n = h.word n ↔ g.state = h.state := by
  unfold word next
  rw [output_injective.eq_iff, stir_injective.eq_iff, state_skip_inj]

theorem state_skip_eq_zero_iff (n : ℕ) : (g.skip n).state = 0 ↔ g.state = 0 := by
  induction n with
  | zero => rfl
  | succ n ih => rw [state_skip_succ, stir_eq_zero_iff, ih]

theorem state_ofSeed_ne_zero (seed : UInt64) : (ofSeed seed).state ≠ 0 := by
  unfold ofSeed
  split_ifs with h
  · decide
  · exact h

/-- A generator is made again from its state, unless this is zero. -/
theorem ofSeed_state (hg : g.state ≠ 0) : ofSeed g.state = g := by
  unfold ofSeed
  rw [if_neg hg]

theorem state_ofSeed_inj {a b : UInt64} :
    (ofSeed a).state = (ofSeed b).state ↔ a = b ∨ a = 0 ∧ b = 1 ∨ a = 1 ∧ b = 0 := by
  unfold ofSeed
  split_ifs with ha hb hb
  · simp [ha, hb]
  · simp [ha, Ne.symm hb, eq_comm]
  · simp [ha, hb]
  · simp [ha, hb]

/-- **Streams of words**. Stirring and reading are bijections of the words. A state that comes from
a seed is never zero, and a generator made of it draws the same words from the same states as the
one that goes on. Two generators have the same state after any number of words, and give the same
word there, only if they had the same state before. So two seeds give the same stream only if
they are equal, or zero and one. -/
theorem streams_apart :
    Function.Bijective stir ∧ Function.Bijective output ∧
    (∀ (seed : UInt64) (n : ℕ), ((ofSeed seed).skip n).state ≠ 0 ∧
      ∀ m, ((ofSeed ((ofSeed seed).skip n).state).skip m).state =
          ((ofSeed seed).skip (n + m)).state ∧
        (ofSeed ((ofSeed seed).skip n).state).word m = (ofSeed seed).word (n + m)) ∧
    (∀ (g h : Xorshift) (n : ℕ), ((g.skip n).state = (h.skip n).state ↔ g.state = h.state) ∧
      (g.word n = h.word n ↔ g.state = h.state)) ∧
    (∀ a b : UInt64, (ofSeed a).word = (ofSeed b).word ↔
      a = b ∨ a = 0 ∧ b = 1 ∨ a = 1 ∧ b = 0) := by
  refine ⟨stir_bijective, output_bijective, ?_, ?_, ?_⟩
  · intro seed n
    have hne : ((ofSeed seed).skip n).state ≠ 0 :=
      mt (state_skip_eq_zero_iff n).mp (state_ofSeed_ne_zero seed)
    refine ⟨hne, fun m => ?_⟩
    rw [ofSeed_state hne]
    unfold word
    rw [skip_skip]
    exact ⟨rfl, rfl⟩
  · intro g h n
    exact ⟨state_skip_inj n, word_inj n⟩
  · intro a b
    constructor
    · intro h
      exact state_ofSeed_inj.mp ((word_inj 0).mp (congrFun h 0))
    · intro h
      funext n
      exact (word_inj n).mpr (state_ofSeed_inj.mpr h)

end Queueing.Xorshift
