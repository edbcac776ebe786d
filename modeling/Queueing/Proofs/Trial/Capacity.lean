import Queueing.Proofs.Binary64.Operations
import Queueing.Proofs.Trial.Times

/-!
# Trials that do not overflow

A trial whose parameters are in order fails exactly when its recursion leaves the finite times,
and the failure is one that the engine counts among its own breaches although nothing but a rate
is to blame. This does not happen with rates from `2 ^ (-963)` on: a wait is then at most
`2 ^ 969`, and no sum of such waits is rounded above `2 ^ 1023`, since the numbers there are too
far apart (`Steady.add`). So such a trial succeeds however many customers it has
(`runTrial_completes`).
-/

namespace Queueing

/-! ## Powers of two -/

namespace Binary64

/-- The least number above zero that is drawn, `2 ^ (-53)`. -/
def leastDraw : Binary64 := ⟨0x3CA0000000000000⟩

def logBound : Binary64 := ⟨0x4042800000000000⟩

/-- No logarithm of a number that is drawn is below `-37`; that of the least one is `-36.74`. -/
def ModestLog (log : Binary64 → Binary64) : Prop :=
  ∀ u : Binary64, leastDraw ≤ u → u ≤ 1 → -logBound ≤ log u

/-- A rate, `2 ^ (-963)`, at which no trial overflows. -/
def slowestRate : Binary64 := ⟨0x03C0000000000000⟩

/-- The longest wait at that rate, `2 ^ 969`, or a longer one. -/
def longestWait : Binary64 := ⟨0x7C80000000000000⟩

/-- A time that no such wait leads beyond, `2 ^ 1023`. -/
def latestTime : Binary64 := ⟨0x7FE0000000000000⟩

theorem leastDraw_measures : leastDraw.Measures (2 ^ (-53 : ℤ)) :=
  measures_two_pow (by decide) (by decide) rfl

theorem logBound_measures : logBound.Measures 37 := by
  refine ⟨rfl, Or.inl rfl, ?_⟩
  rw [show logBound.magnitude.toNat = place (37 * 2 ^ 47) (-47) from rfl,
    magnitudeValue_place ⟨by decide, by decide, Or.inl (by decide)⟩]
  norm_num

theorem slowestRate_measures : slowestRate.Measures (2 ^ (-963 : ℤ)) :=
  measures_two_pow (by decide) (by decide) rfl

theorem longestWait_measures : longestWait.Measures (2 ^ (969 : ℤ)) :=
  measures_two_pow (by decide) (by decide) rfl

theorem latestTime_measures : latestTime.Measures (2 ^ (1023 : ℤ)) :=
  measures_two_pow (by decide) (by decide) rfl

/-! ## Times that do not grow any more -/

def Steady (t : Binary64) : Prop := ∃ q, t.Measures q ∧ q ≤ 2 ^ (1023 : ℤ)

def Brief (x : Binary64) : Prop := ∃ q, x.Measures q ∧ q ≤ 2 ^ (969 : ℤ)

theorem Steady.zero : Steady 0 := ⟨0, .zero, (zpow_pos two_pos _).le⟩

theorem Steady.max {t u : Binary64} (ht : Steady t) (hu : Steady u) : Steady (max t u) := by
  show Steady (if u.isNaN || decide (u < t) then t else u)
  split_ifs
  · exact ht
  · exact hu

/-- **A brief wait does not lead beyond the latest time**: the next number is so far away that
the sum is rounded down. -/
theorem Steady.add {t x : Binary64} (ht : Steady t) (hx : Brief x) : Steady (t + x) := by
  obtain ⟨p, hp, hple⟩ := ht
  obtain ⟨q, hq, hqle⟩ := hx
  have hnext : magnitudeValue (latestTime.magnitude.toNat + 1) =
      2 ^ (1023 : ℤ) + 2 ^ (971 : ℤ) := by
    have hplace : latestTime.magnitude.toNat = place (2 ^ 52) 971 := rfl
    rw [hplace, magnitudeValue_place_succ ⟨by decide, by decide, Or.inl le_rfl⟩, Nat.cast_add,
      Nat.cast_one, add_mul, one_mul, Nat.cast_pow, Nat.cast_ofNat, ← zpow_natCast,
      ← zpow_add₀ two_ne_zero]
    rfl
  have hfar : (2 : ℚ) * 2 ^ (969 : ℤ) < 2 ^ (971 : ℤ) := by
    rw [← zpow_one_add₀ two_ne_zero]
    exact zpow_lt_zpow_right₀ one_lt_two (by decide)
  have hmiddle : 2 * (p + q) <
      2 ^ (1023 : ℤ) + magnitudeValue (latestTime.magnitude.toNat + 1) := by
    rw [hnext]
    generalize (2 : ℚ) ^ (1023 : ℤ) = latest at hple ⊢
    generalize (2 : ℚ) ^ (971 : ℤ) = step at hfar ⊢
    linarith
  have hrounds := hp.add hq
  obtain ⟨hfin, hle⟩ := hrounds.le_of_lt_middle latestTime_measures hmiddle
  exact exists_measures_le hfin hrounds.nonneg latestTime_measures hle

/-! ## Brief waits -/

theorem brief_div {x rate : Binary64} {p : ℚ} (hx : x.Measures p) (hp : p ≤ 37)
    (hrate : rate.isFinite = true) (hslow : slowestRate ≤ rate) : Brief (x / rate) := by
  have hleast : (0 : ℚ) < 2 ^ (-963 : ℤ) := zpow_pos two_pos _
  have hpositive : 0 ≤ rate :=
    Binary64.le_trans ((Measures.zero.le_iff slowestRate_measures).mpr hleast.le) hslow
  obtain ⟨r, hr⟩ := exists_measures hrate hpositive
  have hle : (2 : ℚ) ^ (-963 : ℤ) ≤ r := (slowestRate_measures.le_iff hr).mp hslow
  have hbound : p / r ≤ 2 ^ (969 : ℤ) := by
    calc p / r ≤ 2 ^ (6 : ℤ) / 2 ^ (-963 : ℤ) := by
          refine div_le_div₀ (zpow_pos two_pos _).le (hp.trans ?_) hleast hle
          norm_num
      _ = 2 ^ (969 : ℤ) := by
          rw [← zpow_sub₀ two_ne_zero]
          rfl
  have hrounds := hx.div hr (hleast.trans_le hle)
  obtain ⟨hfin, hwait⟩ := hrounds.le_of_le longestWait_measures hbound
  exact exists_measures_le hfin hrounds.nonneg longestWait_measures hwait

end Binary64

namespace Xorshift

open Binary64

variable (log threeHalves : Binary64 → Binary64)

theorem leastDraw_le (g : Xorshift) :
    letI := Binary64.arithmetic log threeHalves
    leastDraw ≤ (g.nextPositive Binary64).1 := by
  have hlt := g.topBits_lt
  refine (leastDraw_measures.le_iff (nextPositive_represents log threeHalves g).measures).mpr ?_
  have hone : (1 : ℚ) ≤ (2 ^ 53 - g.topBits : ℕ) := by
    exact_mod_cast Nat.sub_pos_of_lt hlt
  exact le_mul_of_one_le_left (zpow_pos two_pos _).le hone

variable {log}

/-- **What is drawn at a rate that is not too slow is a brief wait.** -/
theorem brief_draw (hlog : LawfulLog log) (hmodest : ModestLog log) {rate : Binary64}
    (hrate : rate.isFinite = true) (hslow : slowestRate ≤ rate) :
    letI := Binary64.arithmetic log threeHalves
    ∀ g : Xorshift, Brief (-(log (g.nextPositive Binary64).1) / rate) := by
  let _ := Binary64.arithmetic log threeHalves
  intro g
  obtain ⟨hpos, hle⟩ := nextPositive_mem log threeHalves g
  obtain ⟨hfin, hnonpos⟩ := hlog _ hpos hle
  have hbound := neg_le_swap (hmodest _ (leastDraw_le log threeHalves g) hle)
  obtain ⟨hfin, hsign⟩ := neg_of_nonpos hfin hnonpos
  have hx : (-(log (g.nextPositive Binary64).1)).Measures _ := ⟨hfin, hsign, rfl⟩
  exact brief_div hx ((hx.le_iff logBound_measures).mp hbound) hrate hslow

end Xorshift

/-! ## Trials -/

open Binary64 in
/-- **At rates that are not too slow, nobody arrives or leaves after the latest time**, however
many customers there are. -/
theorem TrialConfig.steady {log : Binary64 → Binary64} (threeHalves : Binary64 → Binary64)
    (hlog : LawfulLog log) (hmodest : ModestLog log) :
    letI := Binary64.arithmetic log threeHalves
    ∀ c : TrialConfig Binary64, c.validate = .ok () → slowestRate ≤ c.arrivalRate →
      slowestRate ≤ c.serviceRate → ∀ i, Steady (c.arrival i) ∧ Steady (c.departure i) := by
  let _ := Binary64.arithmetic log threeHalves
  intro c hvalidate hslow hslow' i
  obtain ⟨-, harrivals, hservice⟩ := TrialConfig.validate_eq_ok hvalidate
  simp only [isRate, Bool.and_eq_true] at harrivals hservice
  refine times_induction (W := Brief) Steady.zero Steady.max Steady.add ?_ ?_ i
  · intro k
    exact Xorshift.brief_draw threeHalves hlog hmodest harrivals.1 hslow _
  · intro k
    exact Xorshift.brief_draw threeHalves hlog hmodest hservice.1 hslow' _

/-- **A trial completes exactly when its recursion stays finite**, and fails with a breach of the
engine otherwise, whatever the platform takes for the logarithm, provided that this is finite and
not positive for the numbers above zero and up to one. If it is modest besides, all trials
complete whose rates are not too slow. -/
theorem runTrial_completes (log threeHalves : Binary64 → Binary64)
    (hlog : Binary64.LawfulLog log) :
    letI := Binary64.arithmetic log threeHalves
    ∀ c : TrialConfig Binary64, c.validate = .ok () →
      ((∃ report, runTrial c = .ok report ∧ report.completed = c.customers.toNat) ↔
        ∀ i ≤ c.customers.toNat,
          c.arrival i ≠ Binary64.infinity ∧ c.departure i ≠ Binary64.infinity) ∧
      (∀ cause, runTrial c = .error cause → ∃ breach, cause = .error breach ∧
        breach = .invalidDelay Binary64.infinity ∧ breach.isInvariantViolation = true) ∧
      (Binary64.ModestLog log →
        Binary64.slowestRate ≤ c.arrivalRate → Binary64.slowestRate ≤ c.serviceRate →
          ∃ report, runTrial c = .ok report ∧ report.completed = c.customers.toNat) := by
  let _ := Binary64.arithmetic log threeHalves
  intro c hvalidate
  have hwaits := c.waits_of_validate threeHalves hlog hvalidate
  have hfinite : ¬ c.Overflows Binary64.infinity ↔ ∀ i ≤ c.customers.toNat,
      c.arrival i ≠ Binary64.infinity ∧ c.departure i ≠ Binary64.infinity := by
    simp only [TrialConfig.Overflows, not_exists, not_and, not_or, ne_eq]
  have hends := ends_of_waits (Binary64.isOverflow_infinity log threeHalves) hwaits hvalidate
  have hiff : (∃ report, runTrial c = .ok report ∧ report.completed = c.customers.toNat) ↔
      ¬ c.Overflows Binary64.infinity := by
    rcases hends with ⟨⟨report, hok⟩, hnot⟩ | ⟨herror, hover⟩
    · exact iff_of_true ⟨report, hok, (follows_of_runTrial hok).completed⟩ hnot
    · refine iff_of_false ?_ (not_not_intro hover)
      rintro ⟨report, hok, -⟩
      cases hok.symm.trans herror
  refine ⟨hiff.trans hfinite, ?_, ?_⟩
  · intro cause hcause
    rcases hends with ⟨⟨report, hok⟩, -⟩ | ⟨herror, -⟩
    · cases hok.symm.trans hcause
    · cases herror.symm.trans hcause
      exact ⟨_, rfl, rfl, rfl⟩
  · intro hmodest hslow hslow'
    refine (hiff.trans hfinite).mpr ?_
    intro i _
    obtain ⟨⟨p, hp, -⟩, q, hq, -⟩ :=
      TrialConfig.steady threeHalves hlog hmodest c hvalidate hslow hslow' i
    refine ⟨?_, ?_⟩
    · intro htop
      cases htop ▸ hp.finite
    · intro htop
      cases htop ▸ hq.finite

theorem pairLog_modest : Binary64.ModestLog Network.pairLog := by
  intro u _ _
  unfold Network.pairLog
  split_ifs <;> decide

/-- At rates of one, which are not too slow, the trial of two customers completes. -/
theorem runTrial_completes_pair :
    letI := Binary64.arithmetic Network.pairLog Binary64.threeHalves
    (Binary64.LawfulLog Network.pairLog ∧ Binary64.ModestLog Network.pairLog) ∧
      pairConfig.validate = .ok () ∧
      ∃ report, runTrial pairConfig = .ok report ∧ report.completed = pairConfig.customers.toNat := by
  let _ := Binary64.arithmetic Network.pairLog Binary64.threeHalves
  have hvalid : pairConfig.validate = .ok () := by decide +kernel
  have hcompletes := runTrial_completes Network.pairLog Binary64.threeHalves pairLog_lawful
    pairConfig hvalid
  refine ⟨⟨pairLog_lawful, pairLog_modest⟩, hvalid, ?_⟩
  exact hcompletes.2.2 pairLog_modest (by decide) (by decide)

/-- **Not every trial whose parameters are in order completes**: at the least of all rates, a
customer would arrive at infinity. -/
theorem endless_breach :
    letI := Binary64.arithmetic Network.pairLog Binary64.threeHalves
    endlessConfig.validate = .ok () ∧ ∃ breach,
      runTrial endlessConfig = .error (.error breach) ∧ breach.isInvariantViolation = true := by
  let _ := Binary64.arithmetic Network.pairLog Binary64.threeHalves
  refine ⟨by decide +kernel, .invalidDelay Binary64.infinity, ?_, rfl⟩
  decide +kernel

end Queueing
