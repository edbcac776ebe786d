import Queueing.Proofs.Binary64.Amounts
import Queueing.Proofs.Trial.Times

/-!
# Times in system that are not zero

The time in system of a customer is the difference of two readings of the clock. It is never
negative, and it is zero when the clock does not tell the two readings apart: when the customer
did not wait and its service time is lost in the sum (`lt_departure_iff`). If this happens to all
customers, the total is zero and the trial is degenerate, however fast the service may be
compared to the arrivals (`absorbed_degenerate`). Otherwise the total is positive, and so is the
mean, as long as the total stays finite and is not too small to be divided (`runTrial_timed`).
-/

namespace Queueing

/-! ## Means -/

namespace Binary64

open Float.Model Float.Model.UnpackedFloat

/-- **The mean of an amount is positive** unless the amount is none or infinite, or less than the
least magnitude for each of the parts. -/
theorem ofMean_div {x : Binary64} (log threeHalves : Binary64 → Binary64) {n : ℕ} (h0 : n ≠ 0)
    (hlt : n < 2 ^ 64) {q : ℚ} (hx : x.Measures q) (hq : n * 2 ^ (-1074 : ℤ) ≤ q) :
    letI := Binary64.arithmetic log threeHalves
    ∃ m, TrialResult.ofMean (x / (n : Binary64)) = .mean m ∧ 0 < m := by
  let _ := Binary64.arithmetic log threeHalves
  obtain ⟨d, hd, hone, hdouble⟩ := natCast_lt_two_mul h0 hlt
  have hpos : 0 < d := zero_lt_one.trans_le hone
  have hleast : (0 : ℚ) < 2 ^ (-1074 : ℤ) := zpow_pos two_pos _
  have hmean := hx.div hd hpos
  have habove : (2 : ℚ) ^ (-1074 : ℤ) < 2 * (q / d) := by
    rw [← mul_div_assoc, lt_div_iff₀ hpos]
    generalize (2 : ℚ) ^ (-1074 : ℤ) = least at hq hleast ⊢
    calc least * d < least * (2 * n) := mul_lt_mul_of_pos_left hdouble hleast
      _ = 2 * (n * least) := by ring
      _ ≤ 2 * q := mul_le_mul_of_nonneg_left hq two_pos.le
  obtain ⟨hfin, -⟩ := hmean.le_of_le hx (div_le_self hx.nonneg hone)
  have hmpos := hmean.pos habove
  exact ⟨_, if_pos ⟨hfin, hmpos⟩, hmpos⟩

theorem ofMean_div_degenerate {x : Binary64} (log threeHalves : Binary64 → Binary64) {n : ℕ}
    (h0 : n ≠ 0) (hlt : n < 2 ^ 64) (hx : x.Amount) (h : ¬ 0 < x ∨ x = infinity) :
    letI := Binary64.arithmetic log threeHalves
    TrialResult.ofMean (x / (n : Binary64)) = .degenerate := by
  let _ := Binary64.arithmetic log threeHalves
  obtain ⟨d, hd, hone, -⟩ := natCast_lt_two_mul h0 hlt
  have hpos : 0 < d := zero_lt_one.trans_le hone
  refine if_neg ?_
  rintro ⟨hfin, hmean⟩
  rcases hx.finite_or_eq with hxfin | rfl
  · obtain ⟨q, hq⟩ := exists_measures hxfin hx.nonneg
    have hnone : ¬ 0 < x := h.resolve_right fun htop => by
      rw [htop] at hxfin
      cases hxfin
    rw [Measures.zero.lt_iff hq, not_lt] at hnone
    have hle := (hq.div hd hpos).le_of_le .zero (div_nonpos_of_nonpos_of_nonneg hnone hpos.le)
    exact Binary64.not_lt_of_le hle.2 hmean
  · rw [infinity_div hd hpos] at hfin
    cases hfin

end Binary64

/-! ## Times in system -/

namespace TrialConfig

variable {α : Type} [Arithmetic α] (c : TrialConfig α)

/-- The times in system of all customers, in the order in which they are recorded. -/
def sojourns : List α := (List.range c.customers.toNat).map c.sojourn

/-- The sum of the times in system, as it is computed. -/
def totalSojourn : α := c.sojourns.foldl (· + ·) 0

end TrialConfig

/-- What is known of the times in system that a trial reports. -/
structure TrialReport.Timed {α : Type} [Arithmetic α] (top : α) (c : TrialConfig α)
    (report : TrialReport α) : Prop where
  sojourn : report.sojourn = Summary.ofList c.sojourns
  /-- No time in system is negative or infinite. -/
  finite : ∀ i < c.customers.toNat, Arithmetic.isFinite (c.sojourn i) = true ∧ 0 ≤ c.sojourn i
  /-- A time in system is zero only if the clock does not tell the departure from the arrival. -/
  positive_iff : ∀ i < c.customers.toNat,
    0 < c.sojourn i ↔ c.arrival (i + 1) < c.departure (i + 1)
  /-- It does so if the customer waited, or if its service time is not lost in the sum. -/
  departs_later : ∀ i < c.customers.toNat, c.arrival (i + 1) < c.departure (i + 1) ↔
    c.arrival (i + 1) < c.departure i ∨ c.arrival (i + 1) < c.arrival (i + 1) + c.serviceTime i
  /-- The total is positive as soon as this happens to one customer. -/
  total_iff : 0 < c.totalSojourn ↔
    ∃ i < c.customers.toNat, c.arrival (i + 1) < c.departure (i + 1)
  /-- Without a positive and finite total, the trial is degenerate. -/
  degenerate : ¬ 0 < c.totalSojourn ∨ c.totalSojourn = top → report.result = .degenerate

section Trials

variable {log : Binary64 → Binary64} (threeHalves : Binary64 → Binary64)

open Binary64 (infinity)

theorem TrialConfig.sojourn_spec :
    letI := Binary64.arithmetic log threeHalves
    ∀ c : TrialConfig Binary64, c.Waits infinity → ¬ c.Overflows infinity →
      ∀ i < c.customers.toNat, (c.sojourn i).isFinite = true ∧ 0 ≤ c.sojourn i ∧
        (0 < c.sojourn i ↔ c.arrival (i + 1) < c.departure (i + 1)) := by
  let _ := Binary64.arithmetic log threeHalves
  intro c hwaits hover i hi
  have htop := Binary64.isOverflow_infinity log threeHalves
  obtain ⟨harrival, hdeparture⟩ := hwaits.isTime htop hover (Nat.succ_le_of_lt hi)
  exact Binary64.sub_of_le hdeparture.finite harrival.finite harrival.zero_le
    (hwaits.arrival_le htop hover hi)

/-- **A customer leaves later than it arrives** exactly when it waits, or when its service time
is not lost in the sum. -/
theorem TrialConfig.lt_departure_iff :
    letI := Binary64.arithmetic log threeHalves
    ∀ c : TrialConfig Binary64, c.Waits infinity → ¬ c.Overflows infinity →
      ∀ i < c.customers.toNat, c.arrival (i + 1) < c.departure (i + 1) ↔
        c.arrival (i + 1) < c.departure i ∨
          c.arrival (i + 1) < c.arrival (i + 1) + c.serviceTime i := by
  let _ := Binary64.arithmetic log threeHalves
  intro c hwaits hover i hi
  have htop := Binary64.isOverflow_infinity log threeHalves
  have harrival := (hwaits.isTime htop hover (Nat.succ_le_of_lt hi)).1
  have hbefore := (hwaits.isTime htop hover hi.le).2
  by_cases hlt : c.arrival (i + 1) < c.departure i
  · have hlater := (hwaits.start_between htop hover hi).2
    refine iff_of_true ?_ (Or.inl hlt)
    exact Binary64.lt_of_lt_of_le hlt (Binary64.le_trans hlater.1 hlater.2)
  · -- who does not wait is served at once
    have hge := Binary64.le_of_not_lt harrival.finite hbefore.finite hlt
    rw [c.departure_of_ge harrival hbefore hge]
    exact (or_iff_right hlt).symm

/-- The total is an amount, which is positive as soon as one customer leaves later than it
arrives. -/
theorem TrialConfig.totalSojourn_spec :
    letI := Binary64.arithmetic log threeHalves
    ∀ c : TrialConfig Binary64, c.Waits infinity → ¬ c.Overflows infinity →
      c.totalSojourn.Amount ∧ (0 < c.totalSojourn ↔
        ∃ i < c.customers.toNat, c.arrival (i + 1) < c.departure (i + 1)) := by
  let _ := Binary64.arithmetic log threeHalves
  intro c hwaits hover
  have hspec := TrialConfig.sojourn_spec threeHalves c hwaits hover
  have hall : ∀ x ∈ c.sojourns, x.isFinite = true ∧ 0 ≤ x := by
    intro x hx
    obtain ⟨i, hi, rfl⟩ := List.mem_map.mp hx
    obtain ⟨hfin, h0, -⟩ := hspec i (List.mem_range.mp hi)
    exact ⟨hfin, h0⟩
  obtain ⟨hamount, hpos⟩ := Binary64.Amount.foldl hall Binary64.Amount.zero
  refine ⟨hamount, hpos.trans ?_⟩
  constructor
  · rintro (hzero | ⟨x, hx, hxpos⟩)
    · exact absurd hzero (by decide)
    · obtain ⟨i, hi, rfl⟩ := List.mem_map.mp hx
      have hlt := List.mem_range.mp hi
      exact ⟨i, hlt, (hspec i hlt).2.2.mp hxpos⟩
  · rintro ⟨i, hi, hlt⟩
    exact Or.inr ⟨c.sojourn i, List.mem_map_of_mem (List.mem_range.mpr hi),
      (hspec i hi).2.2.mpr hlt⟩

end Trials

/-- **Times in system are lost only where the clock does not tell them apart**, whatever the
platform takes for the logarithm, provided that this is finite and not positive for the numbers
above zero and up to one. If one of them is not lost, their total is positive, and so is the mean
unless the total is infinite or too small. -/
theorem runTrial_timed (log threeHalves : Binary64 → Binary64) (hlog : Binary64.LawfulLog log) :
    letI := Binary64.arithmetic log threeHalves
    ∀ (c : TrialConfig Binary64) (report : TrialReport Binary64), runTrial c = .ok report →
      report.Timed Binary64.infinity c ∧
        ∀ q, c.totalSojourn.Measures q → c.customers.toNat * 2 ^ (-1074 : ℤ) ≤ q →
          ∃ m, report.result = .mean m ∧ 0 < m := by
  let _ := Binary64.arithmetic log threeHalves
  intro c report hok
  obtain ⟨hvalidate, -⟩ := rested_of_runTrial hok
  obtain ⟨hcount, -⟩ := TrialConfig.validate_eq_ok hvalidate
  have hfollows := follows_of_runTrial hok
  have hwaits := c.waits_of_validate threeHalves hlog hvalidate
  have hover : ¬ c.Overflows Binary64.infinity := by
    rcases ends_of_waits (Binary64.isOverflow_infinity log threeHalves) hwaits hvalidate with
      ⟨-, hnot⟩ | ⟨herror, -⟩
    · exact hnot
    · cases hok.symm.trans herror
  have hspec := TrialConfig.sojourn_spec threeHalves c hwaits hover
  obtain ⟨hamount, hpos⟩ := TrialConfig.totalSojourn_spec threeHalves c hwaits hover
  have hzero : c.customers.toNat ≠ 0 := fun h => hcount (UInt64.toNat_inj.mp h)
  have hbound := c.customers.toNat_lt
  refine ⟨⟨hfollows.sojourn, ?_, ?_, TrialConfig.lt_departure_iff threeHalves c hwaits hover, hpos,
    ?_⟩, ?_⟩
  · intro i hi
    exact ⟨(hspec i hi).1, (hspec i hi).2.1⟩
  · intro i hi
    exact (hspec i hi).2.2
  · intro hnone
    rw [hfollows.result]
    exact Binary64.ofMean_div_degenerate log threeHalves hzero hbound hamount hnone
  · intro q hq hle
    rw [hfollows.result]
    exact Binary64.ofMean_div log threeHalves hzero hbound hq hle

def stableConfig : TrialConfig Binary64 := ⟨2, 1, (2 : Nat), 7⟩

/-- Its total is positive, and so is its mean. -/
theorem runTrial_timed_stable :
    letI := Binary64.arithmetic Network.pairLog Binary64.threeHalves
    Binary64.LawfulLog Network.pairLog ∧ stableConfig.arrivalRate < stableConfig.serviceRate ∧
      ∃ report, runTrial stableConfig = .ok report ∧ report.result.isDegenerate = false ∧
        report.Timed Binary64.infinity stableConfig := by
  let _ := Binary64.arithmetic Network.pairLog Binary64.threeHalves
  have hresult : (runTrial stableConfig).toOption.map (·.result.isDegenerate) = some false := by
    decide +kernel
  obtain ⟨report, hok, hvalid⟩ := exists_ok_of_toOption hresult
  have htimed := runTrial_timed Network.pairLog Binary64.threeHalves pairLog_lawful
  exact ⟨pairLog_lawful, by decide +kernel, report, hok, hvalid, (htimed stableConfig report hok).1⟩

/-- A trial of two customers that are served `10 ^ 18` times as fast as they arrive. -/
def absorbedConfig : TrialConfig Binary64 := ⟨2, 1, ⟨0x43ABC16D674EC800⟩, 7⟩

/-- **Not every stable queue has a positive total**: both service times are lost in the sums, so
that the total is zero and the trial is degenerate, although both customers were served. -/
theorem absorbed_degenerate :
    letI := Binary64.arithmetic Network.pairLog Binary64.threeHalves
    (absorbedConfig.validate = .ok () ∧
        absorbedConfig.arrivalRate < absorbedConfig.serviceRate) ∧
      absorbedConfig.totalSojourn = 0 ∧ ∃ report, runTrial absorbedConfig = .ok report ∧
        report.completed = 2 ∧ report.result = .degenerate := by
  let _ := Binary64.arithmetic Network.pairLog Binary64.threeHalves
  have hresult : (runTrial absorbedConfig).toOption.map (fun r => (r.completed, r.result)) =
      some (2, .degenerate) := by
    decide +kernel
  obtain ⟨report, hok, hvalues⟩ := exists_ok_of_toOption hresult
  obtain ⟨hcompleted, hdegenerate⟩ := Prod.mk.inj hvalues
  refine ⟨⟨by decide +kernel, by decide +kernel⟩, by decide +kernel, report, hok, ?_⟩
  exact ⟨hcompleted, hdegenerate⟩

end Queueing
