import Queueing.Proofs.Experiment.Report
import Queueing.Proofs.Json.Reread

/-!
# Settings that are read back

The text of a configuration that is in order is always read again, and every setting but the
rates is read as it was (`ofText_toText`). A rate is read as its rereading: the reader scales the
digits in binary64 arithmetic, so a rate of up to fifteen digits and a moderate power of ten is
the same again, while one of more digits may come back as its neighbour, which then is
another experiment (`tenElevenths_changed`).
-/

namespace Queueing

open Json

namespace ExperimentConfig

/-! ## Configurations as documents -/

def reread? (c : ExperimentConfig Binary64) : Option (ExperimentConfig Binary64) := do
  pure ⟨c.customers, ← rereadReal? c.arrivalRate, ← rereadReal? c.serviceRate, c.trials, c.seed,
    c.workers⟩

def numbers (c : ExperimentConfig Binary64) : List Binary64 := [c.arrivalRate, c.serviceRate]

theorem reread?_eq_self_iff {c : ExperimentConfig Binary64} :
    c.reread? = some c ↔ ∀ x ∈ c.numbers, Kept x := by
  obtain ⟨customers, arrivalRate, serviceRate, trials, seed, workers⟩ := c
  simp [reread?, numbers, Option.bind_eq_some_iff, rereadReal?_eq_self_iff]

theorem rereads [Arithmetic Binary64] {f : Field}
    (hs : f.shape = shapeOf (ExperimentConfig Binary64)) (hn : f.nullable = false)
    (c : ExperimentConfig Binary64) : Rereads f 1 c c.reread? := by
  have hword (name : String) (type : String) (n : UInt64) (value : Value) :
      Rereads (.defaulting name (.count type) value) 0 n (some n) := rereads_word rfl rfl n
  have hrate (name : String) (x : Binary64) (value : Value) :
      Rereads (.defaulting name (shapeOf Binary64) value) 0 x (rereadReal? x) :=
    rereads_real rfl rfl x
  have hworkers : Rereads (.optional "workers" sizeShape) 0 c.workers (some c.workers) :=
    rereads_optional_word rfl rfl c.workers
  refine rereads_record
    [(hword "customers" "u64" c.customers _).part, (hrate "arrival_rate" c.arrivalRate _).part,
      (hrate "service_rate" c.serviceRate _).part, (hword "trials" "usize" c.trials _).part,
      (hword "rng_seed" "u64" c.seed _).part, hworkers.part] hs hn rfl rfl ?_ ?_ ?_
  · show ["customers", "arrival_rate", "service_rate", "trials", "rng_seed", "workers"].Nodup
    decide
  · simp [Part.reread?_part, reread?, Option.map_bind, Form.write, Field.name, Field.defaulting,
      Field.optional, Option.bind_map, Option.bind_assoc]
  · intro z hz
    simp only [reread?, Option.bind_eq_bind, Option.bind_eq_some_iff, Option.pure_def,
      Option.some.injEq] at hz
    obtain ⟨arrivalRate, h1, serviceRate, h2, rfl⟩ := hz
    simp [Form.ofValue?, field?, Form.write, Value.member?, List.lookup, word?_ofNat,
      option?_word, real?_ofReal_of_rereadReal? h1, real?_ofReal_of_rereadReal? h2]

/-! ## Settings in order -/

theorem isRate_of_validate {α : Type} [Arithmetic α] {c : ExperimentConfig α}
    (h : c.validate = .ok ()) : isRate c.arrivalRate = true ∧ isRate c.serviceRate = true := by
  simp only [validate_eq, bind_eq_ok_iff] at h
  obtain ⟨_, -, _, -, _, -, _, harrivals, _, hservice, -⟩ := h
  exact ⟨checkRate_eq_ok harrivals, checkRate_eq_ok hservice⟩

section

variable (log threeHalves : Binary64 → Binary64)

theorem isFinite_of_validate {c : ExperimentConfig Binary64}
    (h : letI := Binary64.arithmetic log threeHalves; c.validate = .ok ()) :
    ∀ rate ∈ c.numbers, rate.isFinite = true := by
  let _ := Binary64.arithmetic log threeHalves
  obtain ⟨harrivals, hservice⟩ := isRate_of_validate h
  rw [isRate, Bool.and_eq_true] at harrivals hservice
  intro rate hrate
  simp only [numbers, List.mem_cons, List.not_mem_nil, or_false] at hrate
  rcases hrate with rfl | rfl
  · exact harrivals.1
  · exact hservice.1

/-- The configuration that is read: its rates are the rereadings of those that were written. -/
def reread (c : ExperimentConfig Binary64) : ExperimentConfig Binary64 :=
  { c with arrivalRate := c.arrivalRate.rereading, serviceRate := c.serviceRate.rereading }

/-- **The text of a configuration that is in order is read again.** -/
theorem ofText_of_validate {c : ExperimentConfig Binary64}
    (h : letI := Binary64.arithmetic log threeHalves; c.validate = .ok ()) :
    letI := Binary64.arithmetic log threeHalves
    ofText c.toText = .ok c.reread := by
  let _ := Binary64.arithmetic log threeHalves
  have hfinite := isFinite_of_validate log threeHalves h
  have hread := (rereads rfl rfl c).read_pretty (by decide)
  have hreread : c.reread? = some c.reread := by
    have harrival : c.arrivalRate.isFinite = true := hfinite _ (by simp [numbers])
    have hservice : c.serviceRate.isFinite = true := hfinite _ (by simp [numbers])
    simp [reread?, rereadReal?, harrival, hservice, reread]
  rw [hreread, toOption_eq_some_iff] at hread
  rw [ofText, toText, hread]

/-- **What a configuration in order is read back as**, whatever the platform takes for the
logarithm: all settings but the rates are the same, and it is the same configuration if and only
if both rates are their own rereadings. A rereading is off by little more than the last place,
and not at all for up to fifteen digits with a moderate power of ten. -/
theorem ofText_toText (log threeHalves : Binary64 → Binary64) :
    letI := Binary64.arithmetic log threeHalves
    ∀ c : ExperimentConfig Binary64, c.validate = .ok () →
      ofText c.toText = .ok { c with
        arrivalRate := c.arrivalRate.rereading, serviceRate := c.serviceRate.rereading } ∧
      (ofText c.toText = .ok c ↔ c.arrivalRate.rereading = c.arrivalRate ∧
        c.serviceRate.rereading = c.serviceRate) ∧
      ∀ rate ∈ [c.arrivalRate, c.serviceRate],
        |rate.rereading.toRat - rate.toRat| ≤ |rate.toRat| * 2 ^ (-50 : ℤ) + 2 ^ (-1073 : ℤ) ∧
        ((Numeral.ofReal rate).parts.1 < 2 ^ 53 → (Numeral.ofReal rate).parts.2.natAbs ≤ 22 →
          rate.rereading = rate) := by
  let _ := Binary64.arithmetic log threeHalves
  intro c h
  have hfinite := isFinite_of_validate log threeHalves h
  have hread : ofText c.toText = .ok c.reread := ofText_of_validate log threeHalves h
  refine ⟨hread, ?_, ?_⟩
  · obtain ⟨customers, arrivalRate, serviceRate, trials, seed, workers⟩ := c
    rw [hread]
    simp [reread]
  · intro rate hrate
    exact ⟨Binary64.rereading_error (hfinite rate hrate),
      Binary64.rereading_eq (hfinite rate hrate)⟩

end

/-- Half as many arrivals as can be served, for the greatest seed. -/
def halfLoaded : ExperimentConfig Binary64 :=
  ⟨10, ⟨0x3FE0000000000000⟩, 1, 3, 0xFFFFFFFFFFFFFFFF, some 4⟩

theorem ofText_toText_halfLoaded : halfLoaded.validate = .ok () ∧
    ofText halfLoaded.toText = .ok halfLoaded := by
  have hvalid : halfLoaded.validate = .ok () := by decide +kernel
  have hread := ofText_toText Binary64.log Binary64.threeHalves halfLoaded hvalid
  have hkept : ∀ rate ∈ [halfLoaded.arrivalRate, halfLoaded.serviceRate],
      rate.rereading = rate := by
    intro rate hrate
    refine (hread.2.2 rate hrate).2 ?_ ?_ <;>
    · simp only [List.mem_cons, List.not_mem_nil, or_false] at hrate
      rcases hrate with rfl | rfl <;> decide +kernel
  exact ⟨hvalid, hread.2.1.mpr ⟨hkept _ (by simp), hkept _ (by simp)⟩⟩

/-- An arrival rate of `10 / 11`, which takes sixteen digits to write. -/
def tenElevenths : ExperimentConfig Binary64 := ⟨1, ⟨0x3FED1745D1745D17⟩, 1, 1, 5, none⟩

/-- **The arrival rate that is read is not the one that was written**, but the next greater. -/
theorem tenElevenths_changed : tenElevenths.validate = .ok () ∧
    ofText tenElevenths.toText = .ok { tenElevenths with arrivalRate := ⟨0x3FED1745D1745D18⟩ } ∧
    ofText tenElevenths.toText ≠ .ok tenElevenths := by
  have hvalid : tenElevenths.validate = .ok () := by decide +kernel
  have hread : ofText tenElevenths.toText = .ok tenElevenths.reread :=
    ofText_of_validate Binary64.log Binary64.threeHalves hvalid
  have hchanged : tenElevenths.reread =
      { tenElevenths with arrivalRate := ⟨0x3FED1745D1745D18⟩ } := by
    decide +kernel
  refine ⟨hvalid, hread.trans (congrArg _ hchanged), ?_⟩
  rw [hread, hchanged]
  decide

end ExperimentConfig

end Queueing
