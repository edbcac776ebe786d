import Queueing.Proofs.Experiment.Settings
import Queueing.Proofs.Statistics.Reread
import Queueing.Proofs.Trial.Counters

/-!
# Reports that are read back

What is read from the text of a report is known part by part (`ExperimentReport.rereads`): texts
and words as they were, reals as their rereadings, and nothing at all where a real that must be
there is infinite. The report of a run is thus read as it was if and only if all its reals are
(`runExperiment_reread`), which even its expected time need not be (`eleventh_changed`).
-/

namespace Queueing

open Json

/-! ## Trials -/

namespace TrialReport

def reread? (t : TrialReport Binary64) : Option (TrialReport Binary64) := do
  pure ⟨← t.result.reread?, ← rereadCount? t.arrivals, ← rereadCount? t.completed,
    ← rereadReal? t.finalTime, ← rereadCount? t.events, ← rereadCount? t.peakQueue,
    ← t.sojourn.reread?⟩

theorem rereads {f : Field} (hs : f.shape = shapeOf (TrialReport Binary64))
    (hn : f.nullable = false) (t : TrialReport Binary64) : Rereads f 2 t t.reread? := by
  have hresult : Rereads (.required "result" (shapeOf (TrialResult Binary64))) 1 t.result
      t.result.reread? := TrialResult.rereads rfl rfl t.result
  have hsojourn : Rereads (.required "sojourn" (shapeOf (Summary Binary64))) 1 t.sojourn
      t.sojourn.reread? := Summary.rereads rfl rfl t.sojourn
  have hcount (name type : String) (n : ℕ) :
      Rereads (.required name (.count type)) 1 n (rereadCount? n) := rereads_count rfl rfl n
  have htime : Rereads (.required "final_time" (shapeOf Binary64)) 1 t.finalTime
      (rereadReal? t.finalTime) := rereads_real rfl rfl t.finalTime
  refine rereads_record
    [hresult.part, (hcount "arrivals" "u64" t.arrivals).part,
      (hcount "completed" "u64" t.completed).part, htime.part,
      (hcount "events_dispatched" "u64" t.events).part,
      (hcount "peak_queue_length" "usize" t.peakQueue).part, hsojourn.part]
    hs hn rfl rfl (by decide) ?_ ?_
  · simp [Part.reread?_part, reread?, Option.map_bind, Form.write, Field.name, Field.required,
      Option.bind_map, Option.bind_assoc]
  · intro z hz
    simp only [reread?, Option.bind_eq_bind, Option.bind_eq_some_iff, Option.pure_def,
      Option.some.injEq] at hz
    obtain ⟨result, h1, arrivals, -, completed, -, finalTime, h2, events, -, peakQueue, -, sojourn,
      h3, rfl⟩ := hz
    show (do pure (TrialReport.mk (← Form.ofValue? (Form.write result))
      (← Form.ofValue? (Form.write arrivals)) (← Form.ofValue? (Form.write completed))
      (← Form.ofValue? (Form.write finalTime)) (← Form.ofValue? (Form.write events))
      (← Form.ofValue? (Form.write peakQueue)) (← Form.ofValue? (Form.write sojourn)))) = some _
    simp only [hresult.restore _ h1, htime.restore _ h2, hsojourn.restore _ h3, ofValue?_count]
    rfl

def counts (t : TrialReport Binary64) : List ℕ :=
  [t.arrivals, t.completed, t.events, t.peakQueue, t.sojourn.count]

def numbers (t : TrialReport Binary64) : List Binary64 :=
  t.result.numbers ++ t.finalTime :: t.sojourn.numbers

theorem reread?_eq_self_iff {t : TrialReport Binary64} : t.reread? = some t ↔
    (∀ n ∈ t.counts, n < Decimal.wordLimit) ∧ ∀ x ∈ t.numbers, Kept x := by
  obtain ⟨result, arrivals, completed, finalTime, events, peakQueue, sojourn⟩ := t
  simp [reread?, counts, numbers, Option.bind_eq_some_iff, TrialResult.reread?_eq_self_iff,
    rereadCount?_eq_self_iff, rereadReal?_eq_self_iff, Summary.reread?_eq_self_iff, or_imp,
    forall_and]
  tauto

end TrialReport

/-! ## Estimates -/

namespace Estimate

def reread? : Estimate Binary64 → Option (Estimate Binary64)
  | .interval a => a.reread?.map .interval
  | .insufficient valid mean => (rereadCount? valid).map (.insufficient · (rereadOptional mean))

/-- The number of valid results. -/
def size : Estimate Binary64 → ℕ
  | .interval a => a.n
  | .insufficient valid _ => valid

def numbers : Estimate Binary64 → List Binary64
  | .interval a => a.numbers
  | .insufficient _ mean => mean.toList

theorem rereads {f : Field} (hs : f.shape = shapeOf (Estimate Binary64)) (hn : f.nullable = false)
    {estimate : Estimate Binary64} (hfit : estimate.size < Decimal.wordLimit) :
    Rereads f 1 estimate estimate.reread? := by
  cases estimate with
  | interval a =>
      refine rereads_tagged "interval" a.parts hs hn rfl rfl rfl (by decide) (by decide)
        (Aggregate.exists_check_any_parts hfit) ?_ ?_
      · rw [a.mapM_parts, reread?, Option.map_map, Option.map_map]
        rfl
      · intro z hz
        obtain ⟨b, hb, rfl⟩ := Option.map_eq_some_iff.mp hz
        show (Form.ofValue? (.object (("kind", .string "interval") :: b.members))).map
          Estimate.interval = _
        rw [Aggregate.ofValue?_members hb]
        rfl
  | insufficient valid mean =>
      have hvalid : Rereads (.required "valid" sizeShape) 0 valid (rereadCount? valid) :=
        rereads_count rfl rfl valid
      have hmean : Rereads (.optional "mean" (shapeOf Binary64)) 0 mean
          (some (rereadOptional mean)) := rereads_optional_real rfl rfl mean
      refine rereads_tagged "insufficient" [hvalid.part, hmean.part] hs hn
        rfl rfl rfl (by decide) (by decide) ?_ ?_ ?_
      · intro depth
        simp only [List.forall_mem_cons, List.not_mem_nil, false_implies, implies_true, and_true]
        refine ⟨exists_check_any_ofNat depth hfit, ?_⟩
        cases mean with
        | none =>
            show ∃ v, check depth .any .null = .ok v
            exact ⟨.null, by simp only [check]⟩
        | some m => exact exists_check_any_ofReal depth m
      · simp only [List.mapM_cons, List.mapM_nil, Part.reread?_part, reread?]
        cases rereadCount? valid <;> rfl
      · intro z hz
        obtain ⟨n, -, rfl⟩ := Option.map_eq_some_iff.mp hz
        show (do pure (Estimate.insufficient (← Form.ofValue? (Form.write n))
          (← Form.ofValue? (Form.write (rereadOptional mean))))) = some _
        simp only [ofValue?_count, hmean.restore _ rfl]
        rfl

theorem reread?_eq_self_iff {estimate : Estimate Binary64} : estimate.reread? = some estimate ↔
    estimate.size < Decimal.wordLimit ∧ ∀ x ∈ estimate.numbers, Kept x := by
  cases estimate with
  | interval a => simp [reread?, size, numbers, Aggregate.reread?_eq_self_iff]
  | insufficient valid mean =>
      simp [reread?, size, numbers, rereadCount?_eq_self_iff, rereadOptional_eq_self_iff]

end Estimate

/-! ## Reports -/

namespace ExperimentReport

def reread? (r : ExperimentReport Binary64) : Option (ExperimentReport Binary64) := do
  pure ⟨← r.config.reread?, r.configHash, r.workers, ← r.trials.mapM TrialReport.reread?,
    ← rereadCount? r.degenerate, ← rereadReal? r.expected, ← r.estimate.reread?⟩

/-- **A report is read part by part.** -/
theorem rereads [Arithmetic Binary64] {f : Field}
    (hs : f.shape = shapeOf (ExperimentReport Binary64)) (hn : f.nullable = false)
    {r : ExperimentReport Binary64} (hfit : r.estimate.size < Decimal.wordLimit) :
    Rereads f 4 r r.reread? := by
  have hconfig : Rereads (.required "config" (shapeOf (ExperimentConfig Binary64))) 3 r.config
      r.config.reread? := (ExperimentConfig.rereads rfl rfl r.config).mono (by decide)
  have hhash : Rereads (.required "config_hash" (shapeOf String)) 3 r.configHash
      (some r.configHash) := rereads_text rfl rfl r.configHash
  have hworkers : Rereads (.required "workers" sizeShape) 3 r.workers (some r.workers) :=
    rereads_word rfl rfl r.workers
  have htrials : Rereads (.required "trials" (shapeOf (List (TrialReport Binary64)))) 3 r.trials
      (r.trials.mapM TrialReport.reread?) :=
    rereads_list rfl rfl fun t _ => TrialReport.rereads rfl rfl t
  have hdegenerate : Rereads (.required "degenerate" sizeShape) 3 r.degenerate
      (rereadCount? r.degenerate) := rereads_count rfl rfl r.degenerate
  have hexpected : Rereads (.required "expected" (shapeOf Binary64)) 3 r.expected
      (rereadReal? r.expected) := rereads_real rfl rfl r.expected
  have hestimate : Rereads (.required "estimate" (shapeOf (Estimate Binary64))) 3 r.estimate
      r.estimate.reread? := (Estimate.rereads rfl rfl hfit).mono (by decide)
  refine rereads_record
    [hconfig.part, hhash.part, hworkers.part, htrials.part, hdegenerate.part, hexpected.part,
      hestimate.part] hs hn rfl rfl ?_ ?_ ?_
  · show ["config", "config_hash", "workers", "trials", "degenerate", "expected",
      "estimate"].Nodup
    decide
  · simp [Part.reread?_part, reread?, Option.map_bind, Form.write, Field.name, Field.required,
      Option.bind_map, Option.bind_assoc]
  · intro z hz
    simp only [reread?, Option.bind_eq_bind, Option.bind_eq_some_iff, Option.pure_def,
      Option.some.injEq] at hz
    obtain ⟨config, h1, trials, h2, degenerate, -, expected, h3, estimate, h4, rfl⟩ := hz
    show (do pure (ExperimentReport.mk (← Form.ofValue? (Form.write config))
      (← Form.ofValue? (Form.write r.configHash)) (← Form.ofValue? (Form.write r.workers))
      (← Form.ofValue? (Form.write trials)) (← Form.ofValue? (Form.write degenerate))
      (← Form.ofValue? (Form.write expected)) (← Form.ofValue? (Form.write estimate)))) = some _
    simp only [hconfig.restore _ h1, hhash.restore _ rfl, hworkers.restore _ rfl,
      htrials.restore _ h2, ofValue?_count, hexpected.restore _ h3, hestimate.restore _ h4]
    rfl

def numbers (r : ExperimentReport Binary64) : List Binary64 :=
  r.config.numbers ++ r.expected :: r.estimate.numbers ++ r.trials.flatMap TrialReport.numbers

def counts (r : ExperimentReport Binary64) : List ℕ :=
  r.degenerate :: r.estimate.size :: r.trials.flatMap TrialReport.counts

theorem forall_counts {r : ExperimentReport Binary64} {p : ℕ → Prop} : (∀ n ∈ r.counts, p n) ↔
    p r.degenerate ∧ p r.estimate.size ∧ ∀ t ∈ r.trials, ∀ n ∈ t.counts, p n := by
  simp only [counts, List.forall_mem_cons, List.forall_mem_flatMap]

theorem forall_numbers {r : ExperimentReport Binary64} {p : Binary64 → Prop} :
    (∀ x ∈ r.numbers, p x) ↔ (∀ x ∈ r.config.numbers, p x) ∧ p r.expected ∧
      (∀ x ∈ r.estimate.numbers, p x) ∧ ∀ t ∈ r.trials, ∀ x ∈ t.numbers, p x := by
  simp only [numbers, List.forall_mem_append, List.forall_mem_cons, List.forall_mem_flatMap,
    and_assoc]

theorem reread?_eq_self_iff {r : ExperimentReport Binary64} : r.reread? = some r ↔
    (∀ n ∈ r.counts, n < Decimal.wordLimit) ∧ ∀ x ∈ r.numbers, Kept x := by
  rw [forall_counts, forall_numbers]
  obtain ⟨config, configHash, workers, trials, degenerate, expected, estimate⟩ := r
  simp [reread?, Option.bind_eq_some_iff, ExperimentConfig.reread?_eq_self_iff,
    mapM_eq_some_self_iff, TrialReport.reread?_eq_self_iff, rereadCount?_eq_self_iff,
    rereadReal?_eq_self_iff, Estimate.reread?_eq_self_iff, forall_and]
  tauto

/-- **What is read from either text of a report.** -/
theorem read_text [Arithmetic Binary64] {r : ExperimentReport Binary64}
    (hfit : r.estimate.size < Decimal.wordLimit) {text : String}
    (htext : text = pretty r ∨ text = compact r) :
    (Json.read (ExperimentReport Binary64) text).toOption = r.reread? := by
  rcases htext with rfl | rfl
  · exact (rereads rfl rfl hfit).read_pretty (by decide)
  · exact (rereads rfl rfl hfit).read_compact (by decide)

end ExperimentReport

/-! ## Reports of runs -/

theorem Estimate.Sound.size_eq {results : List (TrialResult Binary64)} {valid : ℕ}
    [Arithmetic Binary64] {estimate : Estimate Binary64} (h : estimate.Sound results valid) :
    estimate.size = valid := by
  by_cases henough : 2 ≤ valid
  · obtain ⟨a, rfl⟩ := h.interval_iff.mpr henough
    exact (h.interval a rfl).2
  · obtain ⟨mean, rfl⟩ := h.exists_insufficient (Nat.lt_of_not_le henough)
    rfl

theorem ExperimentReport.expected_of_gathered {α : Type} [Arithmetic α] [Form α]
    {c : ExperimentConfig α} {processors : UInt64} {staffing : Staffing}
    {report : ExperimentReport α} (h : c.Gathered processors staffing (.ok report)) :
    c.expected = .ok report.expected := by
  obtain ⟨trials, -, hconcluded⟩ := h.concluded
  cases hconcluded with
  | reported _ _ _ hexpected => exact hexpected

namespace ExperimentReport

variable [Arithmetic Binary64] [LawfulTime Binary64] {c : ExperimentConfig Binary64}
  {r : ExperimentReport Binary64}

omit [LawfulTime Binary64] in
theorem Sound.size_lt (h : r.Sound c) : r.estimate.size < Decimal.wordLimit := by
  rw [h.estimate.size_eq, valid, h.config]
  exact Nat.lt_of_le_of_lt (Nat.sub_le _ _) c.trials.toNat_lt

/-- **Of the counts in a report, only those of events may be too great.** -/
theorem Sound.forall_counts_iff (h : r.Sound c) :
    (∀ n ∈ r.counts, n < Decimal.wordLimit) ↔ ∀ t ∈ r.trials, t.events < Decimal.wordLimit := by
  rw [forall_counts]
  refine ⟨fun hall t ht => hall.2.2 t ht t.events (by simp [TrialReport.counts]), fun hevents => ?_⟩
  refine ⟨Nat.lt_of_le_of_lt h.degenerate_le c.trials.toNat_lt, h.size_lt, fun t ht => ?_⟩
  obtain ⟨i, hi, rfl⟩ := List.getElem_of_mem ht
  have hcounted := counted_of_runTrial (h.trial i hi)
  have hfit : c.customers.toNat < Decimal.wordLimit := c.customers.toNat_lt
  have hpeak := hcounted.peak_lt
  simp only [TrialReport.counts, List.forall_mem_cons, List.not_mem_nil, false_implies,
    implies_true, and_true]
  rw [hcounted.arrivals, hcounted.completed, hcounted.count]
  exact ⟨hfit, hfit, hevents _ ht, hpeak.trans hfit, hfit⟩

end ExperimentReport

/-- **What the report of a run is read back as**, from its indented text or from its compact one,
whatever the platform takes for the logarithm and in whatever order workers finish the trials.
Each part is read on its own, so it is the same report if and only if every real in it is finite
and its own rereading; of the counts, only those of events could be too great for 64 bits. -/
theorem runExperiment_reread (log threeHalves : Binary64 → Binary64) :
    letI := Binary64.arithmetic log threeHalves
    ∀ (c : ExperimentConfig Binary64) (processors : UInt64) (staffing : Staffing)
      (outcome : Except (Failure Binary64) (ExperimentReport Binary64)),
      c.Outcome processors staffing outcome → ∀ report, outcome = .ok report →
        ∀ text, text = pretty report ∨ text = compact report →
          (Json.read (ExperimentReport Binary64) text).toOption = report.reread? ∧
          (Json.read (ExperimentReport Binary64) text = .ok report ↔
            (∀ t ∈ report.trials, t.events < 2 ^ 64) ∧
              ∀ x ∈ report.numbers, x.isFinite = true ∧ x.rereading = x) := by
  let _ := Binary64.arithmetic log threeHalves
  have hlawful := Binary64.lawfulTime log threeHalves
  intro c processors staffing outcome houtcome report hreport text htext
  have hsound : report.Sound c := sound_of_gathered houtcome.gathered hreport
  have hread := ExperimentReport.read_text hsound.size_lt htext
  refine ⟨hread, ?_⟩
  rw [← toOption_eq_some_iff, hread, ExperimentReport.reread?_eq_self_iff,
    hsound.forall_counts_iff]
  exact and_congr_right fun _ => forall₂_congr fun _ _ => kept_iff

/-- A logarithm that makes every wait either none or a mean one. -/
def coinLog (u : Binary64) : Binary64 := if u < ⟨4602678819172646912⟩ then -1 else 0

/-- So many trials of one customer each, who may be served in no time. -/
def coinConfig (trials : UInt64) : ExperimentConfig Binary64 := ⟨1, 1, (2 : Nat), trials, 5, none⟩

/-- All times of the coin are halves, which are read as they were. -/
theorem runExperiment_reread_coin :
    letI := Binary64.arithmetic coinLog Binary64.threeHalves
    ∃ report, runExperiment 4 (coinConfig 3) = .ok report ∧
      report.estimate.isInsufficient = false ∧
      Json.read (ExperimentReport Binary64) (pretty report) = .ok report ∧
      Json.read (ExperimentReport Binary64) (compact report) = .ok report := by
  let _ := Binary64.arithmetic coinLog Binary64.threeHalves
  have hrun : (runExperiment 4 (coinConfig 3)).toOption.map (fun r =>
      (r.estimate.isInsufficient, decide (∀ t ∈ r.trials, t.events < 2 ^ 64),
        decide (∀ x ∈ r.numbers, x.isFinite = true ∧ x.rereading = x))) =
      some (false, true, true) := by
    decide +kernel
  obtain ⟨report, hok, hreport⟩ := exists_ok_of_toOption hrun
  simp only [Prod.mk.injEq, decide_eq_true_eq] at hreport
  have hreread := runExperiment_reread coinLog Binary64.threeHalves (coinConfig 3) 4 _ _ .alone
    report hok
  exact ⟨report, hok, hreport.1, (hreread _ (Or.inl rfl)).2.mpr hreport.2,
    (hreread _ (Or.inr rfl)).2.mpr hreport.2⟩

/-- One trial of one customer, with an expected time of `1 / 11`. -/
def eleventh : ExperimentConfig Binary64 := ⟨1, 1, (12 : Nat), 1, 5, none⟩

theorem ExperimentConfig.expected_eq (log threeHalves : Binary64 → Binary64)
    (c : ExperimentConfig Binary64) :
    @expected Binary64 (Binary64.arithmetic log threeHalves) c = c.expected :=
  rfl

/-- Whatever the logarithm, the expected time is not its own rereading, so that no report with it
is read as it was. -/
theorem not_read_eleventh (log threeHalves : Binary64 → Binary64) :
    letI := Binary64.arithmetic log threeHalves
    ∀ (processors : UInt64) (staffing : Staffing)
      (outcome : Except (Failure Binary64) (ExperimentReport Binary64)),
      eleventh.Outcome processors staffing outcome → ∀ report, outcome = .ok report →
        ∀ text, text = pretty report ∨ text = compact report →
          Json.read (ExperimentReport Binary64) text ≠ .ok report := by
  have hchanged : eleventh.expected.toOption.map Binary64.rereading ≠
      eleventh.expected.toOption := by
    decide +kernel
  let _ := Binary64.arithmetic log threeHalves
  have hlawful := Binary64.lawfulTime log threeHalves
  rintro processors staffing _ houtcome report rfl text htext hread
  have hsound : report.Sound eleventh := sound_of_gathered houtcome.gathered rfl
  have hexpected := ExperimentReport.expected_of_gathered houtcome.gathered
  rw [ExperimentConfig.expected_eq] at hexpected
  rw [← toOption_eq_some_iff, ExperimentReport.read_text hsound.size_lt htext,
    ExperimentReport.reread?_eq_self_iff, ExperimentReport.forall_numbers] at hread
  have hkept : report.expected.rereading = report.expected := (kept_iff.mp hread.2.2.1).2
  rw [hexpected] at hchanged
  exact hchanged (congrArg some hkept)

/-- **The expected time that is read is not the one that was written.** -/
theorem eleventh_changed :
    letI := Binary64.arithmetic coinLog Binary64.threeHalves
    eleventh.validate = .ok () ∧ ∃ report, runExperiment 4 eleventh = .ok report ∧
      Json.read (ExperimentReport Binary64) (pretty report) ≠ .ok report ∧
      Json.read (ExperimentReport Binary64) (compact report) ≠ .ok report := by
  let _ := Binary64.arithmetic coinLog Binary64.threeHalves
  have hvalid : eleventh.validate = .ok () := by decide +kernel
  have hrun : (runExperiment 4 eleventh).toOption.map (fun _ => ()) = some () := by
    decide +kernel
  obtain ⟨report, hok, -⟩ := exists_ok_of_toOption hrun
  have hchanged := not_read_eleventh coinLog Binary64.threeHalves 4 _ _ .alone report hok
  exact ⟨hvalid, report, hok, hchanged _ (Or.inl rfl), hchanged _ (Or.inr rfl)⟩

end Queueing
