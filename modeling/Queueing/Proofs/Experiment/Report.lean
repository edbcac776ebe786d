import Queueing.Proofs.Experiment.Line
import Queueing.Proofs.Experiment.Trials
import Queueing.Proofs.Statistics.Aggregate
import Queueing.Proofs.Trial.Outcome

/-!
# What an experiment reports

An experiment that succeeds reports every trial at its index, and its estimate agrees with the
number of valid trials however they are counted: the trials less the degenerate ones, the
results with a value, and the size of the aggregate are one number (`sound_of_gathered`). Too
few valid trials are told in the report and are never an error: an experiment fails only for
settings that are refused, workers that cannot be started or a trial that fails
(`succeeds_iff_of_gathered`, `failure_of_gathered`). The report line shows bounds, or the
shortage, just when there are such (`line_sound`).
-/

namespace Queueing

open Json

variable {α : Type} [Arithmetic α]

/-! ## Refused settings -/

theorem onlyRefuses_expectedTimeInSystem (arrivalRate serviceRate : α) :
    OnlyRefuses (expectedTimeInSystem arrivalRate serviceRate) := by
  intro cause h
  rw [expectedTimeInSystem] at h
  split_ifs at h
  · cases h
    exact ⟨_, _, rfl⟩
  · cases h
    exact ⟨_, _, rfl⟩

namespace ExperimentConfig

variable (c : ExperimentConfig α)

theorem validate_eq : c.validate = (do
    checkCount "customers" c.customers
    checkCount "trials" c.trials
    c.workers.elim (pure ()) (checkCount "workers")
    checkRate "arrival_rate" c.arrivalRate
    checkRate "service_rate" c.serviceRate
    let _ ← c.expected) := by
  rw [validate]
  cases c.workers <;> rfl

theorem onlyRefuses_validate : OnlyRefuses c.validate := by
  rw [validate_eq]
  refine (onlyRefuses_checkCount _ _).bind fun _ => ?_
  refine (onlyRefuses_checkCount _ _).bind fun _ => ?_
  refine OnlyRefuses.bind ?_ fun _ => ?_
  · cases c.workers with
    | none => exact onlyRefuses_ok ()
    | some workers => exact onlyRefuses_checkCount _ _
  refine (onlyRefuses_checkRate _ _).bind fun _ => ?_
  refine (onlyRefuses_checkRate _ _).bind fun _ => ?_
  exact (onlyRefuses_expectedTimeInSystem _ _).bind fun _ => onlyRefuses_ok ()

variable {c}

theorem exists_expected (h : c.validate = .ok ()) : ∃ expected, c.expected = .ok expected := by
  simp only [validate_eq, bind_eq_ok_iff] at h
  obtain ⟨_, -, _, -, _, -, _, -, _, -, expected, hexpected, -⟩ := h
  exact ⟨expected, hexpected⟩

end ExperimentConfig

/-! ## The estimate -/

namespace Estimate

/-- What an estimate from results says of which so many are valid. -/
structure Sound (results : List (TrialResult α)) (valid : Nat) (estimate : Estimate α) :
    Prop where
  /-- There is an interval exactly from two valid results on. -/
  interval_iff : (∃ s, estimate = .interval s) ↔ 2 ≤ valid
  /-- The interval is the aggregate of the results, which counts the valid ones. -/
  interval : ∀ s, estimate = .interval s → aggregate results = .ok s ∧ s.n = valid
  /-- Without a valid result there is no mean. -/
  none_valid : valid = 0 → estimate = .insufficient 0 none
  /-- The only valid result gives its mean. -/
  one_valid : valid = 1 → ∃ i m, estimate = .insufficient 1 (some m) ∧
    ∀ (j : Nat) (x : α), results[j]? = some (.mean x) ↔ j = i ∧ x = m

/-- Without an interval, a sound estimate counts the valid results all the same. -/
theorem Sound.exists_insufficient {results : List (TrialResult α)} {valid : Nat}
    {estimate : Estimate α} (h : estimate.Sound results valid) (hfew : valid < 2) :
    ∃ mean, estimate = .insufficient valid mean := by
  rcases Nat.le_one_iff_eq_zero_or_eq_one.mp (Nat.le_of_lt_succ hfew) with rfl | rfl
  · exact ⟨none, h.none_valid rfl⟩
  · obtain ⟨i, m, hm, -⟩ := h.one_valid rfl
    exact ⟨some m, hm⟩

/-- **Results have a sound estimate, however few of them are valid.** -/
theorem ofResults_sound (results : List (TrialResult α)) : ∃ estimate,
    ofResults results = .ok estimate ∧
      estimate.Sound results (results.filterMap TrialResult.value?).length := by
  rw [ofResults]
  rcases aggregate_cases results with ⟨henough, a, hok, hn⟩ | ⟨hfew, herror⟩
  · rw [hok]
    refine ⟨_, rfl, ⟨fun _ => henough, fun _ => ⟨a, rfl⟩⟩, ?_, ?_, ?_⟩
    · intro s hs
      cases hs
      exact ⟨hok, hn⟩
    · intro hzero
      omega
    · intro hone
      omega
  · rw [herror]
    refine ⟨_, rfl, ⟨?_, ?_⟩, ?_, ?_, ?_⟩
    · rintro ⟨s, hs⟩
      cases hs
    · intro henough
      omega
    · intro s hs
      cases hs
    · intro hzero
      rw [← List.head?_filterMap, hzero, List.length_eq_zero_iff.mp hzero]
      rfl
    · intro hone
      obtain ⟨m, hm⟩ := List.length_eq_one_iff.mp hone
      obtain ⟨i, hi⟩ := TrialResult.exists_of_values_eq hm
      rw [← List.head?_filterMap, hone, hm]
      exact ⟨i, m, rfl, hi⟩

end Estimate

/-! ## The report -/

namespace ExperimentReport

omit [Arithmetic α] in
/-- The number of valid trials: those that are left without the degenerate ones. -/
def valid (r : ExperimentReport α) : Nat := r.config.trials.toNat - r.degenerate

/-- What the report of an experiment says. -/
structure Sound (c : ExperimentConfig α) (r : ExperimentReport α) : Prop where
  config : r.config = c
  /-- Every trial is reported, at its index. -/
  length : r.trials.length = c.trials.toNat
  trial : ∀ (i : Nat) (h : i < r.trials.length),
    runTrial (c.trialConfig (UInt64.ofNat i)) = .ok r.trials[i]
  degenerate : r.degenerate = r.results.countP TrialResult.isDegenerate
  degenerate_le : r.degenerate ≤ c.trials.toNat
  estimate : r.estimate.Sound r.results r.valid

end ExperimentReport

section Run

variable [Form α] {processors : UInt64} {staffing : Staffing} {c : ExperimentConfig α}

/-- All that can become of an experiment whose trials come to `trials`: its settings are refused,
its workers cannot be started, a trial fails, or there is a report. -/
inductive ExperimentConfig.Concluded (processors : UInt64) (staffing : Staffing)
    (c : ExperimentConfig α) (trials : Except (Failure α) (List (TrialReport α))) :
    Except (Failure α) (ExperimentReport α) → Prop where
  | refused {cause : SimulationError α} (h : c.validate = .error cause) :
      c.Concluded processors staffing trials (.error (.error cause))
  | unstaffed {detail : String} (hvalidate : c.validate = .ok ())
      (h : staffing (c.workerCount processors) = .error detail) :
      c.Concluded processors staffing trials (.error (.error (.workerPool detail)))
  | failed {cause : Failure α} (hvalidate : c.validate = .ok ())
      (hstaffed : c.Staffed processors staffing) (h : trials = .error cause) :
      c.Concluded processors staffing trials (.error cause)
  | reported {reports : List (TrialReport α)} {expected : α} {estimate : Estimate α}
      (hvalidate : c.validate = .ok ()) (hstaffed : c.Staffed processors staffing)
      (h : trials = .ok reports) (hexpected : c.expected = .ok expected)
      (hestimate : Estimate.ofResults (reports.map (·.result)) = .ok estimate) :
      c.Concluded processors staffing trials (.ok
        { config := c
          configHash := c.fingerprint
          workers := c.workerCount processors
          trials := reports
          degenerate := (reports.map (·.result)).countP TrialResult.isDegenerate
          expected
          estimate })

variable (processors staffing c) in
theorem runExperimentWith_concluded
    (run : ExperimentConfig α → Except (Failure α) (List (TrialReport α))) :
    c.Concluded processors staffing (run c) (runExperimentWith run processors staffing c) := by
  rw [runExperimentWith]
  cases hvalidate : c.validate with
  | error cause => exact .refused hvalidate
  | ok u =>
      obtain ⟨expected, hexpected⟩ := ExperimentConfig.exists_expected hvalidate
      cases hstaffing : staffing (c.workerCount processors) with
      | error detail =>
          simp only [hexpected, hstaffing, Except.mapError, bind, Except.bind]
          exact .unstaffed hvalidate hstaffing
      | ok u =>
          cases htrials : run c with
          | error cause =>
              simp only [hexpected, hstaffing, Except.mapError, bind, Except.bind]
              exact .failed hvalidate hstaffing rfl
          | ok reports =>
              obtain ⟨estimate, hestimate, -⟩ :=
                Estimate.ofResults_sound (reports.map (·.result))
              simp only [hexpected, hstaffing, hestimate, Except.mapError, bind, Except.bind, pure,
                Except.pure]
              exact .reported hvalidate hstaffing rfl hexpected hestimate

namespace ExperimentConfig

theorem Gathered.concluded {outcome : Except (Failure α) (ExperimentReport α)}
    (h : c.Gathered processors staffing outcome) :
    ∃ trials, c.Collected trials ∧ c.Concluded processors staffing trials outcome := by
  obtain ⟨htrials⟩ := h
  exact ⟨_, htrials, runExperimentWith_concluded processors staffing c fun _ => _⟩

end ExperimentConfig

/-- **The report of an experiment is sound**, whatever workers hand in. -/
theorem sound_of_gathered {outcome : Except (Failure α) (ExperimentReport α)}
    {report : ExperimentReport α} (h : c.Gathered processors staffing outcome)
    (hreport : outcome = .ok report) : report.Sound c := by
  obtain ⟨trials, hcollected, hconcluded⟩ := h.concluded
  cases hconcluded with
  | refused => cases hreport
  | unstaffed => cases hreport
  | failed => cases hreport
  | @reported reports expected estimate _ _ htrials _ hestimate =>
      cases hreport
      subst htrials
      cases hcollected with | reports hplaced =>
      have hlength : reports.length = c.trials.toNat :=
        hplaced.length_eq.symm.trans List.length_range
      -- the trials that are not degenerate are those whose result has a value
      have hcount := TrialResult.length_values (reports.map (·.result))
      rw [List.length_map, hlength] at hcount
      refine ⟨rfl, hlength, ?_, rfl, ?_, ?_⟩
      · intro i hi
        show c.runTrialAt i = .ok reports[i]
        have htrial := hplaced.get (hplaced.length_eq.symm ▸ hi) hi
        simpa only [ExperimentConfig.indices, List.get_eq_getElem, List.getElem_range] using htrial
      · show (reports.map (·.result)).countP TrialResult.isDegenerate ≤ _
        omega
      · show estimate.Sound (reports.map (·.result))
          (c.trials.toNat - (reports.map (·.result)).countP TrialResult.isDegenerate)
        obtain ⟨estimate', hestimate', hsound⟩ :=
          Estimate.ofResults_sound (reports.map (·.result))
        obtain rfl : estimate' = estimate := Except.ok.inj (hestimate'.symm.trans hestimate)
        rwa [← hcount, Nat.add_sub_cancel]

/-- **An experiment succeeds when its settings are in order, its workers can be started and all of
its trials succeed**, and only then: how many of them are valid does not matter. -/
theorem succeeds_iff_of_gathered {outcome : Except (Failure α) (ExperimentReport α)}
    (h : c.Gathered processors staffing outcome) : (∃ report, outcome = .ok report) ↔
      c.validate = .ok () ∧ c.Staffed processors staffing ∧ ∀ i < c.trials.toNat,
        ∃ trial, runTrial (c.trialConfig (UInt64.ofNat i)) = .ok trial := by
  constructor
  · rintro ⟨report, rfl⟩
    have hsound := sound_of_gathered h rfl
    obtain ⟨trials, -, hconcluded⟩ := h.concluded
    cases hconcluded with
    | reported hvalidate hstaffed =>
        refine ⟨hvalidate, hstaffed, fun i hi => ?_⟩
        exact ⟨_, hsound.trial i (hsound.length.symm ▸ hi)⟩
  · rintro ⟨hvalidate, hstaffed, hall⟩
    obtain ⟨trials, hcollected, hconcluded⟩ := h.concluded
    cases hconcluded with
    | refused hrefused => cases hvalidate.symm.trans hrefused
    | unstaffed _ hunstaffed => cases Eq.trans (Eq.symm hstaffed) hunstaffed
    | failed _ _ htrials =>
        subst htrials
        -- the trial whose failure is passed on is one of all trials
        cases hcollected with | failure hi herror =>
        obtain ⟨trial, hok⟩ := hall _ (List.mem_range.mp hi)
        cases Eq.trans (Eq.symm herror) hok
    | reported => exact ⟨_, rfl⟩

/-- **An experiment fails for a parameter, for its workers or for a delay**, and never for too few
samples. -/
theorem failure_of_gathered [LawfulTime α] {cause : Failure α}
    (h : c.Gathered processors staffing (.error cause)) :
    (∃ name refusal, cause = .error (.invalidParameter name refusal)) ∨
      (∃ detail, cause = .error (.workerPool detail)) ∨
      ∃ delay, cause = .error (.invalidDelay delay) := by
  obtain ⟨trials, hcollected, hconcluded⟩ := h.concluded
  cases hconcluded with
  | refused hrefused =>
      obtain ⟨name, refusal, rfl⟩ := c.onlyRefuses_validate _ hrefused
      exact Or.inl ⟨name, refusal, rfl⟩
  | unstaffed => exact Or.inr (Or.inl ⟨_, rfl⟩)
  | failed _ _ htrials =>
      subst htrials
      cases hcollected with | failure _ herror =>
      exact (failure_of_runTrial herror).imp_right Or.inr

end Run

/-! ## The report line -/

/-- What the line of a report shows. -/
structure ExperimentReport.LineSound (r : ExperimentReport Binary64) : Prop where
  /-- Bounds are shown exactly from two valid trials on. -/
  bounds_iff : (∃ lower upper, Shows r.line (boundsPhrase lower upper)) ↔ 2 ≤ r.valid
  /-- They are those of the interval. -/
  bounds : ∀ s, r.estimate = .interval s →
    Shows r.line (boundsPhrase s.lower.text s.upper.text)
  /-- A shortage is told of exactly when there are fewer, although there were several trials. -/
  shortage_iff : (∃ valid trials, Shows r.line (shortagePhrase valid trials)) ↔
    r.valid < 2 ∧ 1 < r.config.trials
  /-- The numbers it states are those of the valid trials and of all. -/
  shortage : r.valid < 2 → 1 < r.config.trials →
    Shows r.line (shortagePhrase (toString r.valid) (toString r.config.trials.toNat))

theorem lineSound_of_interval {r : ExperimentReport Binary64} {a : Aggregate Binary64}
    (ha : r.estimate = .interval a) (henough : 2 ≤ r.valid) : r.LineSound := by
  have hshows := Estimate.interval_shows r.expected r.config.trials a
  have hmisses := Estimate.interval_misses r.expected r.config.trials a
  rw [← ha] at hshows hmisses
  refine ⟨⟨fun _ => henough, fun _ => ⟨_, _, hshows⟩⟩, ?_, ⟨?_, ?_⟩, ?_⟩
  · intro s hs
    rw [ha] at hs
    cases hs
    exact hshows
  · rintro ⟨valid, trials, hphrase⟩
    exact absurd hmisses (not_misses_shortage hphrase)
  · rintro ⟨hfew, -⟩
    exact absurd henough (Nat.not_le_of_lt hfew)
  · intro hfew
    exact absurd henough (Nat.not_le_of_lt hfew)

theorem lineSound_of_insufficient {r : ExperimentReport Binary64} {mean : Option Binary64}
    (hmean : r.estimate = .insufficient r.valid mean) (hfew : r.valid < 2) : r.LineSound := by
  have hbounds := Estimate.insufficient_misses_bounds r.expected r.config.trials r.valid mean
  have hshows := Estimate.insufficient_shows r.expected r.config.trials r.valid mean
  have hmisses := Estimate.insufficient_misses_shortage r.expected r.config.trials r.valid mean
  rw [← hmean] at hbounds hshows hmisses
  refine ⟨⟨?_, fun henough => absurd henough (Nat.not_le_of_lt hfew)⟩, ?_, ⟨?_, ?_⟩,
    fun _ => hshows⟩
  · rintro ⟨lower, upper, hphrase⟩
    exact absurd hbounds (not_misses_bounds hphrase)
  · intro s hs
    rw [hmean] at hs
    cases hs
  · rintro ⟨valid, trials, hphrase⟩
    refine ⟨hfew, ?_⟩
    by_contra htrials
    exact not_misses_shortage hphrase (hmisses htrials)
  · rintro ⟨-, htrials⟩
    exact ⟨_, _, hshows htrials⟩

/-- **The line of a sound report says what the report does.** -/
theorem line_sound [Arithmetic Binary64] {c : ExperimentConfig Binary64}
    {report : ExperimentReport Binary64} (h : report.Sound c) : report.LineSound := by
  by_cases henough : 2 ≤ report.valid
  · obtain ⟨a, ha⟩ := h.estimate.interval_iff.mpr henough
    exact lineSound_of_interval ha henough
  · obtain ⟨mean, hmean⟩ := h.estimate.exists_insufficient (Nat.lt_of_not_le henough)
    exact lineSound_of_insufficient hmean (Nat.lt_of_not_le henough)

/-! ## Experiments -/

/-- **Experiments report what their trials gave**, whatever the platform takes for the logarithm
and in whatever order workers finish the trials. Too few valid trials are no error: if the
settings are in order, the workers are started and no trial fails, there is a report. -/
theorem runExperiment_reported (log threeHalves : Binary64 → Binary64) :
    letI := Binary64.arithmetic log threeHalves
    ∀ (c : ExperimentConfig Binary64) (processors : UInt64) (staffing : Staffing)
      (outcome : Except (Failure Binary64) (ExperimentReport Binary64)),
      c.Outcome processors staffing outcome →
        (∀ report, outcome = .ok report → report.Sound c ∧ report.LineSound) ∧
          (∀ valid required, outcome ≠ .error (.error (.insufficientSamples valid required))) ∧
          ((∃ report, outcome = .ok report) ↔
            c.validate = .ok () ∧ c.Staffed processors staffing ∧ ∀ i < c.trials.toNat,
              ∃ trial, runTrial (c.trialConfig (UInt64.ofNat i)) = .ok trial) := by
  let _ := Binary64.arithmetic log threeHalves
  intro c processors staffing outcome houtcome
  refine ⟨?_, ?_, succeeds_iff_of_gathered houtcome.gathered⟩
  · intro report hreport
    have hsound : report.Sound c := sound_of_gathered houtcome.gathered hreport
    exact ⟨hsound, line_sound hsound⟩
  · rintro valid required rfl
    rcases failure_of_gathered houtcome.gathered with ⟨_, _, hcause⟩ | ⟨_, hcause⟩ | ⟨_, hcause⟩
    · cases hcause
    · cases hcause
    · cases hcause

/-- A machine that has room for so many workers. -/
def Staffing.upTo (room : UInt64) : Staffing := fun workers =>
  if workers ≤ room then .ok () else .error "Resource temporarily unavailable (os error 11)"

/-- The logarithms of the numbers that are drawn in the first three trials of one customer under
the seed 23, for the arrival and for the service of each. -/
def trioLog (x : Binary64) : Binary64 :=
  if x.bits = 4599835267054638282 then ⟨13830880978721439916⟩
  else if x.bits = 4599212831387198990 then ⟨13831360411745310108⟩
  else if x.bits = 4605281701540743082 then ⟨13821079489127747590⟩
  else if x.bits = 4606522584336223796 then ⟨13813518475305355308⟩
  else if x.bits = 4597181725786707680 then ⟨13832820510590853403⟩
  else if x.bits = 4578843361869934656 then ⟨13839918588006233150⟩
  else 0

/-- So many trials of one customer each, whose service is about as short as the clock can tell:
there are `2 ^ 53` services in the mean time of an arrival. -/
def hastyConfig (trials : UInt64) : ExperimentConfig Binary64 :=
  ⟨1, 1, ⟨4845873199050653696⟩, trials, 23, none⟩

/-- One trial is degenerate: of two trials only one is valid, of three there are enough, and all
the same there is no report where four workers cannot be started. -/
theorem runExperiment_reported_hasty :
    letI := Binary64.arithmetic trioLog Binary64.threeHalves
    (∃ report, runExperiment 4 (hastyConfig 2) (.upTo 16) = .ok report ∧
      (report.valid = 1 ∧ report.estimate.isInsufficient = true) ∧
        report.Sound (hastyConfig 2) ∧ report.LineSound) ∧
    (∃ report, runExperiment 4 (hastyConfig 3) (.upTo 16) = .ok report ∧
      (report.valid = 2 ∧ report.estimate.isInsufficient = false) ∧
        report.Sound (hastyConfig 3) ∧ report.LineSound) ∧
    ¬ ∃ report, runExperiment 4 (hastyConfig 3) (.upTo 3) = .ok report := by
  let _ := Binary64.arithmetic trioLog Binary64.threeHalves
  have htwo : (runExperiment 4 (hastyConfig 2) (.upTo 16)).toOption.map
      (fun r => (r.valid, r.estimate.isInsufficient)) = some (1, true) := by
    decide +kernel
  have hthree : (runExperiment 4 (hastyConfig 3) (.upTo 16)).toOption.map
      (fun r => (r.valid, r.estimate.isInsufficient)) = some (2, false) := by
    decide +kernel
  obtain ⟨two, hoktwo, hvalidtwo⟩ := exists_ok_of_toOption htwo
  obtain ⟨three, hokthree, hvalidthree⟩ := exists_ok_of_toOption hthree
  have hreported := runExperiment_reported trioLog Binary64.threeHalves
  refine ⟨⟨two, hoktwo, Prod.mk.inj hvalidtwo, (hreported _ 4 _ _ .alone).1 two hoktwo⟩,
    ⟨three, hokthree, Prod.mk.inj hvalidthree, (hreported _ 4 _ _ .alone).1 three hokthree⟩, ?_⟩
  intro hreport
  obtain ⟨-, hstaffed, -⟩ := (hreported _ 4 _ _ .alone).2.2.mp hreport
  cases hstaffed

end Queueing
