import Queueing.Proofs.Experiment.Report
import Queueing.Proofs.Trial.Times

/-!
# How many workers there are

Workers that share the trials of an experiment begin and finish them in any order, and of
several trials that fail any one may be the one whose failure is handed in. None of this shows:
the reports stand in the order of the indices, the random streams of a trial depend on its index
alone, and all trials that fail do so for one and the same reason (`runTrialAt_error`). So two
experiments that differ in nothing but their workers come to the same once these are started
(`ExperimentConfig.Gathered.concur`).
-/

namespace Queueing

open Json

variable {α : Type} [Arithmetic α]

/-! ## What workers hand in -/

namespace ExperimentConfig

variable {c : ExperimentConfig α}

/-- The seed of a trial and all its parameters depend on its index, not on the workers. -/
theorem Collected.of_workers {workers : Option UInt64}
    {trials : Except (Failure α) (List (TrialReport α))}
    (h : { c with workers }.Collected trials) : c.Collected trials := by
  cases h with
  | reports h => exact .reports h
  | failure hi h => exact .failure hi h

/-! ## There is one reason to fail -/

theorem validate_trialConfig (h : c.validate = .ok ()) (index : UInt64) :
    (c.trialConfig index).validate = .ok () := by
  simp only [validate_eq, bind_eq_ok_iff] at h
  obtain ⟨_, hcustomers, _, -, _, -, _, harrivals, _, hservice, -⟩ := h
  unfold TrialConfig.validate
  refine bind_eq_ok_iff.mpr ⟨(), hcustomers, ?_⟩
  exact bind_eq_ok_iff.mpr ⟨(), harrivals, hservice⟩

variable {top : α}

/-- **A trial fails only by its overflow**, whichever trial of the experiment it is. -/
theorem runTrialAt_error [LawfulTime α] (htop : IsOverflow top)
    (hwaits : ∀ index, (c.trialConfig index).Waits top) (hvalidate : c.validate = .ok ())
    {i : Nat} {cause : Failure α} (h : c.runTrialAt i = .error cause) :
    cause = .error (.invalidDelay top) := by
  have hends := ends_of_waits htop (hwaits (UInt64.ofNat i))
    (validate_trialConfig hvalidate (UInt64.ofNat i))
  unfold runTrialAt at h
  rw [h] at hends
  rcases hends with ⟨⟨report, hok⟩, -⟩ | ⟨herror, -⟩
  · cases hok
  · cases herror
    rfl

theorem reports_unique {reports reports' : List (TrialReport α)}
    (h : List.Forall₂ (fun i report => c.runTrialAt i = .ok report) c.indices reports)
    (h' : List.Forall₂ (fun i report => c.runTrialAt i = .ok report) c.indices reports') :
    reports = reports' := by
  have hok := mapM_eq_ok_iff.mpr h
  rw [mapM_eq_ok_iff.mpr h'] at hok
  exact (Except.ok.inj hok).symm

theorem not_reports_of_error {reports : List (TrialReport α)} {i : Nat} {cause : Failure α}
    (h : List.Forall₂ (fun i report => c.runTrialAt i = .ok report) c.indices reports)
    (hi : i ∈ c.indices) (herror : c.runTrialAt i = .error cause) : False := by
  obtain ⟨n, hn, rfl⟩ := List.getElem_of_mem hi
  have hok := h.get hn (h.length_eq ▸ hn)
  cases herror.symm.trans hok

/-- Workers that hand in reports hand in the same ones, and workers do not fail where others
succeed. -/
theorem Collected.unique [LawfulTime α] (htop : IsOverflow top)
    (hwaits : ∀ index, (c.trialConfig index).Waits top) (hvalidate : c.validate = .ok ())
    {trials trials' : Except (Failure α) (List (TrialReport α))}
    (h : c.Collected trials) (h' : c.Collected trials') : trials = trials' := by
  cases h with
  | reports h =>
      cases h' with
      | reports h' => rw [reports_unique h h']
      | failure hi herror => exact (not_reports_of_error h hi herror).elim
  | failure hi herror =>
      cases h' with
      | reports h' => exact (not_reports_of_error h' hi herror).elim
      | failure _ herror' =>
          rw [runTrialAt_error htop hwaits hvalidate herror,
            runTrialAt_error htop hwaits hvalidate herror']

end ExperimentConfig

/-! ## The same outcome -/

/-- Reports that agree on everything but the workers. -/
structure ExperimentReport.Agrees (r r' : ExperimentReport α) : Prop where
  configHash : r.configHash = r'.configHash
  trials : r.trials = r'.trials
  degenerate : r.degenerate = r'.degenerate
  expected : r.expected = r'.expected
  estimate : r.estimate = r'.estimate

namespace ExperimentConfig

/-- Outcomes of an experiment that come to the same: to sound reports that agree, or to the
failure with which every trial fails that does. -/
inductive Concur (c : ExperimentConfig α) :
    Except (Failure α) (ExperimentReport α) → Except (Failure α) (ExperimentReport α) → Prop where
  | reports {r r' : ExperimentReport α} (sound : r.Sound c) (h : r.Agrees r') :
      c.Concur (.ok r) (.ok r')
  | failure {cause : Failure α} (failed : ∃ i ∈ c.indices, c.runTrialAt i = .error cause)
      (only : ∀ i ∈ c.indices, ∀ other, c.runTrialAt i = .error other → other = cause) :
      c.Concur (.error cause) (.error cause)

variable [Form α] {c : ExperimentConfig α}

/-- **Experiments that differ in nothing but their workers come to the same** once these are
started, in any arithmetic in which time behaves and overflows to one number. -/
theorem Gathered.concur [LawfulTime α] {top : α} (htop : IsOverflow top)
    (hwaits : ∀ index, (c.trialConfig index).Waits top) {workers : Option UInt64}
    (hvalidate : c.validate = .ok ()) (hvalidate' : { c with workers }.validate = .ok ())
    {processors processors' : UInt64} {staffing staffing' : Staffing}
    (hstaffed : c.Staffed processors staffing)
    (hstaffed' : { c with workers }.Staffed processors' staffing')
    {outcome outcome' : Except (Failure α) (ExperimentReport α)}
    (h : c.Gathered processors staffing outcome)
    (h' : { c with workers }.Gathered processors' staffing' outcome') :
    c.Concur outcome outcome' := by
  obtain ⟨trials, hcollected, hconcluded⟩ := h.concluded
  obtain ⟨trials', hcollected', hconcluded'⟩ := h'.concluded
  obtain rfl := hcollected.unique htop hwaits hvalidate hcollected'.of_workers
  cases hconcluded with
  | refused hrefused => cases hvalidate.symm.trans hrefused
  | unstaffed _ hunstaffed => cases Eq.trans (Eq.symm hstaffed) hunstaffed
  | @failed cause _ _ htrials =>
      subst htrials
      cases hconcluded' with
      | refused hrefused => cases hvalidate'.symm.trans hrefused
      | unstaffed _ hunstaffed => cases Eq.trans (Eq.symm hstaffed') hunstaffed
      | failed _ _ htrials' =>
          cases htrials'
          cases hcollected with | @failure i _ hi herror =>
          refine .failure ⟨i, hi, herror⟩ fun j _ other hother => ?_
          rw [runTrialAt_error htop hwaits hvalidate herror,
            runTrialAt_error htop hwaits hvalidate hother]
      | reported _ _ htrials' => cases htrials'
  | @reported reports expected estimate _ _ htrials hexpected hestimate =>
      subst htrials
      have hsound := sound_of_gathered h rfl
      cases hconcluded' with
      | refused hrefused => cases hvalidate'.symm.trans hrefused
      | unstaffed _ hunstaffed => cases Eq.trans (Eq.symm hstaffed') hunstaffed
      | failed _ _ htrials' => cases htrials'
      | reported _ _ htrials' hexpected' hestimate' =>
          cases htrials'
          cases hexpected.symm.trans hexpected'
          cases hestimate.symm.trans hestimate'
          exact .reports hsound ⟨rfl, rfl, rfl, rfl, rfl⟩

theorem Gathered.eq_of_unstaffed {processors : UInt64} {staffing : Staffing} {detail : String}
    {outcome : Except (Failure α) (ExperimentReport α)} (hvalidate : c.validate = .ok ())
    (hunstaffed : staffing (c.workerCount processors) = .error detail)
    (h : c.Gathered processors staffing outcome) :
    outcome = .error (.error (.workerPool detail)) := by
  obtain ⟨trials, -, hconcluded⟩ := h.concluded
  cases hconcluded with
  | refused hrefused => cases hvalidate.symm.trans hrefused
  | unstaffed _ hunstaffed' =>
      cases hunstaffed.symm.trans hunstaffed'
      rfl
  | failed _ hstaffed => cases Eq.trans (Eq.symm hstaffed) hunstaffed
  | reported _ hstaffed => cases Eq.trans (Eq.symm hstaffed) hunstaffed

end ExperimentConfig

/-- **The number of workers is nothing that an experiment depends on** once they are started, nor
is the order in which they begin and finish its trials, whatever the platform takes for the
logarithm, provided that this is finite and not positive for the numbers above zero and up to one.
The reports hold the trials of all indices in their order; and if trials fail, then all that do
so fail for the reason that is given. Workers that cannot be started are an error of their own. -/
theorem runExperiment_concurs (log threeHalves : Binary64 → Binary64)
    (hlog : Binary64.LawfulLog log) :
    letI := Binary64.arithmetic log threeHalves
    ∀ (c c' : ExperimentConfig Binary64) (processors processors' : UInt64)
      (staffing staffing' : Staffing),
      c.validate = .ok () → c'.validate = .ok () → c' = { c with workers := c'.workers } →
        (∀ outcome, c.Outcome processors staffing outcome →
          c.Gathered processors staffing outcome) ∧
        (c.Staffed processors staffing → c'.Staffed processors' staffing' →
          ∀ outcome outcome', c.Gathered processors staffing outcome →
            c'.Gathered processors' staffing' outcome' → c.Concur outcome outcome') ∧
        ∀ detail, staffing (c.workerCount processors) = .error detail →
          ∀ outcome, c.Gathered processors staffing outcome →
            outcome = .error (.error (.workerPool detail)) := by
  let _ := Binary64.arithmetic log threeHalves
  intro c c' processors processors' staffing staffing' hvalidate hvalidate' hsame
  refine ⟨fun outcome houtcome => houtcome.gathered, ?_,
    fun detail hunstaffed outcome h => h.eq_of_unstaffed hvalidate hunstaffed⟩
  intro hstaffed hstaffed' outcome outcome' h h'
  rw [hsame] at h' hvalidate' hstaffed'
  refine h.concur (Binary64.isOverflow_infinity log threeHalves) ?_ hvalidate hvalidate' hstaffed
    hstaffed' h'
  intro index
  exact (c.trialConfig index).waits_of_validate threeHalves hlog
    (ExperimentConfig.validate_trialConfig hvalidate index)

theorem trioLog_lawful : Binary64.LawfulLog trioLog := by
  intro u _ _
  unfold trioLog
  split_ifs <;> decide

/-- Three trials, in the first and the last of which the customer never arrives: the mean time of
an arrival is about as long as times can be. -/
def stalledConfig (workers : Option UInt64) : ExperimentConfig Binary64 :=
  ⟨1, ⟨1012011266536553⟩, 1, 3, 23, workers⟩

/-- Two workers that finish the last trial first report the same trials as a single worker. Where
two trials of three fail, the last one may be the first to do so, and the error is the same. More
workers than there is room for are refused. -/
theorem runExperiment_concurs_trio :
    letI := Binary64.arithmetic trioLog Binary64.threeHalves
    letI c := hastyConfig 3
    letI overflow : Failure Binary64 := .error (.invalidDelay Binary64.infinity)
    Binary64.LawfulLog trioLog ∧
      (∃ r r', runExperiment 4 c (.upTo 16) = .ok r ∧
        runExperimentIn [2, 0, 1] 1 (.upTo 2) { c with workers := some 2 } = .ok r' ∧
        r.Agrees r' ∧ r.trials.length = 3 ∧ ∀ (i : Nat) (h : i < r.trials.length),
          runTrial (c.trialConfig (UInt64.ofNat i)) = .ok r.trials[i]) ∧
      (((stalledConfig none).runTrialAt 0 = .error overflow ∧
        ((stalledConfig none).runTrialAt 1).toOption.isSome = true ∧
        (stalledConfig none).runTrialAt 2 = .error overflow) ∧
        runExperiment 4 (stalledConfig none) (.upTo 16) = .error overflow ∧
        runExperimentIn [2, 1, 0] 1 (.upTo 2) (stalledConfig (some 2)) = .error overflow) ∧
      runExperiment 1 (stalledConfig (some 17)) (.upTo 16) =
        .error (.error (.workerPool "Resource temporarily unavailable (os error 11)")) := by
  let _ := Binary64.arithmetic trioLog Binary64.threeHalves
  let c := hastyConfig 3
  let overflow : Failure Binary64 := .error (.invalidDelay Binary64.infinity)
  have hconcurs := runExperiment_concurs trioLog Binary64.threeHalves trioLog_lawful
  refine ⟨trioLog_lawful, ?_, ⟨by decide +kernel, ?_⟩, ?_⟩
  · obtain ⟨r, hok, -⟩ : ∃ r, runExperiment 4 c (.upTo 16) = .ok r ∧ r.trials.length = 3 :=
      exists_ok_of_toOption (by decide +kernel)
    have hhasty := hconcurs c { c with workers := some 2 } 4 1 (.upTo 16) (.upTo 2)
      (by decide +kernel) (by decide +kernel) rfl
    have horder : [2, 0, 1].Perm { c with workers := some 2 }.indices := by decide +kernel
    have hconcur := hhasty.2.1 rfl rfl _ _ (hhasty.1 _ .alone)
      (ExperimentConfig.Outcome.shared horder).gathered
    generalize runExperimentIn [2, 0, 1] 1 (.upTo 2) { c with workers := some 2 } = outcome'
      at hconcur ⊢
    rw [hok] at hconcur
    cases hconcur with
    | reports sound h => exact ⟨_, _, hok, rfl, h, sound.length, sound.trial⟩
  · have hstalled := hconcurs (stalledConfig none) (stalledConfig (some 2)) 4 1 (.upTo 16)
      (.upTo 2) (by decide +kernel) (by decide +kernel) rfl
    have horder : [2, 1, 0].Perm (stalledConfig (some 2)).indices := by decide +kernel
    have hconcur := hstalled.2.1 rfl rfl _ _ (hstalled.1 _ .alone)
      (ExperimentConfig.Outcome.shared horder).gathered
    have herror : runExperiment 4 (stalledConfig none) (.upTo 16) = .error overflow := by
      decide +kernel
    rw [herror] at hconcur ⊢
    generalize runExperimentIn [2, 1, 0] 1 (.upTo 2) (stalledConfig (some 2)) = outcome'
      at hconcur ⊢
    cases hconcur
    exact ⟨rfl, rfl⟩
  · exact (hconcurs (stalledConfig (some 17)) (stalledConfig none) 1 1 (.upTo 16) (.upTo 16)
      (by decide +kernel) (by decide +kernel) rfl).2.2 _ rfl _
      (ExperimentConfig.Outcome.alone).gathered

end Queueing
