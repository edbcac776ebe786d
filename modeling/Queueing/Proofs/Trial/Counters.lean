import Queueing.Proofs.Network.Tally
import Queueing.Proofs.Statistics.Summary
import Queueing.Proofs.Trial.Refinement

/-!
# The counters of a trial

Four parts of a trial keep counts of their own: the channel, the scheduler, the record of the
times in system, and their summary. They agree, and what they leave open is one number: how many
customers were handed to the server while it waited (`runTrial_counted`).
-/

namespace Queueing

variable {α : Type} [Arithmetic α]

def TrialConfig.handovers (c : TrialConfig α) : List (Customer α) :=
  match c.network.spawn with
  | .ok n => n.handovers n.work
  | .error _ => []

/-- What the counters of a report say of a trial with this many customers. -/
structure TrialReport.Counted (c : TrialConfig α) (report : TrialReport α) : Prop where
  arrivals : report.arrivals = c.customers.toNat
  completed : report.completed = c.customers.toNat
  count : report.sojourn.count = c.customers.toNat
  /-- Both agents start, everybody arrives and leaves, and some find the server waiting. -/
  events : report.events = 2 + 2 * c.customers.toNat + c.handovers.length
  /-- The first customer finds the server waiting. -/
  le_events : 2 * c.customers.toNat + 3 ≤ report.events
  events_le : report.events ≤ 3 * c.customers.toNat + 2
  peak_add_events : report.peakQueue + report.events ≤ 3 * c.customers.toNat + 2
  peak_lt : report.peakQueue < c.customers.toNat
  peak_eq_zero : report.peakQueue = 0 ↔ report.events = 3 * c.customers.toNat + 2

theorem counted_of_runTrial [LawfulTime α] {c : TrialConfig α} {report : TrialReport α}
    (h : runTrial c = .ok report) : report.Counted c := by
  have hfollows := follows_of_runTrial h
  have harrivals := hfollows.arrivals
  obtain ⟨hvalidate, n, hspawn, hspawned, hrested, rfl⟩ := rested_of_runTrial h
  obtain ⟨hcount, harrivalRate, hserviceRate⟩ := TrialConfig.validate_eq_ok hvalidate
  have hfresh := Trial.agents_fresh harrivalRate hserviceRate
  have hserver : ∃ v, .server v ∈ [Agent.source c.source, .server c.server] :=
    ⟨_, List.mem_cons_of_mem _ List.mem_cons_self⟩
  obtain ⟨hreached, hpending, htallied⟩ :=
    Network.tallied_of_run hspawned hfresh hserver hrested
  have hhandovers : c.handovers = n.handovers n.work := by
    rw [TrialConfig.handovers, hspawn]
  rw [← hhandovers] at htallied
  -- the report reads the counters of the floor
  have hevents : (TrialReport.ofFloor n.run.state.floor).events =
      2 + 2 * (TrialReport.ofFloor n.run.state.floor).arrivals + c.handovers.length :=
    htallied.rest hreached hserver hpending
  have hpeak : (TrialReport.ofFloor n.run.state.floor).peakQueue + c.handovers.length ≤
      (TrialReport.ofFloor n.run.state.floor).arrivals := htallied.channel.peak_le
  have hstored : (TrialReport.ofFloor n.run.state.floor).peakQueue = 0 →
      (TrialReport.ofFloor n.run.state.floor).arrivals ≤ c.handovers.length :=
    htallied.channel.put_le
  have hfirst : 0 < (TrialReport.ofFloor n.run.state.floor).arrivals → 0 < c.handovers.length :=
    htallied.first
  have hpos : 0 < c.customers.toNat :=
    Nat.pos_of_ne_zero fun hzero => hcount (UInt64.toNat_inj.mp hzero)
  rw [harrivals] at hevents hpeak hstored hfirst
  have hfirst := hfirst hpos
  refine ⟨harrivals, hfollows.completed, ?_, hevents, ?_, ?_, ?_, ?_, ?_⟩
  · rw [hfollows.sojourn, Summary.count_ofList, List.length_map, List.length_range]
  · omega
  · omega
  · omega
  · omega
  · constructor
    · intro hzero
      have := hstored hzero
      omega
    · intro heq
      omega

/-- **The counters of a trial agree**, whatever the platform takes for the logarithm. -/
theorem runTrial_counted (log threeHalves : Binary64 → Binary64) :
    letI := Binary64.arithmetic log threeHalves
    ∀ (c : TrialConfig Binary64) (report : TrialReport Binary64),
      runTrial c = .ok report → report.Counted c := by
  let _ := Binary64.arithmetic log threeHalves
  exact fun c report h => counted_of_runTrial h

/-- Of two customers, the second one has to wait. -/
theorem runTrial_counted_pair :
    letI := Binary64.arithmetic Network.pairLog Binary64.threeHalves
    ∃ report, runTrial pairConfig = .ok report ∧ (report.events = 7 ∧ report.peakQueue = 1) ∧
      report.Counted pairConfig := by
  let _ := Binary64.arithmetic Network.pairLog Binary64.threeHalves
  have hrun : (runTrial pairConfig).toOption.map (fun r => (r.events, r.peakQueue)) =
      some (7, 1) := by
    decide +kernel
  obtain ⟨report, hok, hreport⟩ := exists_ok_of_toOption hrun
  exact ⟨report, hok, Prod.mk.inj hreport,
    runTrial_counted Network.pairLog Binary64.threeHalves pairConfig report hok⟩

end Queueing
