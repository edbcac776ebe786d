import Queueing.Proofs.Trial.Tracking

/-!
# A trial is the recursion of a single server

The simulation of a trial goes through events, a channel and two agents; the recursion of its
times goes through none. The two agree in every number, bit for bit, and in who leaves when
(`runTrial_follows`).
-/

namespace Queueing

variable {α : Type} [Arithmetic α]

/-! ## Who leaves when -/

/-- The customer who leaves at an event, and when: the event wakes a server that has somebody
in service. -/
def Network.departure? (n : Network α) (e : Event α) : Option (Customer α × α) :=
  match n.agents[e.agent.index]? with
  | some (.server v) => if v.phase = .awaitingTimer then v.inService.map (·, e.time) else none
  | _ => none

def Network.departures (bound : Nat) (n : Network α) : List (Customer α × α) :=
  (Run.visits step bound n).filterMap fun x => x.1.departure? x.2

def TrialConfig.departures (c : TrialConfig α) : List (Customer α × α) :=
  match c.network.spawn with
  | .ok n => n.departures n.work
  | .error _ => []

namespace Trial

variable {c : TrialConfig α}

/-! ## Every step -/

/-- **A step of a trial is a step of the recursion**: nobody leaves, or the next customer does,
at the time of its departure. -/
theorem Tracks.step [LawfulTime α] {n m : Network α} {e : Event α} {j k : Nat}
    (h : Tracks c n j k) (harrivals : isRate c.arrivalRate = true)
    (hservice : isRate c.serviceRate = true) (hstep : n.step = .moved e m) :
    (n.departure? e = none ∧ ∃ j', Tracks c m j' k) ∨
      (n.departure? e = some (c.served k) ∧ ∃ j', Tracks c m j' (k + 1)) := by
  have hreached := h.reached.step hstep
  cases Network.moved_of_step h.reached.settled hstep with
  | source hd ha hr =>
      refine Or.inl ⟨?_, h.source harrivals hd ha hr hreached⟩
      simp only [Network.departure?, ha]
  | server hd ha hr =>
      rcases h.server hservice hd ha hr hreached with
        ⟨hphase, htracks⟩ | ⟨hphase, hc, htime, htracks⟩
      · refine Or.inl ⟨?_, j, htracks⟩
        simp only [Network.departure?, ha, if_neg hphase]
      · refine Or.inr ⟨?_, j, htracks⟩
        simp only [Network.departure?, ha, if_pos hphase, hc, htime, Option.map_some]
        rfl

theorem tracks_of_run [LawfulTime α] (harrivals : isRate c.arrivalRate = true)
    (hservice : isRate c.serviceRate = true) {bound : Nat} {n : Network α}
    (h : Tracks c n 0 0) (hrest : (Run.of Network.step bound n).ending = .rested) :
    ∃ j k, Tracks c (Run.of Network.step bound n).state j k ∧
      (Run.of Network.step bound n).state.step = .rest ∧
      n.departures bound = (List.range k).map c.served := by
  have hkeep : ∀ {xs : List (Customer α × α)} {s : Network α} {e : Event α} {t : Network α},
      (∃ j k, Tracks c s j k ∧ xs = (List.range k).map c.served) → s.step = .moved e t →
        ∃ j k, Tracks c t j k ∧ xs ++ (s.departure? e).toList = (List.range k).map c.served := by
    rintro xs s e t ⟨j, k, hs, rfl⟩ hstep
    rcases hs.step harrivals hservice hstep with ⟨hnone, j', ht⟩ | ⟨hsome, j', ht⟩
    · refine ⟨j', k, ht, ?_⟩
      rw [hnone]
      exact List.append_nil _
    · refine ⟨j', k + 1, ht, ?_⟩
      rw [hsome, List.range_succ, List.map_append]
      rfl
  obtain ⟨⟨j, k, ht, hdepartures⟩, hstep⟩ := Run.go_gathered (P := fun xs s =>
    ∃ j k, Tracks c s j k ∧ xs = (List.range k).map c.served) hkeep ⟨0, 0, h, rfl⟩ hrest
  exact ⟨j, k, ht, hstep, hdepartures⟩

/-! ## The first state and the last -/

theorem agents_fresh (harrivals : isRate c.arrivalRate = true)
    (hservice : isRate c.serviceRate = true) :
    ∀ a ∈ [Agent.source c.source, .server c.server], a.Fresh := by
  intro a ha
  rcases List.mem_cons.mp ha with rfl | ha
  · exact .source harrivals
  · rw [List.mem_singleton.mp ha]
    exact .server hservice

theorem tracks_of_spawned [LawfulTime α] {n : Network α}
    (h : Network.Spawned c.network (List.range 2) n) (harrivals : isRate c.arrivalRate = true)
    (hservice : isRate c.serviceRate = true) : Tracks c n 0 0 := by
  have hnow : n.floor.now = 0 := h.now
  have hwakes : ∀ id, n.floor.WakesAt id 0 := fun id e he _ =>
    (h.time e he).resolve_left List.not_mem_nil
  refine ⟨h.reached (agents_fresh harrivals hservice),
    ⟨c.source, c.server, 0, 0, h.agents, .starting, hwakes _, ?_, hwakes _⟩, ?_, h.sojourns⟩
  · refine .starting hnow ?_ ?_
    · rw [h.channel]
      rfl
    · rw [h.channel]
      rfl
  · intro i hi
    rw [hnow, Nat.le_zero.mp hi]
    exact IsTime.zero.le_refl

/-- At rest everybody has arrived and left, and the clock shows the last departure. -/
theorem Tracks.rest {n : Network α} {j k : Nat} (h : Tracks c n j k)
    (hrest : n.floor.scheduler.pending = []) :
    j = c.customers.toNat ∧ k = j ∧ n.floor.now = c.departure j := by
  obtain ⟨s, v, ts, tv, hagents, hs, -, hv, -⟩ := h.agents
  have hsource := h.reached.settled.placed_of_rest hrest sourceId
  have hserver := h.reached.settled.placed_of_rest hrest serverId
  rw [hagents] at hsource hserver
  have hj : j = c.customers.toNat := by
    cases hs with
    | starting => cases hsource.pending_eq (Or.inl rfl)
    | timed => cases hsource.pending_eq (Or.inr rfl)
    | done =>
        generalize hw : n.floor.waitingOf sourceId = w at hsource
        generalize hr : n.floor.reservedOf sourceId = r at hsource
        cases hsource with
        | exhausted _ hg => exact hg
  refine ⟨hj, ?_⟩
  cases hv with
  | starting => cases hserver.pending_eq (Or.inl rfl)
  | serving => cases hserver.pending_eq (Or.inr rfl)
  | waiting hnow _ _ => exact ⟨rfl, hnow⟩
  | woken _ _ _ _ hreserved _ =>
      have hle := hserver.reserved_le
      rw [Floor.reservedOf, hreserved] at hle
      cases hle

/-! ## The report -/

theorem record_foldl (xs : List α) : ∀ s : Sojourns α, xs.foldl (fun s x => s.record x) s =
    ⟨xs.foldl (· + ·) s.sum, s.completed + xs.length, s.summary.extend xs⟩ := by
  induction xs with
  | nil => exact fun s => rfl
  | cons x xs ih =>
      intro s
      rw [List.foldl_cons, ih, List.length_cons]
      simp only [Sojourns.record, Summary.extend, List.foldl_cons, Sojourns.mk.injEq, true_and,
        and_true]
      omega

theorem recorded_eq (k : Nat) : recorded c k =
    ⟨((List.range k).map c.sojourn).foldl (· + ·) 0, k,
      Summary.ofList ((List.range k).map c.sojourn)⟩ := by
  rw [recorded, record_foldl, List.length_map, List.length_range]
  simp only [Sojourns.empty, Nat.zero_add, Summary.ofList]

end Trial

omit [Arithmetic α] in
theorem checkCount_eq_ok {name : String} {count : UInt64}
    (h : (checkCount name count : Except (SimulationError α) Unit) = .ok ()) : count ≠ 0 := by
  rw [checkCount] at h
  split_ifs at h with hcount
  exact hcount

theorem checkRate_eq_ok {name : String} {rate : α} (h : checkRate name rate = .ok ()) :
    isRate rate = true := by
  rw [checkRate] at h
  split_ifs at h with hrate
  exact hrate

theorem TrialConfig.validate_eq_ok {c : TrialConfig α} (h : c.validate = .ok ()) :
    c.customers ≠ 0 ∧ isRate c.arrivalRate = true ∧ isRate c.serviceRate = true := by
  rw [validate] at h
  obtain ⟨_, hcount, h⟩ := bind_eq_ok_iff.mp h
  obtain ⟨_, harrivals, hservice⟩ := bind_eq_ok_iff.mp h
  exact ⟨checkCount_eq_ok hcount, checkRate_eq_ok harrivals, checkRate_eq_ok hservice⟩

/-- The report of a trial is what the recursion gives. -/
structure TrialReport.Follows (c : TrialConfig α) (report : TrialReport α) : Prop where
  /-- The recursion reads the numbers that successive draws of the two streams give. -/
  arrival_draw : ∀ i, (c.arrivalStream.skip i).exponential c.arrivalRate =
    .ok (c.interarrival i, c.arrivalStream.skip (i + 1))
  service_draw : ∀ i, (c.serviceStream.skip i).exponential c.serviceRate =
    .ok (c.serviceTime i, c.serviceStream.skip (i + 1))
  /-- Customers leave in the order of their arrival, each at its time. -/
  departures : c.departures = (List.range c.customers.toNat).map c.served
  sojourn : report.sojourn = Summary.ofList ((List.range c.customers.toNat).map c.sojourn)
  result : report.result = TrialResult.ofMean
    (((List.range c.customers.toNat).map c.sojourn).foldl (· + ·) 0 /
      ((c.customers.toNat : Nat) : α))
  finalTime : report.finalTime = c.departure c.customers.toNat
  completed : report.completed = c.customers.toNat
  arrivals : report.arrivals = c.customers.toNat

theorem runTrial_of_validate_error {c : TrialConfig α} {cause : SimulationError α}
    (h : c.validate = .error cause) : runTrial c = .error (.error cause) := by
  rw [runTrial, h]
  rfl

theorem runTrial_of_validate [LawfulTime α] {c : TrialConfig α} (h : c.validate = .ok ()) :
    ∃ n, c.network.spawn = .ok n ∧ Network.Spawned c.network (List.range 2) n ∧
      (n.run.ending = .rested ∧ runTrial c = .ok (TrialReport.ofFloor n.run.state.floor) ∨
        ∃ cause, n.run.ending = .failed cause ∧ runTrial c = .error cause) := by
  obtain ⟨-, harrivals, hservice⟩ := TrialConfig.validate_eq_ok h
  obtain ⟨n, hspawn, hspawned⟩ := Network.spawn_spawned [.source c.source, .server c.server]
  have hspawn : c.network.spawn = .ok n := hspawn
  have hfinished := (hspawned.reached (Trial.agents_fresh harrivals hservice)).run_finished
  refine ⟨n, hspawn, hspawned, ?_⟩
  rw [runTrial, h, hspawn]
  simp only [Except.mapError, bind, Except.bind]
  cases hend : n.run.ending with
  | rested => exact Or.inl ⟨rfl, rfl⟩
  | failed cause => exact Or.inr ⟨cause, rfl, rfl⟩
  | unfinished => exact absurd hend hfinished

theorem rested_of_runTrial [LawfulTime α] {c : TrialConfig α} {report : TrialReport α}
    (h : runTrial c = .ok report) : c.validate = .ok () ∧ ∃ n, c.network.spawn = .ok n ∧
      Network.Spawned c.network (List.range 2) n ∧ n.run.ending = .rested ∧
        report = TrialReport.ofFloor n.run.state.floor := by
  cases hvalidate : c.validate with
  | error cause =>
      rw [runTrial_of_validate_error hvalidate] at h
      cases h
  | ok u =>
      obtain ⟨n, hspawn, hspawned, ⟨hrested, hok⟩ | ⟨cause, -, herror⟩⟩ :=
        runTrial_of_validate hvalidate
      · refine ⟨rfl, n, hspawn, hspawned, hrested, ?_⟩
        exact Except.ok.inj (h.symm.trans hok)
      · rw [herror] at h
        cases h

/-- **A trial computes the recursion**, in any arithmetic in which time behaves. -/
theorem follows_of_runTrial [LawfulTime α] {c : TrialConfig α} {report : TrialReport α}
    (h : runTrial c = .ok report) : report.Follows c := by
  obtain ⟨hvalidate, n, hspawn, hspawned, hrested, rfl⟩ := rested_of_runTrial h
  obtain ⟨hcount, harrivals, hservice⟩ := TrialConfig.validate_eq_ok hvalidate
  have htracks := Trial.tracks_of_spawned hspawned harrivals hservice
  obtain ⟨j, k, ht, hrest, hdepartures⟩ :=
    Trial.tracks_of_run harrivals hservice htracks hrested
  have hpending := ht.reached.settled.pending_of_step hrest
  obtain ⟨rfl, rfl, hnow⟩ := ht.rest hpending
  have hsojourns : n.run.state.floor.sojourns = _ := ht.sojourns.trans (Trial.recorded_eq _)
  refine ⟨Xorshift.exponential_skip harrivals _, Xorshift.exponential_skip hservice _,
    ?_, ?_, ?_, hnow, ?_, ?_⟩
  · rw [TrialConfig.departures, hspawn]
    exact hdepartures
  · show n.run.state.floor.sojourns.summary = _
    rw [hsojourns]
  · show n.run.state.floor.sojourns.result = _
    have hpos : 0 < c.customers.toNat :=
      Nat.pos_of_ne_zero fun hzero => hcount (UInt64.toNat_inj.mp hzero)
    rw [hsojourns, Sojourns.result, Sojourns.mean?, if_pos hpos]
  · show n.run.state.floor.sojourns.completed = _
    rw [hsojourns]
  · show n.run.state.floor.channel.put = _
    have hserver : ∃ v, .server v ∈ [Agent.source c.source, .server c.server] :=
      ⟨_, List.mem_cons_of_mem _ List.mem_cons_self⟩
    have hcompleted : n.run.state.floor.sojourns.completed = n.run.state.floor.channel.put :=
      (ht.reached.atRest hserver hpending).completed
    rw [hsojourns] at hcompleted
    exact hcompleted.symm

/-- **A trial is the recursion of a single server**, whatever the platform takes for the
logarithm. -/
theorem runTrial_follows (log threeHalves : Binary64 → Binary64) :
    letI := Binary64.arithmetic log threeHalves
    ∀ (c : TrialConfig Binary64) (report : TrialReport Binary64),
      runTrial c = .ok report → report.Follows c := by
  let _ := Binary64.arithmetic log threeHalves
  exact fun c report h => follows_of_runTrial h

/-- A trial of two customers, whose streams are those of which `Network.pairLog` knows. -/
def pairConfig : TrialConfig Binary64 := ⟨2, 1, 1, 7⟩

theorem runTrial_follows_pair :
    letI := Binary64.arithmetic Network.pairLog Binary64.threeHalves
    ∃ report, runTrial pairConfig = .ok report ∧ report.finalTime = ⟨4608600190659292232⟩ ∧
      report.Follows pairConfig := by
  let _ := Binary64.arithmetic Network.pairLog Binary64.threeHalves
  have htime : (runTrial pairConfig).toOption.map (·.finalTime) = some ⟨4608600190659292232⟩ := by
    decide +kernel
  obtain ⟨report, hreport, hfinal⟩ := Option.map_eq_some_iff.mp htime
  have hok : runTrial pairConfig = .ok report := by
    cases hr : runTrial pairConfig with
    | ok r =>
        rw [hr] at hreport
        exact congrArg Except.ok (Option.some.inj hreport)
    | error cause =>
        rw [hr] at hreport
        cases hreport
  exact ⟨report, hok, hfinal,
    runTrial_follows Network.pairLog Binary64.threeHalves pairConfig report hok⟩

end Queueing
