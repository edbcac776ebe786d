import Queueing.Proofs.Trial.Refinement

/-!
# Every run comes to an end

A server never finishes by itself and a dispatch may schedule two more events, but the work of
a network goes down with every event (`Reached.work_decreases`), and freshly woken agents start
with one event each and three for every customer that is to be generated (`Spawned.work_eq`).
So many events end every run, whatever is drawn and however long the queue grows (`run_stops`).

The scheduler counts the events by itself. No turn of an agent touches its count, not even one
that fails, so what it shows after a run is the number of events of the run.
-/

namespace Queueing

variable {α : Type} [Arithmetic α]

/-! ## The count of the scheduler -/

namespace Scheduler

variable {s t : Scheduler α} {e : Event α}

theorem dispatched_of_schedule {id : AgentId} {delay : α}
    (h : s.schedule id delay = .ok (e, t)) : t.dispatched = s.dispatched := by
  obtain ⟨-, -, ha⟩ := schedule_eq_ok_iff.mp h
  rw [ha.scheduler]

theorem dispatched_of_taken (h : s.next = .ok (some (e, t))) :
    t.dispatched = s.dispatched + 1 := by
  rw [next] at h
  split at h
  · cases h
  · split at h
    · cases h
    · cases h
      rfl

end Scheduler

section Turns

variable {id : AgentId} {f : Floor α}

theorem Floor.dispatched_of_schedule {f' : Floor α} {delay : α} {e : Event α}
    (h : f.schedule id delay = .ok (e, f')) : f'.scheduler.dispatched = f.scheduler.dispatched := by
  rw [schedule] at h
  split at h
  · cases h
  · next ht =>
    cases h
    exact Scheduler.dispatched_of_schedule ht

theorem Floor.dispatched_send (f : Floor α) (c : Customer α) :
    (f.send c).1.scheduler.dispatched = f.scheduler.dispatched := by
  rw [send]
  generalize f.channel.send c = r
  obtain ⟨woken, channel⟩ := r
  cases woken with
  | none => rfl
  | some consumer =>
      simp only
      split
      · rfl
      · next ht => exact dispatched_of_schedule (f := { f with channel }) ht

theorem Source.dispatched_awaitNext (s : Source α) :
    (s.awaitNext id f).floor.scheduler.dispatched = f.scheduler.dispatched := by
  rw [awaitNext]
  split
  · rfl
  · split
    · rfl
    · simp only
      split
      · rfl
      · next ht => exact Floor.dispatched_of_schedule ht

theorem Source.dispatched_resume (s : Source α) :
    (s.resume id f).floor.scheduler.dispatched = f.scheduler.dispatched := by
  rw [resume]
  split
  · exact s.dispatched_awaitNext
  · have hsend := f.dispatched_send ⟨s.generated, f.now⟩
    split
    · next hs =>
      rw [hs] at hsend
      exact hsend
    · next hs =>
      rw [hs] at hsend
      exact (dispatched_awaitNext _).trans hsend
  · rfl

theorem Server.dispatched_serve (s : Server α) (c : Customer α) :
    (s.serve id c f).floor.scheduler.dispatched = f.scheduler.dispatched := by
  rw [serve]
  split
  · rfl
  · simp only
    split
    · rfl
    · next ht => exact Floor.dispatched_of_schedule ht

theorem Server.dispatched_fetch (s : Server α) :
    (s.fetch id f).floor.scheduler.dispatched = f.scheduler.dispatched := by
  rw [fetch, Floor.receive]
  generalize f.channel.receive id = r
  obtain ⟨_ | c, channel⟩ := r
  · rfl
  · exact s.dispatched_serve c

theorem Server.dispatched_resume (s : Server α) :
    (s.resume id f).floor.scheduler.dispatched = f.scheduler.dispatched := by
  rw [resume]
  split
  · exact s.dispatched_fetch
  · split
    · rfl
    · exact dispatched_fetch _
  · rw [Floor.collect]
    generalize f.channel.collect id = r
    obtain ⟨_ | c, channel⟩ := r
    · rfl
    · exact s.dispatched_serve c
  · rfl

/-- **A turn leaves the count of the scheduler as it is**, also when it fails. -/
theorem Agent.dispatched_resume (a : Agent α) :
    (a.resume id f).floor.scheduler.dispatched = f.scheduler.dispatched := by
  cases a with
  | source s => exact s.dispatched_resume
  | server s => exact s.dispatched_resume

end Turns

namespace Network

theorem dispatched_resume (id : AgentId) (n : Network α) :
    (n.resume id).1.floor.scheduler.dispatched = n.floor.scheduler.dispatched := by
  rw [resume]
  split
  · rfl
  · exact Agent.dispatched_resume _

/-- What a step does to the count of the scheduler: it grows by one for an event that was taken,
and so it does if the agent of the event fails. -/
theorem dispatched_step (n : Network α) :
    match n.step with
    | .rest => True
    | .moved _ m => m.floor.scheduler.dispatched = n.floor.scheduler.dispatched + 1
    | .failed e _ m =>
      m.floor.scheduler.dispatched = n.floor.scheduler.dispatched + e.toList.length := by
  unfold step
  cases hnext : n.floor.scheduler.next with
  | error cause => rfl
  | ok next =>
      cases next with
      | none => trivial
      | some next =>
          obtain ⟨e, t⟩ := next
          let taken : Network α := { n with floor := { n.floor with scheduler := t } }
          have hcount : (taken.resume e.agent).1.floor.scheduler.dispatched =
              n.floor.scheduler.dispatched + 1 :=
            (dispatched_resume e.agent taken).trans (Scheduler.dispatched_of_taken hnext)
          simp only
          generalize taken.resume e.agent = r at hcount ⊢
          obtain ⟨m, _ | _⟩ := r
          · exact hcount
          · exact hcount

theorem dispatched_run (n : Network α) : n.run.state.floor.scheduler.dispatched =
    n.floor.scheduler.dispatched + n.run.events.length := by
  have hmoved : ∀ {s : Network α} {e m}, s.step = .moved e m →
      m.floor.scheduler.dispatched = s.floor.scheduler.dispatched + 1 := by
    intro s e m h
    have hcount := dispatched_step s
    rwa [h] at hcount
  have hfailed : ∀ {s : Network α} {e cause m}, s.step = .failed e cause m →
      m.floor.scheduler.dispatched = s.floor.scheduler.dispatched + e.toList.length := by
    intro s e cause m h
    have hcount := dispatched_step s
    rwa [h] at hcount
  rw [Run.events, List.length_reverse]
  exact Run.count_state (c := fun m : Network α => m.floor.scheduler.dispatched) hmoved hfailed _ n

/-! ## Work -/

theorem Spawned.perm_pending {agents : List (Agent α)} {is : List Nat} {n : Network α}
    (h : Spawned (ofAgents agents) is n) :
    (n.floor.scheduler.pending.map (·.agent.index)).Perm is := by
  refine List.perm_iff_count.mpr ?_
  intro i
  have hcount := h.pendingOf ⟨i⟩
  rw [show (ofAgents agents).floor.pendingOf ⟨i⟩ = 0 from rfl, Nat.zero_add] at hcount
  rw [← hcount, Floor.pendingOf, List.count, List.countP_map]
  refine List.countP_congr ?_
  rintro ⟨time, seq, ⟨j⟩⟩ _
  simp

/-- **The work at the start**: every agent is to be woken, and every customer that is to be
generated may cost three events. -/
theorem Spawned.work_eq {agents : List (Agent α)} {n : Network α}
    (h : Spawned (ofAgents agents) (List.range agents.length) n)
    (hfresh : ∀ a ∈ agents, a.Fresh) :
    n.work = agents.length + 3 * (agents.map fun a => a.quota.getD 0).sum := by
  have hpending : n.floor.scheduler.pending.length = agents.length := by
    rw [← List.length_map (f := fun e : Event α => e.agent.index), h.perm_pending.length_eq,
      List.length_range]
  have hfloor : n.floor.work = agents.length := by
    rw [Floor.work, h.channel, hpending]
    rfl
  have hagents : n.agents = agents := h.agents
  rw [Network.work_eq, hfloor, hagents, ← List.sum_map_mul_left]
  congr 2
  refine List.map_congr_left ?_
  intro a ha
  cases hfresh a ha with
  | source _ => rfl
  | server _ => rfl

theorem Reached.length_le_work [LawfulTime α] {agents : List (Agent α)} {n m : Network α}
    {e : Option (Event α)} {cause : Failure α} (hn : Reached agents n)
    (h : n.step = .failed e cause m) : e.toList.length ≤ n.work := by
  obtain ⟨x, delay, -, hfailed⟩ := failed_of_step hn.settled h
  have hpending : 0 < n.floor.scheduler.pending.length := by
    cases hfailed with
    | source hd _ _ => simp [hd.pending]
    | server hd _ _ => simp [hd.pending]
  have hle : e.toList.length ≤ 1 := by cases e <;> simp
  rw [work]
  omega

/-! ## Runs -/

/-- A network stops within a number of events. -/
structure Stops (bound : Nat) (n : Network α) : Prop where
  /-- No more steps can follow each other. -/
  steps_le : ∀ es m, Steps step n es m → es.length ≤ bound
  /-- The run ends when no event is pending, or an agent is refused the wait that it drew. -/
  ended : n.run.ending = .rested ∧ n.run.state.floor.scheduler.isIdle = true ∨
    ∃ delay, n.run.ending = .failed (.error (.invalidDelay delay))
  /-- A run that may dispatch more events is the same. -/
  run_eq : ∀ larger, bound ≤ larger → Run.of step larger n = n.run
  events_le : n.run.events.length ≤ bound
  /-- These are the events that the scheduler counts, with the one at which a run fails. -/
  dispatched_eq : n.run.state.floor.scheduler.dispatched = n.run.events.length

theorem Reached.stops [LawfulTime α] {agents : List (Agent α)} {n : Network α}
    (hn : Reached agents n) (hcount : n.floor.scheduler.dispatched = 0) : n.Stops n.work where
  steps_le es m h := by
    have := Run.length_le_of_steps Reached.work_decreases h hn
    omega
  ended := by
    have hended := Run.go_ended (Network.step (α := α)) n.work [] n
    change Run.Ended _ _ _ _ n.run at hended
    have hfinished := hn.run_finished
    generalize n.run = r at hended hfinished ⊢
    cases hended with
    | rested steps h =>
        have hpending := (steps.preserves Reached.step hn).settled.pending_of_step h
        exact Or.inl ⟨rfl, List.isEmpty_iff.mpr hpending⟩
    | failed steps h =>
        obtain ⟨-, delay, rfl, -⟩ := failed_of_step (steps.preserves Reached.step hn).settled h
        exact Or.inr ⟨delay, rfl⟩
    | unfinished _ _ _ => exact absurd rfl hfinished
  run_eq larger hle := Run.go_of_le hle hn.run_finished
  events_le := by
    rw [Run.events, List.length_reverse]
    exact Run.length_trace_le Reached.work_decreases Reached.length_le_work hn
  dispatched_eq := by
    rw [dispatched_run, hcount, Nat.zero_add]

/-- **Freshly woken agents stop**, whatever they draw. -/
theorem Spawned.stops [LawfulTime α] {agents : List (Agent α)} {n : Network α}
    (h : Spawned (ofAgents agents) (List.range agents.length) n)
    (hfresh : ∀ a ∈ agents, a.Fresh) :
    n.Stops (agents.length + 3 * (agents.map fun a => a.quota.getD 0).sum) := by
  rw [← h.work_eq hfresh]
  exact (h.reached hfresh).stops h.dispatched

end Network

theorem TrialConfig.stops [LawfulTime α] {c : TrialConfig α} (h : c.validate = .ok ()) :
    ∃ n, c.network.spawn = .ok n ∧ n.Stops (3 * c.customers.toNat + 2) ∧
      (n.run.ending = .rested ∧ runTrial c = .ok (TrialReport.ofFloor n.run.state.floor) ∨
        ∃ cause, n.run.ending = .failed cause ∧ runTrial c = .error cause) := by
  obtain ⟨-, harrivals, hservice⟩ := TrialConfig.validate_eq_ok h
  obtain ⟨n, hspawn, hspawned, hrun⟩ := runTrial_of_validate h
  refine ⟨n, hspawn, ?_, hrun⟩
  -- two agents, and the customers of one source
  rw [Nat.add_comm]
  exact Network.Spawned.stops hspawned (Trial.agents_fresh harrivals hservice)

/-- **Every run comes to an end**, whatever the platform takes for the logarithm. Woken agents
dispatch at most one event each and three for every customer of a source, also if one of them
fails; a trial whose parameters are in order is a case of this, and its queue need not be
stable. -/
theorem run_stops (log threeHalves : Binary64 → Binary64) :
    letI := Binary64.arithmetic log threeHalves
    (∀ agents : List (Agent Binary64), (∀ a ∈ agents, a.Fresh) →
      ∃ n, (Network.ofAgents agents).spawn = .ok n ∧
        n.Stops (agents.length + 3 * (agents.map fun a => a.quota.getD 0).sum)) ∧
      ∀ c : TrialConfig Binary64, c.validate = .ok () →
        ∃ n, c.network.spawn = .ok n ∧ n.Stops (3 * c.customers.toNat + 2) ∧
          (n.run.ending = .rested ∧ runTrial c = .ok (TrialReport.ofFloor n.run.state.floor) ∨
            ∃ cause, n.run.ending = .failed cause ∧ runTrial c = .error cause) := by
  let _ := Binary64.arithmetic log threeHalves
  refine ⟨?_, fun c h => TrialConfig.stops h⟩
  intro agents hfresh
  obtain ⟨n, hspawn, hspawned⟩ := Network.spawn_spawned agents
  exact ⟨n, hspawn, hspawned.stops hfresh⟩

/-- Two sources, one of which generates nobody, and a trial whose customers arrive four times as
fast as they are served. -/
theorem run_stops_unstable :
    letI := Binary64.arithmetic Network.pairLog Binary64.threeHalves
    letI agents : List (Agent Binary64) :=
      [.source (Source.fresh 2 1 ⟨18028485387484114715⟩), .source (Source.fresh 0 1 ⟨7⟩),
        .server (Server.fresh 1 ⟨15935747428950683733⟩)]
    letI c : TrialConfig Binary64 := ⟨2, ⟨0x4010000000000000⟩, 1, 7⟩
    ((∀ a ∈ agents, a.Fresh) ∧ c.validate = .ok () ∧ c.serviceRate < c.arrivalRate) ∧
      (∃ n, (Network.ofAgents agents).spawn = .ok n ∧ n.Stops 9) ∧
        ∃ n, c.network.spawn = .ok n ∧ n.Stops 8 ∧
          (n.run.ending = .rested ∧ runTrial c = .ok (TrialReport.ofFloor n.run.state.floor) ∨
            ∃ cause, n.run.ending = .failed cause ∧ runTrial c = .error cause) := by
  let _ := Binary64.arithmetic Network.pairLog Binary64.threeHalves
  let agents : List (Agent Binary64) :=
    [.source (Source.fresh 2 1 ⟨18028485387484114715⟩), .source (Source.fresh 0 1 ⟨7⟩),
      .server (Server.fresh 1 ⟨15935747428950683733⟩)]
  let c : TrialConfig Binary64 := ⟨2, ⟨0x4010000000000000⟩, 1, 7⟩
  have hrate : isRate (1 : Binary64) = true := by decide +kernel
  have hfresh : ∀ a ∈ agents, a.Fresh := by
    intro a ha
    simp only [agents, List.mem_cons, List.not_mem_nil, or_false] at ha
    obtain rfl | rfl | rfl := ha
    · exact .source hrate
    · exact .source hrate
    · exact .server hrate
  have hvalidate : c.validate = .ok () := by decide +kernel
  have hunstable : c.serviceRate < c.arrivalRate := by decide +kernel
  obtain ⟨hagents, htrial⟩ := run_stops Network.pairLog Binary64.threeHalves
  exact ⟨⟨hfresh, hvalidate, hunstable⟩, hagents agents hfresh, htrial c hvalidate⟩

end Queueing
