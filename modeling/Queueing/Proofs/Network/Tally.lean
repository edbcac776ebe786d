import Queueing.Proofs.Network.Prompt

/-!
# The tally of a network

Every event is the start of an agent, the arrival of a customer, its departure, or the waking
of a server to which a customer was handed over. Counting events therefore counts the customers
that were handed over (`Tallied`). All others went through the buffer, which bounds its greatest
length from both sides. The first customer is always handed over, since every server is in line
when it arrives.
-/

namespace Queueing

/-! ## The channel -/

namespace Channel

variable {ρ : Type}

/-- Of the records that were put, `w` were handed over, and all others were stored. -/
structure Tallied (c : Channel ρ) (w : Nat) : Prop where
  size_le : c.size ≤ c.peak
  peak_le : c.peak + w ≤ c.put
  /-- The buffer was empty throughout only if nothing was ever stored. -/
  put_le : c.peak = 0 → c.put ≤ w

namespace Tallied

variable {c c' : Channel ρ} {r : ρ} {o : Option ρ} {woken : Option AgentId} {id : AgentId}
  {w : Nat}

theorem empty : (Channel.empty : Channel ρ).Tallied 0 :=
  ⟨Nat.le_refl 0, Nat.le_refl 0, fun _ => Nat.le_refl 0⟩

theorem sent (h : c.Tallied w) (hs : c.Sent r woken c') :
    c'.Tallied (w + woken.toList.length) := by
  have hsize := h.size_le
  have hpeak := h.peak_le
  rw [size] at hsize
  cases hs with
  | handed _ =>
      refine ⟨hsize, Nat.add_le_add_right hpeak 1, ?_⟩
      intro hzero
      exact Nat.succ_le_succ (h.put_le hzero)
  | stored _ =>
      refine ⟨Nat.le_max_right _ _, ?_, ?_⟩
      · show max c.peak (c.buffer.size + 1) + w ≤ c.put + 1
        omega
      · intro (hzero : max c.peak (c.buffer.size + 1) = 0)
        omega

theorem of_frame (h : c.Tallied w) (hsize : c'.size ≤ c.size) (hpeak : c'.peak = c.peak)
    (hput : c'.put = c.put) : c'.Tallied w := by
  refine ⟨?_, ?_, ?_⟩
  · rw [hpeak]
    exact Nat.le_trans hsize h.size_le
  · rw [hpeak, hput]
    exact h.peak_le
  · rw [hpeak, hput]
    exact h.put_le

theorem received (h : c.Tallied w) (hr : c.Received id o c') : c'.Tallied w := by
  cases hr with
  | @taken r buffer hb =>
      refine h.of_frame ?_ rfl rfl
      have := congrArg List.length hb
      rw [List.length_cons, Fifo.length_toList, Fifo.length_toList] at this
      show buffer.size ≤ c.buffer.size
      omega
  | known _ _ => exact h
  | registered _ _ => exact h.of_frame (Nat.le_refl _) rfl rfl

theorem collected (h : c.Tallied w) (hr : c.Collected id o c') : c'.Tallied w := by
  cases hr with
  | nothing _ => exact h
  | oldest _ _ => exact h.of_frame (Nat.le_refl _) rfl rfl

end Tallied

/-- A record that is handed over is in flight, and it is handed over if anybody waits. -/
theorem Sent.counts {c c' : Channel ρ} {r : ρ} {woken : Option AgentId}
    (h : c.Sent r woken c') :
    c'.put = c.put + 1 ∧ c'.inFlight = c.inFlight + woken.toList.length ∧
      (c.waiters ≠ [] → 0 < woken.toList.length) := by
  cases h with
  | handed _ =>
      refine ⟨rfl, ?_, fun _ => Nat.one_pos⟩
      rw [inFlight, List.length_append]
      rfl
  | stored hw => exact ⟨rfl, rfl, fun hne => absurd hw hne⟩

end Channel

variable {α : Type} [Arithmetic α]

/-! ## Turns -/

/-- An agent counts as started from its first turn on. -/
def Agent.started (a : Agent α) : Nat := if a.phase = .running then 0 else 1

/-- What a turn adds to the counts: when `w` customers are handed over in it, one event more
is accounted for. -/
structure Floor.Counted (f : Floor α) (a a' : Agent α) (w : Nat) (f' : Floor α) : Prop where
  channel : ∀ {k}, f.channel.Tallied k → f'.channel.Tallied (k + w)
  events : f'.channel.inFlight + (a.started + f.channel.put + f.sojourns.completed) + 1 =
    f.channel.inFlight + (a'.started + f'.channel.put + f'.sojourns.completed) + w
  /-- A customer is put by an agent that had started, and handed over if anybody is in line. -/
  first : f'.channel.put = f.channel.put ∨
    a.phase ≠ .running ∧ (f.channel.waiters ≠ [] → 0 < w)

section Turns

variable {id : AgentId} {f f' : Floor α}

omit [Arithmetic α] in
theorem Agent.started_of_running {a : Agent α} (h : a.phase = .running) : a.started = 0 :=
  if_pos h

omit [Arithmetic α] in
theorem Agent.started_of_ne {a : Agent α} (h : a.phase ≠ .running) : a.started = 1 := if_neg h

theorem Source.Awaited.frame {s s' : Source α} (h : s.Awaited id f s' f') :
    f'.channel = f.channel ∧ f'.sojourns = f.sojourns := by
  cases h with
  | finished _ => exact ⟨rfl, rfl⟩
  | timed _ _ _ => exact ⟨rfl, rfl⟩

theorem Server.Served.frame {s s' : Server α} {c : Customer α} (h : s.Served id c f s' f') :
    f'.channel = f.channel ∧ f'.sojourns = f.sojourns := by
  cases h with
  | timed _ _ => exact ⟨rfl, rfl⟩

theorem Server.Fetched.frame {s s' : Server α} (h : s.Fetched id f s' f') :
    (∃ o, f.channel.Received id o f'.channel) ∧ f'.sojourns = f.sojourns := by
  cases h with
  | found hr h =>
      obtain ⟨hchannel, hsojourns⟩ := h.frame
      rw [hchannel]
      exact ⟨⟨_, hr⟩, hsojourns⟩
  | empty hr => exact ⟨⟨_, hr⟩, rfl⟩

omit [Arithmetic α] in
def Source.handover? (s : Source α) (channel : Channel (Customer α)) (time : α) :
    Option (Customer α) :=
  if s.phase = .awaitingTimer then
    (channel.send ⟨s.generated, time⟩).1.map fun _ => ⟨s.generated, time⟩
  else none

theorem Source.Resumed.counted {s s' : Source α} (h : s.Resumed id f s' f') :
    f.Counted (.source s) (.source s') (s.handover? f.channel f.now).toList.length f' := by
  have hstarted := Agent.started_of_ne (a := .source s') h.woke.2
  cases h with
  | started hrun h =>
      obtain ⟨hchannel, hsojourns⟩ := h.frame
      have hnone : s.handover? f.channel f.now = none := by
        rw [handover?, hrun]
        rfl
      rw [hnone, Option.toList_none, List.length_nil]
      refine ⟨?_, ?_, ?_⟩
      · intro k hk
        rw [hchannel]
        exact hk
      · have hzero : (Agent.source s).started = 0 := Agent.started_of_running hrun
        rw [hchannel, hsojourns, hstarted, hzero]
        omega
      · left
        rw [hchannel]
  | arrived htimer hs h =>
      obtain ⟨hchannel, hsojourns⟩ := h.frame
      have hphase : (Agent.source s).phase ≠ .running := by
        show s.phase ≠ .running
        rw [htimer]
        decide
      have hlength : (s.handover? f.channel f.now).toList.length =
          (f.channel.send ⟨s.generated, f.now⟩).1.toList.length := by
        rw [handover?, if_pos htimer]
        cases (f.channel.send ⟨s.generated, f.now⟩).1 <;> rfl
      obtain ⟨hput, hflight, hline⟩ := hs.channel.counts
      rw [hlength]
      refine ⟨?_, ?_, Or.inr ⟨hphase, hline⟩⟩
      · intro k hk
        rw [hchannel]
        exact hk.sent hs.channel
      · rw [hchannel, hsojourns, hs.frame.2, hput, hflight, hstarted,
          Agent.started_of_ne hphase]
        omega

theorem Server.Resumed.counted {s s' : Server α} (h : s.Resumed id f s' f') :
    f.Counted (.server s) (.server s') 0 f' := by
  have hstarted := Agent.started_of_ne (a := .server s') h.woke.2
  have hput : ∀ {o : Option (Customer α)} {c c' : Channel (Customer α)}, c.Received id o c' →
      c'.put = c.put ∧ c'.inFlight = c.inFlight := by
    intro o c c' hr
    cases hr <;> exact ⟨rfl, rfl⟩
  cases h with
  | started hrun h =>
      obtain ⟨⟨o, hr⟩, hsojourns⟩ := h.frame
      obtain ⟨hput, hflight⟩ := hput hr
      have hzero : (Agent.server s).started = 0 := Agent.started_of_running hrun
      refine ⟨fun hk => hk.received hr, ?_, Or.inl hput⟩
      rw [hput, hflight, hsojourns, hstarted, hzero]
      omega
  | finished htimer _ h =>
      obtain ⟨⟨o, hr⟩, hsojourns⟩ := h.frame
      obtain ⟨hput, hflight⟩ := hput hr
      have hphase : (Agent.server s).phase ≠ .running := by
        show s.phase ≠ .running
        rw [htimer]
        decide
      refine ⟨fun hk => hk.received hr, ?_, Or.inl hput⟩
      rw [hput, hflight, hsojourns, hstarted, Agent.started_of_ne hphase]
      simp only [Floor.complete, Sojourns.record]
      omega
  | woken hwait hr h =>
      obtain ⟨hchannel, hsojourns⟩ := h.frame
      have hphase : (Agent.server s).phase ≠ .running := by
        show s.phase ≠ .running
        rw [hwait]
        decide
      refine ⟨?_, ?_, ?_⟩
      · intro k hk
        rw [hchannel]
        exact hk.collected hr
      · rw [hchannel, hsojourns, hstarted, Agent.started_of_ne hphase]
        cases hr with
        | oldest hsplit _ =>
            simp only [Channel.inFlight, hsplit, List.length_append, List.length_cons]
            omega
      · left
        rw [hchannel]
        cases hr with
        | oldest _ _ => rfl

end Turns

namespace Network

omit [Arithmetic α] in
/-- The customer who is handed to a server in line at an event, which is its arrival. -/
def handover? (n : Network α) (e : Event α) : Option (Customer α) :=
  match n.agents[e.agent.index]? with
  | some (.source s) => s.handover? n.floor.channel e.time
  | _ => none

/-- What every step adds to the counts, whoever takes it. -/
theorem Moved.counted {n m : Network α} {e : Event α} (h : n.Moved e m) :
    ∃ t a a', n.floor.scheduler.Dispatched e t ∧ n.agents[e.agent.index]? = some a ∧
      m.agents = n.agents.set e.agent.index a' ∧
        m.floor.scheduler.dispatched = n.floor.scheduler.dispatched + 1 ∧
          Floor.Counted { n.floor with scheduler := t } a a' (n.handover? e).toList.length
            m.floor := by
  cases h with
  | @source t s s' f hd ha h =>
      refine ⟨_, _, _, hd, ha, rfl, h.woke.1.dispatched_eq.trans hd.dispatched, ?_⟩
      have hcounted := h.counted
      rw [show Floor.now { n.floor with scheduler := t } = e.time from hd.now] at hcounted
      simp only [handover?, ha]
      exact hcounted
  | server hd ha h =>
      refine ⟨_, _, _, hd, ha, rfl, h.woke.1.dispatched_eq.trans hd.dispatched, ?_⟩
      have hnone : n.handover? e = none := by
        simp only [handover?, ha]
      rw [hnone]
      exact h.counted

/-! ## The tally -/

def started (n : Network α) : Nat := (n.agents.map Agent.started).sum

/-- The tally when `w` customers have been handed over. -/
structure Tallied (n : Network α) (w : Nat) : Prop where
  channel : n.floor.channel.Tallied w
  /-- The wake-ups for customers that are still reserved have yet to be dispatched. -/
  events : n.floor.scheduler.dispatched + n.floor.channel.inFlight =
    n.started + n.floor.channel.put + n.floor.sojourns.completed + w
  first : 0 < n.floor.channel.put → 0 < w

/-- **Every step keeps the tally.** -/
theorem Tallied.step [LawfulTime α] {k w : Nat} {n m : Network α} {e : Event α}
    (h : n.Tallied w) (hp : Prompt k n) (hn : n.Settled) (hb : n.Balanced)
    (hserver : ∃ v, .server v ∈ n.agents) (hm : n.Moved e m) :
    m.Tallied (w + (n.handover? e).toList.length) := by
  obtain ⟨t, a, a', hd, ha, hagents, hdispatched, hcounted⟩ := hm.counted
  refine ⟨hcounted.channel h.channel, ?_, ?_⟩
  · have hstarted : m.started + a.started = n.started + a'.started := by
      rw [started, hagents]
      exact sum_map_set Agent.started ha
    have hevents := h.events
    have hturn := hcounted.events
    simp only at hturn
    omega
  · intro hpos
    by_cases hput : n.floor.channel.put = 0
    · rcases hcounted.first with hsame | ⟨hphase, hline⟩
      · rw [hsame] at hpos
        exact absurd hput (Nat.ne_of_gt hpos)
      · exact Nat.add_pos_right w
          (hline (hp.waiters_ne_nil hn hb hserver hd ha hphase hput))
    · exact Nat.add_pos_left (h.first (Nat.pos_of_ne_zero hput)) _

theorem Spawned.tallied {agents : List (Agent α)} {n : Network α}
    (h : Spawned (ofAgents agents) (List.range agents.length) n)
    (hfresh : ∀ a ∈ agents, a.Fresh) : n.Tallied 0 := by
  have hstarted : n.started = 0 := by
    refine List.sum_eq_zero ?_
    intro x hx
    obtain ⟨a, ha, rfl⟩ := List.mem_map.mp hx
    rw [show n.agents = agents from h.agents] at ha
    cases hfresh a ha <;> rfl
  refine ⟨?_, ?_, ?_⟩
  · rw [h.channel]
    exact .empty
  · rw [h.dispatched, h.channel, h.sojourns, hstarted]
    rfl
  · intro hpos
    rw [h.channel] at hpos
    exact absurd hpos (Nat.lt_irrefl 0)

def handovers (bound : Nat) (n : Network α) : List (Customer α) :=
  (Run.visits step bound n).filterMap fun x => x.1.handover? x.2

/-- **The tally of a run.** Where a network comes to rest, its counters are those of the
customers who were handed over in the run. -/
theorem tallied_of_run [LawfulTime α] {agents : List (Agent α)} {n : Network α} {bound : Nat}
    (h : Spawned (ofAgents agents) (List.range agents.length) n)
    (hfresh : ∀ a ∈ agents, a.Fresh) (hserver : ∃ v, .server v ∈ agents)
    (hrest : (Run.of step bound n).ending = .rested) :
    Reached agents (Run.of step bound n).state ∧
      (Run.of step bound n).state.floor.scheduler.pending = [] ∧
        Tallied (Run.of step bound n).state (n.handovers bound).length := by
  have hkeep : ∀ {xs : List (Customer α)} {s : Network α} {e : Event α} {t : Network α},
      (Reached agents s ∧ Prompt n.floor.scheduler.nextSeq s) ∧ s.Tallied xs.length →
        s.step = .moved e t →
          (Reached agents t ∧ Prompt n.floor.scheduler.nextSeq t) ∧
            t.Tallied (xs ++ (s.handover? e).toList).length := by
    rintro xs s e t ⟨⟨hreached, hprompt⟩, htallied⟩ hstep
    have hmoved := moved_of_step hreached.settled hstep
    refine ⟨⟨hreached.step hstep, hprompt.step hreached.settled hmoved⟩, ?_⟩
    rw [List.length_append]
    exact htallied.step hprompt hreached.settled hreached.balanced
      (exists_server_of_quota_eq hreached.quota_eq hserver) hmoved
  have hstart : (Reached agents n ∧ Prompt n.floor.scheduler.nextSeq n) ∧
      n.Tallied ([] : List (Customer α)).length :=
    ⟨⟨h.reached hfresh, h.prompt hfresh⟩, h.tallied hfresh⟩
  obtain ⟨⟨⟨hreached, -⟩, htallied⟩, hstep⟩ := Run.go_gathered (P := fun xs s =>
    (Reached agents s ∧ Prompt n.floor.scheduler.nextSeq s) ∧ s.Tallied xs.length)
    hkeep hstart hrest
  exact ⟨hreached, hreached.settled.pending_of_step hstep, htallied⟩

omit [Arithmetic α] in
theorem AtRest.started_eq {agents : List (Agent α)} {n : Network α} (h : AtRest agents n) :
    n.started = n.agents.length := by
  have hone : ∀ a ∈ n.agents, a.started = 1 := by
    intro a ha
    refine Agent.started_of_ne ?_
    cases a with
    | source s =>
        show s.phase ≠ .running
        rw [(h.source s ha).1]
        decide
    | server s =>
        show s.phase ≠ .running
        rw [(h.server s ha).1]
        decide
  rw [started, List.map_congr_left hone, List.map_const', List.sum_replicate, smul_eq_mul,
    Nat.mul_one]

/-- **At rest every event is accounted for**: the start of an agent, the arrival or the
departure of a customer, or the waking of a server. -/
theorem Tallied.rest {agents : List (Agent α)} {n : Network α} {w : Nat} (h : n.Tallied w)
    (hn : Reached agents n) (hserver : ∃ v, .server v ∈ agents)
    (hpending : n.floor.scheduler.pending = []) :
    n.floor.scheduler.dispatched = agents.length + 2 * n.floor.channel.put + w := by
  have hrest := hn.atRest hserver hpending
  have hevents := h.events
  have hflight : n.floor.channel.inFlight = 0 := by
    rw [Channel.inFlight, hrest.reserved]
    rfl
  have hlength : n.agents.length = agents.length := by
    rw [← List.length_map Agent.quota, hn.quota_eq, List.length_map]
  rw [hflight, hrest.started_eq, hrest.completed, hlength] at hevents
  omega

end Network

end Queueing
