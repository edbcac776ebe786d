import Mathlib.Data.List.Nodup
import Mathlib.Logic.ExistsUnique
import Queueing.Proofs.Network.Steps

/-!
# The account of a network

Sources and servers in any number and any order are woken on a fresh floor, and from then on
only dispatched events drive them. In every state that is reached between two dispatches each
agent is in exactly one situation, and every customer that was generated is in the channel,
in service, or gone (`network_account`). No agent is ever resumed where it cannot go on, so a
trial fails for a refused delay alone; and a network that comes to rest has served everybody.
-/

namespace Queueing

variable {α : Type} [Arithmetic α]

/-- An agent that has not started, with a usable rate. -/
inductive Agent.Fresh : Agent α → Prop where
  | source {limit : Nat} {rate : α} {rng : Xorshift} (h : isRate rate = true) :
      Fresh (.source (Source.fresh limit rate rng))
  | server {rate : α} {rng : Xorshift} (h : isRate rate = true) :
      Fresh (.server (Server.fresh rate rng))

namespace Network

/-! ## Waking the agents -/

/-- What waking some agents at the present time does to the floor. -/
structure Spawned (n : Network α) (is : List Nat) (m : Network α) : Prop where
  agents : m.agents = n.agents
  channel : m.floor.channel = n.floor.channel
  sojourns : m.floor.sojourns = n.floor.sojourns
  timely : m.floor.Timely
  now : m.floor.now = n.floor.now
  dispatched : m.floor.scheduler.dispatched = n.floor.scheduler.dispatched
  time : ∀ e ∈ m.floor.scheduler.pending, e ∈ n.floor.scheduler.pending ∨ e.time = n.floor.now
  pendingOf : ∀ id, m.floor.pendingOf id = n.floor.pendingOf id + is.count id.index

theorem spawn_one [LawfulTime α] {n : Network α} (hn : n.floor.Timely) (i : Nat) :
    ∃ e f, n.floor.schedule ⟨i⟩ 0 = .ok (e, f) ∧ Spawned n [i] { n with floor := f } := by
  obtain ⟨e, t, ht, ha⟩ := Scheduler.schedule_zero hn.now_time ⟨i⟩
  have hf : n.floor.schedule ⟨i⟩ 0 = .ok (e, { n.floor with scheduler := t }) := by
    simp only [Floor.schedule, ht]
  refine ⟨_, _, hf, rfl, rfl, rfl, hn.accept ha hn.now_time, ha.now_eq, ?_, ?_, ?_⟩
  · rw [ha.scheduler]
  · intro x hx
    rcases ha.mem_pending.mp hx with rfl | hx
    · rw [ha.event]
      exact Or.inr rfl
    · exact Or.inl hx
  · intro id
    refine (ha.countP_pending id).trans ?_
    rw [List.count_singleton]
    by_cases h : i = id.index
    · subst h
      simp [Floor.pendingOf]
    · have hne : AgentId.mk i ≠ id := by
        intro heq
        exact h (congrArg AgentId.index heq)
      simp [Floor.pendingOf, hne, h]

theorem Spawned.trans {n m k : Network α} {is js : List Nat} (h : Spawned n is m)
    (h' : Spawned m js k) : Spawned n (is ++ js) k where
  agents := h'.agents.trans h.agents
  channel := h'.channel.trans h.channel
  sojourns := h'.sojourns.trans h.sojourns
  timely := h'.timely
  now := h'.now.trans h.now
  dispatched := h'.dispatched.trans h.dispatched
  time e he := by
    rcases h'.time e he with he | he
    · exact h.time e he
    · exact Or.inr (he.trans h.now)
  pendingOf id := by
    rw [h'.pendingOf, h.pendingOf, List.count_append, Nat.add_assoc]

theorem foldlM_spawned [LawfulTime α] : ∀ (is : List Nat) {n : Network α}, n.floor.Timely →
    ∃ m, is.foldlM (fun n i => do
      let (_, floor) ← n.floor.schedule ⟨i⟩ 0
      pure { n with floor }) n = Except.ok (ε := SimulationError α) m ∧ Spawned n is m
  | [], n, hn => ⟨n, rfl, rfl, rfl, rfl, hn, rfl, rfl, fun _ he => Or.inl he, fun _ => rfl⟩
  | i :: is, n, hn => by
      obtain ⟨e, f, hschedule, hone⟩ := spawn_one hn i
      obtain ⟨m, hm, hrest⟩ := foldlM_spawned is hone.timely
      refine ⟨m, ?_, hone.trans hrest⟩
      rw [List.foldlM_cons, hschedule]
      exact hm

theorem ofAgents_timely [LawfulTime α] (agents : List (Agent α)) :
    (ofAgents agents).floor.Timely where
  orderly := Scheduler.empty_orderly
  now_time := IsTime.zero
  time := by simp [ofAgents, Floor.empty, Scheduler.empty]
  apart := Or.inl rfl

theorem spawn_spawned [LawfulTime α] (agents : List (Agent α)) :
    ∃ n, (ofAgents agents).spawn = .ok n ∧
      Spawned (ofAgents agents) (List.range agents.length) n :=
  foldlM_spawned _ (ofAgents_timely agents)

theorem Spawned.settled {agents : List (Agent α)} {n : Network α}
    (h : Spawned (ofAgents agents) (List.range agents.length) n)
    (hfresh : ∀ a ∈ agents, a.Fresh) : n.Settled := by
  have hagents : n.agents = agents := h.agents
  refine ⟨h.timely, ?_, ?_⟩
  · intro id
    have hwaiting : n.floor.waitingOf id = 0 := by
      rw [Floor.waitingOf, h.channel]
      rfl
    have hreserved : n.floor.reservedOf id = 0 := by
      rw [Floor.reservedOf, h.channel]
      rfl
    have hpending : n.floor.pendingOf id = (List.range agents.length).count id.index := by
      rw [h.pendingOf]
      exact Nat.zero_add _
    rw [hwaiting, hreserved, hpending, hagents]
    by_cases hid : id.index < agents.length
    · rw [List.count_eq_one_of_mem List.nodup_range (List.mem_range.mpr hid),
        List.getElem?_eq_getElem hid]
      have ha := hfresh _ (List.getElem_mem hid)
      generalize agents[id.index] = a at ha
      cases ha with
      | source hrate => exact .newSource rfl rfl
      | server hrate => exact .newServer rfl rfl
    · rw [List.count_eq_zero.mpr (by rwa [List.mem_range]),
        List.getElem?_eq_none (Nat.le_of_not_lt hid)]
      exact .absent
  · intro a ha
    rw [hagents] at ha
    cases hfresh a ha with
    | source hrate => exact hrate
    | server hrate => exact hrate

end Network

/-! ## Situations -/

/-- Where an agent stands between two dispatches. -/
inductive Situation where
  /-- Woken for the first time, and not yet resumed. -/
  | starting
  /-- Asleep until the wake-up that it scheduled for itself. -/
  | timed
  /-- A server in line for a customer. -/
  | waiting
  /-- A server for which a customer is reserved, about to collect it. -/
  | woken
  /-- A source that generated all its customers. -/
  | finished

/-- What each situation says of an agent and of the floor. -/
def Situation.Holds (f : Floor α) (id : AgentId) (a : Agent α) : Situation → Prop
  | starting => a.phase = .running ∧ f.pendingOf id = 1
  | timed => a.phase = .awaitingTimer ∧ f.pendingOf id = 1 ∧
      ∀ s, a = .server s → s.inService.isSome = true
  | waiting => ∃ s, a = .server s ∧ s.phase = .awaitingChannel ∧ s.inService = none ∧
      f.waitingOf id = 1 ∧ f.reservedOf id = 0 ∧ f.pendingOf id = 0
  | woken => ∃ s, a = .server s ∧ s.phase = .awaitingChannel ∧ s.inService = none ∧
      f.waitingOf id = 0 ∧ f.reservedOf id = 1 ∧ f.pendingOf id = 1
  | finished => ∃ s, a = .source s ∧ s.phase = .done ∧ f.pendingOf id = 0

/-- The phase of an agent, and whether it is in line, leave one situation. -/
def Situation.of : Phase → Nat → Situation
  | .running, _ => starting
  | .awaitingTimer, _ => timed
  | .awaitingChannel, 0 => woken
  | .awaitingChannel, _ + 1 => waiting
  | .done, _ => finished

omit [Arithmetic α] in
theorem Situation.eq_of_holds {f : Floor α} {id : AgentId} {a : Agent α} {w : Situation}
    (h : w.Holds f id a) : w = .of a.phase (f.waitingOf id) := by
  cases w with
  | starting =>
      rw [h.1]
      rfl
  | timed =>
      rw [h.1]
      rfl
  | waiting =>
      obtain ⟨s, rfl, hp, -, hw, -⟩ := h
      rw [Agent.phase, hp, hw]
      rfl
  | woken =>
      obtain ⟨s, rfl, hp, -, hw, -⟩ := h
      rw [Agent.phase, hp, hw]
      rfl
  | finished =>
      obtain ⟨s, rfl, hp, -⟩ := h
      rw [Agent.phase, hp]
      rfl

omit [Arithmetic α] in
theorem Situation.exists_unique {f : Floor α} {id : AgentId} {a : Agent α}
    (h : Placed (some a) (f.pendingOf id) (f.waitingOf id) (f.reservedOf id)) :
    ∃! w : Situation, w.Holds f id a := by
  -- no two situations share both the phase and the length of the line
  suffices hex : ∃ w : Situation, w.Holds f id a by
    obtain ⟨w, hw⟩ := hex
    exact ⟨w, hw, fun v hv => (eq_of_holds hv).trans (eq_of_holds hw).symm⟩
  generalize hp' : f.pendingOf id = p at h
  generalize hw' : f.waitingOf id = w at h
  generalize hr' : f.reservedOf id = r at h
  cases h with
  | newSource hp _ => exact ⟨.starting, hp, hp'⟩
  | generating hp _ => exact ⟨.timed, hp, hp', fun _ hs => by cases hs⟩
  | exhausted hp _ => exact ⟨.finished, _, rfl, hp, hp'⟩
  | newServer hp _ => exact ⟨.starting, hp, hp'⟩
  | serving hp hc =>
      refine ⟨.timed, hp, hp', ?_⟩
      intro s hs
      cases hs
      rw [hc]
      rfl
  | waiting hp hc => exact ⟨.waiting, _, rfl, hp, hc, hw', hr', hp'⟩
  | woken hp hc => exact ⟨.woken, _, rfl, hp, hc, hw', hr', hp'⟩

/-! ## Reached states -/

namespace Network

/-- What the steps of a network keep. -/
structure Reached (agents : List (Agent α)) (n : Network α) : Prop where
  settled : n.Settled
  balanced : n.Balanced
  quota_eq : n.agents.map Agent.quota = agents.map Agent.quota

theorem Spawned.reached [LawfulTime α] {agents : List (Agent α)} {n : Network α}
    (h : Spawned (ofAgents agents) (List.range agents.length) n)
    (hfresh : ∀ a ∈ agents, a.Fresh) : Reached agents n := by
  have hagents : n.agents = agents := h.agents
  have hzero : ∀ g : Agent α → Nat, (∀ a, a.Fresh → g a = 0) → (agents.map g).sum = 0 := by
    intro g hg
    refine List.sum_eq_zero ?_
    intro x hx
    obtain ⟨a, ha, rfl⟩ := List.mem_map.mp hx
    exact hg a (hfresh a ha)
  have hgenerated := hzero Agent.generated (by rintro a (_ | _) <;> rfl)
  have hbusy := hzero Agent.busy (by rintro a (_ | _) <;> rfl)
  refine ⟨h.settled hfresh, ⟨?_, ?_⟩, by rw [hagents]⟩
  · rw [generated, hagents, hgenerated, h.channel]
    rfl
  · rw [busy, hagents, hbusy, Floor.load, h.channel, h.sojourns]
    rfl

theorem Reached.step [LawfulTime α] {agents : List (Agent α)} {n m : Network α} {e : Event α}
    (hn : Reached agents n) (h : n.step = .moved e m) : Reached agents m := by
  obtain ⟨a, a', f, rfl, ht⟩ := (moved_of_step hn.settled h).turned hn.settled
  exact ⟨ht.settled hn.settled, ht.balanced hn.balanced, ht.map_quota.trans hn.quota_eq⟩

omit [Arithmetic α] in
theorem exists_server_of_quota_eq {xs ys : List (Agent α)}
    (h : xs.map Agent.quota = ys.map Agent.quota) (hserver : ∃ s, .server s ∈ ys) :
    ∃ s, .server s ∈ xs := by
  obtain ⟨s, hs⟩ := hserver
  have hmem : none ∈ xs.map Agent.quota := by
    rw [h]
    exact List.mem_map.mpr ⟨_, hs, rfl⟩
  obtain ⟨_ | s', ha, hq⟩ := List.mem_map.mp hmem
  · cases hq
  · exact ⟨s', ha⟩

/-- Every step of a network uses up some of its work. -/
theorem Reached.work_decreases [LawfulTime α] {agents : List (Agent α)} {n m : Network α}
    {e : Event α} (hn : Reached agents n) (h : n.step = .moved e m) :
    Reached agents m ∧ m.work < n.work := by
  refine ⟨hn.step h, ?_⟩
  obtain ⟨a, a', f, rfl, ht⟩ := (moved_of_step hn.settled h).turned hn.settled
  exact ht.work_decreases

theorem Reached.run_finished [LawfulTime α] {agents : List (Agent α)} {n : Network α}
    (hn : Reached agents n) : n.run.ending ≠ .unfinished :=
  Run.of_finished Reached.work_decreases hn (Nat.le_refl _)

/-- A settled network in which nothing can be dispatched has nothing pending. -/
theorem Settled.pending_of_step [LawfulTime α] {n : Network α} (hn : n.Settled)
    (h : n.step = .rest) : n.floor.scheduler.pending = [] := by
  rcases step_cases hn with ⟨hp, -⟩ | ⟨_, _, _, hs, -⟩ | ⟨_, _, hs, -⟩
  · exact hp
  · cases hs.symm.trans h
  · cases hs.symm.trans h

/-! ## Rest -/

theorem Settled.placed_of_rest {n : Network α} (hn : n.Settled)
    (hrest : n.floor.scheduler.pending = []) (id : AgentId) :
    Placed n.agents[id.index]? 0 (n.floor.waitingOf id) (n.floor.reservedOf id) := by
  have := hn.placed id
  rwa [show n.floor.pendingOf id = 0 by rw [Floor.pendingOf, hrest]; rfl] at this

theorem Settled.agent_of_rest {n : Network α} (hn : n.Settled)
    (hrest : n.floor.scheduler.pending = []) {a : Agent α} (ha : a ∈ n.agents) :
    ∃ w r, Placed (some a) 0 w r ∧ (w ≠ 0 → n.floor.channel.waiters ≠ []) := by
  obtain ⟨i, hi⟩ := List.mem_iff_getElem?.mp ha
  have hplaced := hn.placed_of_rest hrest ⟨i⟩
  rw [hi] at hplaced
  refine ⟨_, _, hplaced, fun hw hnil => hw ?_⟩
  rw [Floor.waitingOf, hnil]
  rfl

theorem Settled.source_of_rest {n : Network α} (hn : n.Settled)
    (hrest : n.floor.scheduler.pending = []) {s : Source α} (hs : .source s ∈ n.agents) :
    s.phase = .done ∧ s.generated = s.limit := by
  obtain ⟨w, r, hplaced, -⟩ := hn.agent_of_rest hrest hs
  cases hplaced with
  | exhausted hp hg => exact ⟨hp, hg⟩

theorem Settled.server_of_rest {n : Network α} (hn : n.Settled)
    (hrest : n.floor.scheduler.pending = []) {s : Server α} (hs : .server s ∈ n.agents) :
    s.phase = .awaitingChannel ∧ s.inService = none ∧ n.floor.channel.waiters ≠ [] := by
  obtain ⟨w, r, hplaced, hw⟩ := hn.agent_of_rest hrest hs
  cases hplaced with
  | waiting hp hc => exact ⟨hp, hc, hw Nat.one_ne_zero⟩

theorem Settled.reserved_of_rest {n : Network α} (hn : n.Settled)
    (hrest : n.floor.scheduler.pending = []) : n.floor.channel.reserved = [] := by
  refine List.eq_nil_iff_forall_not_mem.mpr ?_
  intro x hx
  have hpos : 0 < n.floor.reservedOf x.1 :=
    List.countP_pos_iff.mpr ⟨x, hx, decide_eq_true rfl⟩
  exact absurd hpos (Nat.not_lt_of_le (hn.placed_of_rest hrest x.1).reserved_le)

theorem Settled.busy_of_rest {n : Network α} (hn : n.Settled)
    (hrest : n.floor.scheduler.pending = []) : n.busy = 0 := by
  refine List.sum_eq_zero ?_
  intro x hx
  obtain ⟨_ | s, hs, rfl⟩ := List.mem_map.mp hx
  · rfl
  · rw [Agent.busy, (hn.server_of_rest hrest hs).2.1]
    rfl

/-- What is known of a network that has come to rest. -/
structure AtRest (agents : List (Agent α)) (n : Network α) : Prop where
  source : ∀ s, .source s ∈ n.agents → s.phase = .done ∧ s.generated = s.limit
  server : ∀ s, .server s ∈ n.agents → s.phase = .awaitingChannel ∧ s.inService = none
  buffer : n.floor.channel.buffer.toList = []
  reserved : n.floor.channel.reserved = []
  /-- Everybody who was to be generated has completed service. -/
  completed : n.floor.sojourns.completed = n.floor.channel.put
  put_eq : n.floor.channel.put = (agents.map fun a => a.quota.getD 0).sum

theorem Reached.atRest {agents : List (Agent α)} {n : Network α} (hn : Reached agents n)
    (hserver : ∃ s, .server s ∈ agents) (hrest : n.floor.scheduler.pending = []) :
    AtRest agents n := by
  have hreserved := hn.settled.reserved_of_rest hrest
  -- some server stands in line, so nobody can be in the buffer
  have hbuffer : n.floor.channel.buffer.toList = [] := by
    obtain ⟨s, hs⟩ := exists_server_of_quota_eq hn.quota_eq hserver
    exact hn.settled.timely.apart.resolve_left (hn.settled.server_of_rest hrest hs).2.2
  refine ⟨fun s hs => hn.settled.source_of_rest hrest hs, ?_, hbuffer, hreserved, ?_, ?_⟩
  · intro s hs
    obtain ⟨hp, hc, -⟩ := hn.settled.server_of_rest hrest hs
    exact ⟨hp, hc⟩
  · have hsize : n.floor.channel.size = 0 := by
      rw [Channel.size, ← Fifo.length_toList, hbuffer]
      rfl
    have hflight : n.floor.channel.inFlight = 0 := by
      rw [Channel.inFlight, hreserved]
      rfl
    have hconserved := hn.balanced.conserved
    rw [Floor.load, hsize, hflight, hn.settled.busy_of_rest hrest] at hconserved
    omega
  · have hquota : (agents.map fun a => a.quota.getD 0) = n.agents.map Agent.generated := by
      rw [← Function.comp_def (·.getD 0) Agent.quota, ← List.map_map, ← hn.quota_eq,
        List.map_map]
      refine List.map_congr_left ?_
      intro a ha
      cases a with
      | source s => exact (hn.settled.source_of_rest hrest ha).2.symm
      | server s => rfl
    rw [hquota]
    exact hn.balanced.put_eq

/-! ## The account -/

/-- The account of a network with these agents, in one state. -/
structure Account (agents : List (Agent α)) (n : Network α) : Prop where
  /-- Whoever was generated was put. -/
  put_eq : n.floor.channel.put = (n.agents.map Agent.generated).sum
  /-- Whoever was put is in the channel, in service, or gone. -/
  conserved : n.floor.channel.put = n.floor.channel.size + n.floor.channel.inFlight +
    (n.agents.map Agent.busy).sum + n.floor.sojourns.completed
  situation : ∀ id a, n.agents[id.index]? = some a →
    ∃! w : Situation, w.Holds n.floor id a
  /-- Wake-ups, places in line and reservations belong to agents of the network. -/
  absent : ∀ id : AgentId, n.agents[id.index]? = none → n.floor.pendingOf id = 0 ∧
    n.floor.waitingOf id = 0 ∧ n.floor.reservedOf id = 0
  /-- An agent that does not wait for a customer is not in line, and nothing is reserved for
  it. -/
  aside : ∀ id a, n.agents[id.index]? = some a → a.phase ≠ .awaitingChannel →
    n.floor.waitingOf id = 0 ∧ n.floor.reservedOf id = 0
  /-- The next step fails, if at all, because the wait that was drawn is refused. -/
  failed : ∀ e cause m, n.step = .failed e cause m →
    ∃ delay, cause = .error (.invalidDelay delay)
  rest : n.floor.scheduler.isIdle = true → AtRest agents n
  /-- Steps come to an end. -/
  run_finished : n.run.ending ≠ .unfinished

theorem Reached.account [LawfulTime α] {agents : List (Agent α)} {n : Network α}
    (hn : Reached agents n) (hserver : ∃ s, .server s ∈ agents) : Account agents n where
  put_eq := hn.balanced.put_eq
  conserved := by
    have := hn.balanced.conserved
    simp only [Floor.load, busy] at this
    omega
  situation id a ha := by
    have hplaced := hn.settled.placed id
    rw [ha] at hplaced
    exact Situation.exists_unique hplaced
  absent id hid := by
    have hplaced := hn.settled.placed id
    rw [hid] at hplaced
    exact hplaced.absent_eq
  aside id a ha hphase := by
    have hplaced := hn.settled.placed id
    rw [ha] at hplaced
    exact hplaced.aside hphase
  failed e cause m h := by
    obtain ⟨-, delay, hcause, -⟩ := failed_of_step hn.settled h
    exact ⟨delay, hcause⟩
  rest h := hn.atRest hserver (List.isEmpty_iff.mp h)
  run_finished := hn.run_finished

/-- **Networks keep their account**, whatever the platform takes for the logarithm: fresh
agents can be woken, and the account holds in every state between two dispatches. -/
theorem network_account (log threeHalves : Binary64 → Binary64) :
    letI := Binary64.arithmetic log threeHalves
    ∀ agents : List (Agent Binary64), (∀ a ∈ agents, a.Fresh) → (∃ s, .server s ∈ agents) →
      ∃ n₀, (ofAgents agents).spawn = .ok n₀ ∧
        ∀ es n, Steps step n₀ es n → Account agents n := by
  let _ := Binary64.arithmetic log threeHalves
  intro agents hfresh hserver
  obtain ⟨n₀, hspawn, hspawned⟩ := spawn_spawned agents
  refine ⟨n₀, hspawn, ?_⟩
  intro es n hsteps
  have hreached : Reached agents n :=
    hsteps.preserves (fun hs h => hs.step h) (hspawned.reached hfresh)
  exact hreached.account hserver

/-- The logarithms of the first two numbers of each stream in a network of one source and one
server with two customers. -/
def pairLog (x : Binary64) : Binary64 :=
  if x.bits = 4606853716570277489 then ⟨13808890457445132378⟩
  else if x.bits = 4602905978610207115 then ⟨13827347338834044614⟩
  else if x.bits = 4600606450025723924 then ⟨13830145662112032044⟩
  else if x.bits = 4604696079074853210 then ⟨13822862631350983099⟩
  else 0

theorem network_account_pair :
    letI := Binary64.arithmetic pairLog Binary64.threeHalves
    letI agents : List (Agent Binary64) :=
      [.server (Server.fresh 1 ⟨15935747428950683733⟩),
        .source (Source.fresh 2 1 ⟨18028485387484114715⟩)]
    ((∀ a ∈ agents, a.Fresh) ∧ ∃ s, .server s ∈ agents) ∧
      ∃ n₀, (ofAgents agents).spawn = .ok n₀ ∧
        ∀ es n, Steps step n₀ es n → Account agents n := by
  let _ := Binary64.arithmetic pairLog Binary64.threeHalves
  let agents : List (Agent Binary64) :=
    [.server (Server.fresh 1 ⟨15935747428950683733⟩),
      .source (Source.fresh 2 1 ⟨18028485387484114715⟩)]
  have hrate : isRate (1 : Binary64) = true := by decide +kernel
  have hfresh : ∀ a ∈ agents, a.Fresh := by
    intro a ha
    rcases List.mem_cons.mp ha with rfl | ha
    · exact .server hrate
    · rw [List.mem_singleton.mp ha]
      exact .source hrate
  have hserver : ∃ s, .server s ∈ agents := ⟨_, List.mem_cons_self⟩
  exact ⟨⟨hfresh, hserver⟩, network_account pairLog Binary64.threeHalves agents hfresh hserver⟩

end Network

end Queueing
