import Queueing.Proofs.Trial.Recursion

/-!
# A trial tracks the recursion

`Tracks` says what the network of a trial looks like after `j` arrivals and `k` departures:
when each agent wakes next, who is in the buffer, reserved or in service, and what has been
recorded, all in terms of the recursion. Every step keeps this, with the same numbers or with
one more arrival or departure (`Tracks.source`, `Tracks.server`). Whether a wake-up and an
arrival at the same time come in one order or the other, the clock reads the same, and so
nothing depends on it.
-/

namespace Queueing

variable {α : Type} [Arithmetic α]

/-! ## Wake-ups -/

/-- Whenever the agent has a wake-up pending, it is for this time. -/
def Floor.WakesAt (f : Floor α) (id : AgentId) (t : α) : Prop :=
  ∀ e ∈ f.scheduler.pending, e.agent = id → e.time = t

namespace Floor.WakesAt

variable {f : Floor α} {id : AgentId} {t : α}

omit [Arithmetic α] in
theorem of_pendingOf (h : f.pendingOf id = 0) (t : α) : f.WakesAt id t := by
  intro e he hid
  exact absurd (decide_eq_true hid) (List.countP_eq_zero.mp h e he)

theorem accept {j : AgentId} {time : α} {e : Event α} {s : Scheduler α} (h : f.WakesAt id t)
    (ha : f.scheduler.Accepted j time e s) (hj : j = id → time = t) :
    Floor.WakesAt { f with scheduler := s } id t := by
  intro x hx hid
  rcases ha.mem_pending.mp hx with rfl | hx
  · rw [ha.event] at hid ⊢
    exact hj hid
  · exact h x hx hid

omit [Arithmetic α] in
theorem dispatch {e : Event α} {s : Scheduler α} (h : f.WakesAt id t)
    (hd : f.scheduler.Dispatched e s) : Floor.WakesAt { f with scheduler := s } id t := by
  intro x hx
  exact h x (hd.mem_pending.mpr (Or.inr hx))

omit [Arithmetic α] in
theorem now_eq {e : Event α} {s : Scheduler α} (h : f.WakesAt id t)
    (hd : f.scheduler.Dispatched e s) (hid : e.agent = id) :
    Floor.now { f with scheduler := s } = t :=
  hd.now.trans (h e (hd.mem_pending.mpr (Or.inl rfl)) hid)

theorem le_of_dispatched [LawfulTime α] {e : Event α} {s : Scheduler α} (h : f.WakesAt id t)
    (hf : f.Timely) (hd : f.scheduler.Dispatched e s)
    (hpos : 0 < Floor.pendingOf { f with scheduler := s } id) : e.time ≤ t := by
  obtain ⟨x, hx, hid⟩ := List.countP_pos_iff.mp hpos
  have hmem : x ∈ f.scheduler.pending := hd.mem_pending.mpr (Or.inr hx)
  have he : e ∈ f.scheduler.pending := hd.mem_pending.mpr (Or.inl rfl)
  rw [← h x hmem (of_decide_eq_true hid)]
  exact Event.time_le_of_precedes (hf.time e he).finite (hf.time x hmem).finite
    (hd.precedes hf.orderly x hx)

end Floor.WakesAt

/-- What an agent leaves alone when it goes to sleep again: the clock, what was recorded, and
the wake-ups of the others. -/
structure Floor.Undisturbed (id : AgentId) (f f' : Floor α) : Prop where
  now_eq : f'.now = f.now
  sojourns_eq : f'.sojourns = f.sojourns
  wakes : ∀ j t, j ≠ id → f.WakesAt j t → f'.WakesAt j t

theorem Floor.undisturbed_of_schedule {f : Floor α} {id : AgentId} {x : α} {e : Event α}
    {t : Scheduler α} (h : f.scheduler.schedule id x = .ok (e, t)) :
    f.Undisturbed id { f with scheduler := t } := by
  obtain ⟨-, -, ha⟩ := Scheduler.schedule_eq_ok_iff.mp h
  refine ⟨ha.now_eq, rfl, ?_⟩
  intro j t hj hw
  exact hw.accept ha fun heq => absurd heq.symm hj

namespace Trial

variable (c : TrialConfig α)

/-! ## The source -/

def sourceId : AgentId := ⟨0⟩

/-- The source after `j` arrivals, and when it wakes next. -/
inductive SourceAt : Nat → Source α → α → Prop where
  | starting : SourceAt 0 c.source 0
  | timed {j : Nat} : SourceAt j
      ⟨c.arrivalRate, c.customers.toNat, j, c.arrivalStream.skip (j + 1), .awaitingTimer⟩
      (c.arrival (j + 1))
  | done {j : Nat} {t : α} : SourceAt j
      ⟨c.arrivalRate, c.customers.toNat, j, c.arrivalStream.skip j, .done⟩ t

variable {c}

/-- A source that goes on at the time of the `j`-th arrival waits for the next one. -/
theorem sourceAt_of_awaited {j : Nat} {phase : Phase} {s : Source α} {f f' : Floor α}
    (h : Source.Awaited sourceId
      ⟨c.arrivalRate, c.customers.toNat, j, c.arrivalStream.skip j, phase⟩ f s f')
    (hrate : isRate c.arrivalRate = true) (hnow : f.now = c.arrival j)
    (hpending : f.pendingOf sourceId = 0) :
    ∃ t, SourceAt c j s t ∧ f'.WakesAt sourceId t := by
  cases h with
  | finished _ => exact ⟨0, .done, .of_pendingOf hpending _⟩
  | @timed x rng e t _ hx ht =>
      rw [Xorshift.exponential_skip hrate] at hx
      cases hx
      obtain ⟨-, -, ha⟩ := Scheduler.schedule_eq_ok_iff.mp ht
      have htime : f.scheduler.now + c.interarrival j = c.arrival (j + 1) :=
        congrArg (· + c.interarrival j) hnow
      exact ⟨_, .timed, (Floor.WakesAt.of_pendingOf hpending _).accept ha fun _ => htime⟩

theorem undisturbed_of_awaited {s s' : Source α} {f f' : Floor α}
    (h : Source.Awaited sourceId s f s' f') :
    f'.channel = f.channel ∧ f.Undisturbed sourceId f' := by
  cases h with
  | finished _ => exact ⟨rfl, rfl, rfl, fun _ _ _ hw => hw⟩
  | timed _ _ ht => exact ⟨rfl, Floor.undisturbed_of_schedule ht⟩

/-! ## The server -/

def serverId : AgentId := ⟨1⟩

theorem serverId_ne_sourceId : serverId ≠ sourceId := by decide

variable (c)

/-- The server after `j` arrivals and `k` departures, when it wakes next, and what the channel
holds for it. -/
inductive ServerAt (j : Nat) (channel : Channel (Customer α)) (now : α) :
    Nat → Server α → α → Prop where
  | starting (hnow : now = 0) (hreserved : channel.reserved = [])
      (hbuffer : channel.buffer.toList = c.queue 0 j) : ServerAt j channel now 0 c.server 0
  | serving {k : Nat} (hk : k < j) (hreserved : channel.reserved = [])
      (hbuffer : channel.buffer.toList = c.queue (k + 1) j) : ServerAt j channel now k
      ⟨c.serviceRate, c.serviceStream.skip (k + 1), some (c.customer k), .awaitingTimer⟩
      (c.departure (k + 1))
  | waiting {t : α} (hnow : now = c.departure j) (hreserved : channel.reserved = [])
      (hbuffer : channel.buffer.toList = []) : ServerAt j channel now j
      ⟨c.serviceRate, c.serviceStream.skip j, none, .awaitingChannel⟩ t
  | woken {k : Nat} (hk : k < j) (hnow : now = c.arrival (k + 1))
      (hd : IsTime (c.departure k)) (hle : c.departure k ≤ c.arrival (k + 1))
      (hreserved : channel.reserved = [(serverId, c.customer k)])
      (hbuffer : channel.buffer.toList = c.queue (k + 1) j) : ServerAt j channel now k
      ⟨c.serviceRate, c.serviceStream.skip k, none, .awaitingChannel⟩ (c.arrival (k + 1))

variable {c}

theorem undisturbed_of_served {v v' : Server α} {f f' : Floor α} {x : Customer α}
    (h : Server.Served serverId x v f v' f') : f.Undisturbed serverId f' := by
  cases h with
  | timed _ ht => exact Floor.undisturbed_of_schedule ht

/-- A server that takes up its customer when the recursion says so is done with it when the
recursion says so. -/
theorem serverAt_of_served {j k : Nat} {o : Option (Customer α)} {phase : Phase}
    {v : Server α} {f f' : Floor α}
    (h : Server.Served serverId (c.customer k)
      ⟨c.serviceRate, c.serviceStream.skip k, o, phase⟩ f v f')
    (hrate : isRate c.serviceRate = true) (hk : k < j)
    (hnow : f.now + c.serviceTime k = c.departure (k + 1))
    (hpending : f.pendingOf serverId = 0) (hreserved : f.channel.reserved = [])
    (hbuffer : f.channel.buffer.toList = c.queue (k + 1) j) :
    ∃ t, ServerAt c j f'.channel f'.now k v t ∧ f'.WakesAt serverId t := by
  cases h with
  | @timed x rng e t hx ht =>
      rw [Xorshift.exponential_skip hrate] at hx
      cases hx
      obtain ⟨-, -, ha⟩ := Scheduler.schedule_eq_ok_iff.mp ht
      exact ⟨_, .serving hk hreserved hbuffer,
        (Floor.WakesAt.of_pendingOf hpending _).accept ha fun _ => hnow⟩

theorem undisturbed_of_fetched {v v' : Server α} {f f' : Floor α}
    (h : Server.Fetched serverId v f v' f') : f.Undisturbed serverId f' := by
  cases h with
  | found _ h =>
      obtain ⟨hnow, hsojourns, hwakes⟩ := undisturbed_of_served h
      exact ⟨hnow, hsojourns, hwakes⟩
  | empty _ => exact ⟨rfl, rfl, fun _ _ _ hw => hw⟩

theorem customer_of_taken {j k : Nat} {channel channel' : Channel (Customer α)}
    {x : Customer α} (hr : channel.Received serverId (some x) channel') (hk : k ≤ j)
    (hbuffer : channel.buffer.toList = c.queue k j) :
    k < j ∧ x = c.customer k ∧ channel'.buffer.toList = c.queue (k + 1) j ∧
      channel'.reserved = channel.reserved := by
  cases hr with
  | @taken x buffer hb =>
      rw [hbuffer] at hb
      have hlt : k < j := by
        refine Nat.lt_of_le_of_ne hk ?_
        intro heq
        rw [heq, c.queue_self] at hb
        cases hb
      rw [c.queue_cons hlt] at hb
      obtain ⟨rfl, hrest⟩ := List.cons.inj hb
      exact ⟨hlt, rfl, hrest.symm, rfl⟩

theorem departure_of_fetched [LawfulTime α] {j k : Nat} {now : α} (hlt : k < j)
    (hnow : now = c.departure k) (harrived : ∀ i ≤ j, c.arrival i ≤ now) :
    now + c.serviceTime k = c.departure (k + 1) := by
  have hle : c.arrival (k + 1) ≤ c.departure k := by
    rw [← hnow]
    exact harrived (k + 1) hlt
  rw [c.departure_of_le hle, ← hnow]

theorem departure_of_woken [LawfulTime α] {k : Nat} {now : α} (hnow : now = c.arrival (k + 1))
    (htime : IsTime now) (hd : IsTime (c.departure k)) (hle : c.departure k ≤ c.arrival (k + 1)) :
    now + c.serviceTime k = c.departure (k + 1) := by
  rw [hnow] at htime ⊢
  rw [c.departure_of_ge htime hd hle]

/-- The customer for which the server was woken is the one that is reserved. -/
theorem customer_of_collected {k : Nat} {channel channel' : Channel (Customer α)}
    {x : Customer α} (hr : channel.Collected serverId (some x) channel')
    (hreserved : channel.reserved = [(serverId, c.customer k)]) :
    x = c.customer k ∧ channel'.reserved = [] ∧ channel'.buffer = channel.buffer := by
  cases hr with
  | @oldest pre post _ hsplit _ =>
      rw [hreserved] at hsplit
      obtain ⟨rfl, rfl, rfl⟩ : pre = [] ∧ x = c.customer k ∧ post = [] := by
        cases pre with
        | nil => simpa [eq_comm] using hsplit
        | cons y pre => simp at hsplit
      exact ⟨rfl, rfl, rfl⟩

/-- A server that looks for a customer at the time of the `k`-th departure takes up the next
one, which has arrived, or waits because nobody has. -/
theorem serverAt_of_fetched [LawfulTime α] {j k : Nat} {phase : Phase} {v : Server α}
    {f f' : Floor α}
    (h : Server.Fetched serverId ⟨c.serviceRate, c.serviceStream.skip k, none, phase⟩ f v f')
    (hrate : isRate c.serviceRate = true) (hk : k ≤ j) (hnow : f.now = c.departure k)
    (harrived : ∀ i ≤ j, c.arrival i ≤ f.now) (hpending : f.pendingOf serverId = 0)
    (hreserved : f.channel.reserved = []) (hbuffer : f.channel.buffer.toList = c.queue k j) :
    ∃ t, ServerAt c j f'.channel f'.now k v t ∧ f'.WakesAt serverId t := by
  cases h with
  | @found x channel v f' hr h =>
      -- whoever is in the buffer is there by now, so service begins at the departure
      obtain ⟨hlt, rfl, hbuffer', hreserved'⟩ := customer_of_taken hr hk hbuffer
      exact serverAt_of_served h hrate hlt (departure_of_fetched hlt hnow harrived) hpending
        (hreserved'.trans hreserved) hbuffer'
  | @empty channel hr =>
      have hnil : c.queue k j = [] := by
        rw [← hbuffer]
        cases hr <;> assumption
      have heq : k = j := by
        refine Nat.le_antisymm hk (Nat.le_of_not_lt ?_)
        intro hlt
        rw [c.queue_cons hlt] at hnil
        cases hnil
      subst heq
      refine ⟨0, .waiting hnow ?_ ?_, .of_pendingOf hpending _⟩
      · cases hr <;> exact hreserved
      · rw [← hnil, ← hbuffer]
        cases hr <;> rfl

/-- A customer that arrives is stored behind those in line, or wakes the server. -/
theorem serverAt_of_sent [LawfulTime α] {j k : Nat} {v : Server α} {now t : α}
    {f f' : Floor α} (h : f.Sent (c.customer j) f') (hv : ServerAt c j f.channel now k v t)
    (hplaced : Placed (some (.server v)) (f.pendingOf serverId) (f.waitingOf serverId)
      (f.reservedOf serverId))
    (hline : ∀ w ∈ f.channel.waiters, w = serverId) (hwakes : f.WakesAt serverId t)
    (hnow : f.now = c.arrival (j + 1)) (hle : now ≤ f.now) (hnowtime : IsTime now)
    (hftime : IsTime f.now) (hdue : 0 < f.pendingOf serverId → f.now ≤ t) :
    ∃ t, ServerAt c (j + 1) f'.channel f'.now k v t ∧ f'.WakesAt serverId t := by
  have hstore : f.waitingOf serverId = 0 → f.channel.waiters = [] := by
    intro hw
    refine List.eq_nil_iff_forall_not_mem.mpr ?_
    intro w hmem
    obtain rfl := hline w hmem
    exact List.count_eq_zero.mp hw hmem
  cases hv with
  | starting hzero hreserved hbuffer =>
      have hw := hstore (hplaced.aside fun hp => by cases hp).1
      have hp := hplaced.pending_eq (Or.inl rfl)
      -- the source did not wake later than the server
      have hfzero : f.now = 0 := by
        rw [hzero] at hle hnowtime
        exact hftime.le_antisymm hnowtime (hdue (by omega)) hle
      cases h with
      | handed hw' _ => cases hw.symm.trans hw'
      | stored _ =>
          refine ⟨_, .starting hfzero hreserved ?_, hwakes⟩
          rw [Fifo.toList_push, hbuffer, c.queue_snoc (Nat.zero_le j)]
  | serving hk hreserved hbuffer =>
      have hw := hstore (hplaced.aside fun hp => by cases hp).1
      cases h with
      | handed hw' _ => cases hw.symm.trans hw'
      | stored _ =>
          refine ⟨_, .serving (Nat.lt_succ_of_lt hk) hreserved ?_, hwakes⟩
          rw [Fifo.toList_push, hbuffer, c.queue_snoc hk]
  | waiting hd hreserved hbuffer =>
      have hr : f.reservedOf serverId = 0 := by
        rw [Floor.reservedOf, hreserved]
        rfl
      obtain ⟨hwr, hp⟩ := hplaced.in_line rfl
      cases h with
      | stored hw =>
          have : f.waitingOf serverId = 0 := by
            rw [Floor.waitingOf, hw]
            rfl
          omega
      | @handed w ws e s hw ha =>
          obtain rfl : w = serverId := hline w (by rw [hw]; exact List.mem_cons_self)
          refine ⟨_, .woken (Nat.lt_succ_self j) (ha.now_eq.trans hnow) ?_ ?_ ?_ ?_, ?_⟩
          · rw [← hd]
            exact hnowtime
          · rw [← hd, ← hnow]
            exact hle
          · show f.channel.reserved ++ _ = _
            rw [hreserved]
            rfl
          · rw [c.queue_self]
            exact hbuffer
          · exact (Floor.WakesAt.of_pendingOf (hp.trans hr) _).accept ha fun _ => hnow
  | @woken k hk hd hdtime hdle hreserved hbuffer =>
      have hr : f.reservedOf serverId = 1 := by
        rw [Floor.reservedOf, hreserved]
        rfl
      obtain ⟨hwr, hp⟩ := hplaced.in_line rfl
      have hw := hstore (by omega)
      -- neither did the source wake later than the server, which was woken at this time
      have hsame : f.now = c.arrival (k + 1) := by
        rw [hd] at hle hnowtime
        exact hftime.le_antisymm hnowtime (hdue (by omega)) hle
      cases h with
      | handed hw' _ => cases hw.symm.trans hw'
      | stored _ =>
          refine ⟨_, .woken (Nat.lt_succ_of_lt hk) hsame hdtime hdle hreserved ?_, hwakes⟩
          rw [Fifo.toList_push, hbuffer, c.queue_snoc hk]

/-! ## Both -/

variable (c)

/-- What has been recorded when `k` customers have left. -/
def recorded (k : Nat) : Sojourns α :=
  ((List.range k).map c.sojourn).foldl (fun s x => s.record x) Sojourns.empty

theorem recorded_succ (k : Nat) : recorded c (k + 1) = (recorded c k).record (c.sojourn k) := by
  rw [recorded, List.range_succ, List.map_append, List.foldl_append]
  rfl

/-- The network of a trial after `j` arrivals and `k` departures. -/
structure Tracks (n : Network α) (j k : Nat) : Prop where
  reached : n.Reached [.source c.source, .server c.server]
  agents : ∃ s v t u, n.agents = [.source s, .server v] ∧ SourceAt c j s t ∧
    n.floor.WakesAt sourceId t ∧ ServerAt c j n.floor.channel n.floor.now k v u ∧
      n.floor.WakesAt serverId u
  arrived : ∀ i ≤ j, c.arrival i ≤ n.floor.now
  sojourns : n.floor.sojourns = recorded c k

variable {c}

omit [Arithmetic α] in
theorem agent_cases {a b x : Agent α} {id : AgentId} (h : [a, b][id.index]? = some x) :
    id = sourceId ∧ x = a ∨ id = serverId ∧ x = b := by
  obtain ⟨i⟩ := id
  match i, h with
  | 0, h => exact Or.inl ⟨rfl, (Option.some.inj h).symm⟩
  | 1, h => exact Or.inr ⟨rfl, (Option.some.inj h).symm⟩
  | i + 2, h => simp at h

section Step

variable [LawfulTime α] {n : Network α} {j k : Nat} {e : Event α} {t : Scheduler α}
  {f g : Floor α} {s : Source α} {v : Server α} {ts tv : α}

omit [LawfulTime α] in
theorem tracks_of_source
    (hreached : Network.Reached [.source c.source, .server c.server]
      ⟨f, [.source s, .server v]⟩)
    (hframe : f.channel = g.channel ∧ g.Undisturbed sourceId f)
    (hs : SourceAt c j s ts) (hsw : f.WakesAt sourceId ts)
    (hv : ServerAt c j g.channel g.now k v tv) (hvw : g.WakesAt serverId tv)
    (harrived : ∀ i ≤ j, c.arrival i ≤ g.now) (hsojourns : g.sojourns = recorded c k) :
    Tracks c ⟨f, [.source s, .server v]⟩ j k := by
  obtain ⟨hchannel, hnow, hsame, hwakes⟩ := hframe
  refine ⟨hreached, ⟨s, v, ts, tv, rfl, hs, hsw, ?_, ?_⟩, ?_, hsame.trans hsojourns⟩
  · rw [hchannel, hnow]
    exact hv
  · exact hwakes _ _ serverId_ne_sourceId hvw
  · intro i hi
    rw [hnow]
    exact harrived i hi

omit [LawfulTime α] in
theorem tracks_of_server
    (hreached : Network.Reached [.source c.source, .server c.server]
      ⟨f, [.source s, .server v]⟩)
    (hframe : g.Undisturbed serverId f) (hs : SourceAt c j s ts)
    (hsw : g.WakesAt sourceId ts)
    (hv : ∃ tv, ServerAt c j f.channel f.now k v tv ∧ f.WakesAt serverId tv)
    (harrived : ∀ i ≤ j, c.arrival i ≤ g.now) (hsojourns : g.sojourns = recorded c k) :
    Tracks c ⟨f, [.source s, .server v]⟩ j k := by
  obtain ⟨hnow, hsame, hwakes⟩ := hframe
  obtain ⟨tv, hv, hvw⟩ := hv
  refine ⟨hreached, ⟨s, v, ts, tv, rfl, hs, ?_, hv, hvw⟩, ?_, hsame.trans hsojourns⟩
  · exact hwakes _ _ serverId_ne_sourceId.symm hsw
  · intro i hi
    rw [hnow]
    exact harrived i hi

omit [LawfulTime α] in
theorem line_of_fits {p r : Nat} (h : Fits [.source s, .server v] sourceId f p 0 r) :
    ∀ w ∈ f.channel.waiters, w = serverId := by
  intro w hw
  have hpos : f.waitingOf w ≠ 0 := by
    intro hzero
    exact List.count_eq_zero.mp hzero hw
  by_cases hsource : w = sourceId
  · rw [hsource] at hpos
    exact absurd h.waiting_eq hpos
  · have hplaced := h.others w hsource
    cases ha : [Agent.source s, .server v][w.index]? with
    | none =>
        rw [ha] at hplaced
        exact absurd hplaced.absent_eq.2.1 hpos
    | some a => exact ((agent_cases ha).resolve_left fun hc => hsource hc.1).1

omit [LawfulTime α] in
theorem now_le_of_dispatched (hn : n.Settled) (hd : n.floor.scheduler.Dispatched e t) :
    n.floor.now ≤ Floor.now { n.floor with scheduler := t } := by
  rw [Floor.now, Floor.now, hd.now]
  exact hn.timely.orderly.now_le e (hd.mem_pending.mpr (Or.inl rfl))

/-- The turn of the source: it starts, or the next customer arrives. -/
theorem Tracks.source {s' : Source α} (h : Tracks c n j k)
    (hrate : isRate c.arrivalRate = true) (hd : n.floor.scheduler.Dispatched e t)
    (ha : n.agents[e.agent.index]? = some (.source s))
    (hr : s.Resumed e.agent { n.floor with scheduler := t } s' f)
    (hreached : Network.Reached [.source c.source, .server c.server]
      ⟨f, n.agents.set e.agent.index (.source s')⟩) :
    ∃ j', Tracks c ⟨f, n.agents.set e.agent.index (.source s')⟩ j' k := by
  obtain ⟨p, w, r, hplaced, hfits⟩ := h.reached.settled.dispatch hd
  obtain ⟨s₀, v, ts, tv, hagents, hs, hsw, hv, hvw⟩ := h.agents
  rw [ha] at hplaced
  rw [hagents] at ha hfits hreached ⊢
  obtain ⟨hid, heq⟩ | ⟨-, heq⟩ := agent_cases ha
  swap
  · cases heq
  cases heq
  rw [hid] at hr hfits hreached ⊢
  have hbefore := h.reached.settled.timely
  have hnow := hsw.now_eq hd hid
  have hle := now_le_of_dispatched h.reached.settled hd
  have hvw' := hvw.dispatch hd
  cases hr with
  | started hrun hawait =>
      cases hs with
      | starting =>
          obtain rfl : p = 0 := Nat.succ.inj (hplaced.pending_eq (Or.inl hrun))
          obtain ⟨ts', hs', hsw'⟩ := sourceAt_of_awaited (c := c) (j := 0) hawait hrate hnow
            hfits.pending_eq
          -- the source wakes at time zero, so no time has passed
          have hsame : Floor.now { n.floor with scheduler := t } = n.floor.now := by
            rw [hnow] at hle ⊢
            exact IsTime.zero.le_antisymm hbefore.now_time hbefore.now_time.zero_le hle
          refine ⟨0, tracks_of_source hreached (undisturbed_of_awaited hawait) hs' hsw' ?_ hvw' ?_
            h.sojourns⟩
          · rw [hsame]
            exact hv
          · rw [hsame]
            exact h.arrived
      | timed => cases hrun
      | done => cases hrun
  | arrived htimer hsent hawait =>
      cases hs with
      | starting => cases htimer
      | done => cases htimer
      | timed =>
          obtain rfl : p = 0 := Nat.succ.inj (hplaced.pending_eq (Or.inr rfl))
          obtain ⟨rfl, rfl⟩ := hplaced.aside fun hp => by cases hp
          have hcustomer : (⟨j, Floor.now { n.floor with scheduler := t }⟩ : Customer α) =
              c.customer j := congrArg (Customer.mk j) hnow
          rw [hcustomer] at hsent
          have hdue : 0 < Floor.pendingOf { n.floor with scheduler := t } serverId →
              Floor.now { n.floor with scheduler := t } ≤ tv := by
            intro hpos
            rw [Floor.now, hd.now]
            exact hvw.le_of_dispatched hbefore hd hpos
          obtain ⟨tv', hv', hvw₁⟩ := serverAt_of_sent hsent hv
            (hfits.others serverId serverId_ne_sourceId) (line_of_fits hfits) hvw' hnow hle
            hbefore.now_time hfits.timely.now_time hdue
          obtain ⟨hnow₁, hsojourns₁⟩ := hsent.frame
          obtain ⟨ts', hs', hsw'⟩ := sourceAt_of_awaited (c := c) (j := j + 1) hawait hrate
            (hnow₁.trans hnow) (hfits.send hsent).pending_eq
          refine ⟨j + 1, tracks_of_source hreached (undisturbed_of_awaited hawait) hs' hsw' hv' hvw₁
            ?_ (hsojourns₁.trans h.sojourns)⟩
          intro i hi
          rw [hnow₁]
          rcases Nat.lt_or_eq_of_le hi with hi | rfl
          · exact LawfulTime.le_trans (h.arrived i (Nat.le_of_lt_succ hi)) hle
          · rw [← hnow]
            exact hfits.timely.now_time.le_refl

/-- The turn of the server: it starts, the customer in service leaves, or the customer for
which it was woken is taken up. -/
theorem Tracks.server {v' : Server α} (h : Tracks c n j k)
    (hrate : isRate c.serviceRate = true) (hd : n.floor.scheduler.Dispatched e t)
    (ha : n.agents[e.agent.index]? = some (.server v))
    (hr : v.Resumed e.agent { n.floor with scheduler := t } v' f)
    (hreached : Network.Reached [.source c.source, .server c.server]
      ⟨f, n.agents.set e.agent.index (.server v')⟩) :
    (v.phase ≠ .awaitingTimer ∧
      Tracks c ⟨f, n.agents.set e.agent.index (.server v')⟩ j k) ∨
    (v.phase = .awaitingTimer ∧ v.inService = some (c.customer k) ∧
      e.time = c.departure (k + 1) ∧
      Tracks c ⟨f, n.agents.set e.agent.index (.server v')⟩ j (k + 1)) := by
  obtain ⟨p, w, r, hplaced, hfits⟩ := h.reached.settled.dispatch hd
  obtain ⟨s, v₀, ts, tv, hagents, hs, hsw, hv, hvw⟩ := h.agents
  rw [ha] at hplaced
  rw [hagents] at ha hfits hreached ⊢
  obtain ⟨-, heq⟩ | ⟨hid, heq⟩ := agent_cases ha
  · cases heq
  cases heq
  rw [hid] at hr hfits hreached ⊢
  have hnow := hvw.now_eq hd hid
  have harrived : ∀ i ≤ j, c.arrival i ≤ Floor.now { n.floor with scheduler := t } := by
    intro i hi
    exact LawfulTime.le_trans (h.arrived i hi) (now_le_of_dispatched h.reached.settled hd)
  have hsw' := hsw.dispatch hd
  cases hr with
  | started hrun hfetch =>
      cases hv with
      | starting hzero hreserved hbuffer =>
          obtain rfl : p = 0 := Nat.succ.inj (hplaced.pending_eq (Or.inl hrun))
          have hv' := serverAt_of_fetched (c := c) (k := 0) hfetch hrate (Nat.zero_le j) hnow
            harrived hfits.pending_eq hreserved hbuffer
          refine Or.inl ⟨(fun hp => by cases hp), ?_⟩
          exact tracks_of_server hreached (undisturbed_of_fetched hfetch) hs hsw' hv' harrived
            h.sojourns
      | serving => cases hrun
      | waiting => cases hrun
      | woken => cases hrun
  | finished htimer hc hfetch =>
      cases hv with
      | starting => cases htimer
      | serving hk hreserved hbuffer =>
          cases hc
          obtain rfl : p = 0 := Nat.succ.inj (hplaced.pending_eq (Or.inr rfl))
          have hv' := serverAt_of_fetched (c := c) (k := k + 1) hfetch hrate hk hnow harrived
            hfits.pending_eq hreserved hbuffer
          have hrecorded : (Floor.complete (c.customer k)
              { n.floor with scheduler := t }).sojourns = recorded c (k + 1) := by
            rw [recorded_succ, ← h.sojourns, Floor.complete, hnow]
            rfl
          refine Or.inr ⟨rfl, rfl, hd.now.symm.trans hnow, ?_⟩
          exact tracks_of_server hreached (undisturbed_of_fetched hfetch) hs hsw' hv' harrived
            hrecorded
      | waiting => cases htimer
      | woken => cases htimer
  | @woken x channel _ _ hwait hcollect hserve =>
      cases hv with
      | starting => cases hwait
      | serving => cases hwait
      | waiting _ hreserved _ =>
          cases hcollect with
          | oldest hsplit _ => simp [hreserved] at hsplit
      | @woken k hk hd' hdtime hdle hreserved hbuffer =>
          obtain ⟨hwr, hp⟩ := hplaced.in_line rfl
          obtain rfl : p = 0 := by omega
          obtain ⟨rfl, hreserved', hbuffer'⟩ := customer_of_collected hcollect hreserved
          have hv' := serverAt_of_served (c := c) hserve hrate hk
            (departure_of_woken hnow hfits.timely.now_time hdtime hdle) hfits.pending_eq hreserved'
            (hbuffer' ▸ hbuffer)
          refine Or.inl ⟨(fun hp => by cases hp), ?_⟩
          exact tracks_of_server hreached (undisturbed_of_served hserve) hs hsw' hv' harrived
            h.sojourns

end Step

end Trial

end Queueing
