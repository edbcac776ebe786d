import Queueing.Proofs.Network.Account

/-!
# Prompt networks

An agent that has yet to start, and a server for which a customer is reserved, wait for no
time to pass: their wake-ups are for the present (`Prompt`). A customer that is handed over is
collected behind everything that is already due, and many events may come in between, but the
clock does not move before. So it never advances while a customer waits and a server is idle
(`work_conserving`).

The wake-ups with which agents start have the first numbers, so every agent starts before any
agent takes its second turn. The first customer to arrive therefore finds every server in line
(`Prompt.waiters_ne_nil`).
-/

namespace Queueing

variable {α : Type} [Arithmetic α]

/-! ## What a turn adds to the queue of events -/

/-- The wake-ups that a turn adds: one for the agent itself, which then sleeps, and one at the
present time for a server that was in line. -/
structure Floor.Woke (id : AgentId) (f : Floor α) (p : Phase) (f' : Floor α) : Prop where
  now_eq : f'.now = f.now
  dispatched_eq : f'.scheduler.dispatched = f.scheduler.dispatched
  nextSeq_le : f.scheduler.nextSeq ≤ f'.scheduler.nextSeq
  added : ∀ x ∈ f'.scheduler.pending, x ∈ f.scheduler.pending ∨ f.scheduler.nextSeq ≤ x.seq ∧
    (x.agent = id ∧ p = .awaitingTimer ∨ x.agent ∈ f.channel.waiters ∧ x.time = f.now)

namespace Floor

variable {id : AgentId} {f f' : Floor α} {p : Phase}

omit [Arithmetic α] in
theorem Woke.of_scheduler_eq (h : f'.scheduler = f.scheduler) : f.Woke id p f' := by
  refine ⟨?_, ?_, ?_, ?_⟩
  · rw [now, now, h]
  · rw [h]
  · rw [h]
  · intro x hx
    rw [h] at hx
    exact Or.inl hx

omit [Arithmetic α] in
theorem Woke.trans {f₁ : Floor α} (h : f.Woke id p f₁) (h' : f₁.Woke id p f')
    (hline : ∀ w ∈ f₁.channel.waiters, w ∈ f.channel.waiters) : f.Woke id p f' := by
  refine ⟨h'.now_eq.trans h.now_eq, h'.dispatched_eq.trans h.dispatched_eq,
    Nat.le_trans h.nextSeq_le h'.nextSeq_le, ?_⟩
  intro x hx
  rcases h'.added x hx with hx | ⟨hseq, hnew⟩
  · exact h.added x hx
  · refine Or.inr ⟨Nat.le_trans h.nextSeq_le hseq, hnew.imp_right ?_⟩
    rintro ⟨hw, htime⟩
    exact ⟨hline _ hw, htime.trans h.now_eq⟩

omit [Arithmetic α] in
/-- What happens on the floor apart from the scheduler and the line does not matter. -/
theorem Woke.of_eq {g : Floor α} (h : g.Woke id p f') (hscheduler : g.scheduler = f.scheduler)
    (hline : g.channel.waiters = f.channel.waiters) : f.Woke id p f' := by
  refine (Woke.of_scheduler_eq hscheduler).trans h ?_
  intro w hw
  rw [← hline]
  exact hw

theorem Woke.accept {j : AgentId} {time : α} {e : Event α} {t : Scheduler α}
    (ha : f.scheduler.Accepted j time e t)
    (hj : j = id ∧ p = .awaitingTimer ∨ j ∈ f.channel.waiters ∧ time = f.now) :
    f.Woke id p { f with scheduler := t } := by
  obtain ⟨rfl, rfl, -, -⟩ := ha
  refine ⟨rfl, rfl, Nat.le_succ _, ?_⟩
  intro x hx
  rcases Event.mem_insert.mp hx with rfl | hx
  · exact Or.inr ⟨Nat.le_refl _, hj⟩
  · exact Or.inl hx

theorem Woke.schedule {x : α} {e : Event α} {t : Scheduler α}
    (ht : f.scheduler.schedule id x = .ok (e, t)) :
    f.Woke id .awaitingTimer { f with scheduler := t } := by
  obtain ⟨-, -, ha⟩ := Scheduler.schedule_eq_ok_iff.mp ht
  exact .accept ha (Or.inl ⟨rfl, rfl⟩)

theorem Sent.woke {c : Customer α} (h : f.Sent c f') :
    f.Woke id p f' ∧ ∀ w ∈ f'.channel.waiters, w ∈ f.channel.waiters := by
  cases h with
  | stored hw => exact ⟨.of_scheduler_eq rfl, fun w hmem => hmem⟩
  | @handed w ws e t hw ha =>
      have hmem : ∀ v ∈ w :: ws, v ∈ f.channel.waiters := by
        rw [hw]
        exact fun v hv => hv
      have hwoke : f.Woke id p { f with scheduler := t } :=
        .accept ha (Or.inr ⟨hmem w List.mem_cons_self, rfl⟩)
      refine ⟨hwoke.trans (.of_scheduler_eq rfl) fun v hv => hv, ?_⟩
      exact fun v hv => hmem v (List.mem_cons_of_mem _ hv)

end Floor

section Turns

variable {id : AgentId} {f f' : Floor α}

theorem Source.Awaited.woke {s s' : Source α} (h : s.Awaited id f s' f') :
    f.Woke id s'.phase f' ∧ s'.phase ≠ .running := by
  cases h with
  | finished _ => exact ⟨.of_scheduler_eq rfl, fun hp => by cases hp⟩
  | timed _ _ ht => exact ⟨.schedule ht, fun hp => by cases hp⟩

theorem Source.Resumed.woke {s s' : Source α} (h : s.Resumed id f s' f') :
    f.Woke id s'.phase f' ∧ s'.phase ≠ .running := by
  cases h with
  | started _ h => exact h.woke
  | arrived _ hs h =>
      obtain ⟨hwoke, hphase⟩ := h.woke
      obtain ⟨hsent, hline⟩ := hs.woke
      exact ⟨hsent.trans hwoke hline, hphase⟩

theorem Server.Served.woke {s s' : Server α} {c : Customer α} (h : s.Served id c f s' f') :
    f.Woke id s'.phase f' ∧ s'.phase ≠ .running := by
  cases h with
  | timed _ ht => exact ⟨.schedule ht, fun hp => by cases hp⟩

theorem Server.Fetched.woke {s s' : Server α} (h : s.Fetched id f s' f') :
    f.Woke id s'.phase f' ∧ s'.phase ≠ .running := by
  cases h with
  | empty _ => exact ⟨.of_scheduler_eq rfl, fun hp => by cases hp⟩
  | found hr h =>
      obtain ⟨hwoke, hphase⟩ := h.woke
      cases hr with
      | taken _ => exact ⟨hwoke.of_eq rfl rfl, hphase⟩

theorem Server.Resumed.woke {s s' : Server α} (h : s.Resumed id f s' f') :
    f.Woke id s'.phase f' ∧ s'.phase ≠ .running := by
  cases h with
  | started _ h => exact h.woke
  | finished _ _ h =>
      obtain ⟨hwoke, hphase⟩ := h.woke
      exact ⟨hwoke.of_eq rfl rfl, hphase⟩
  | woken _ hr h =>
      obtain ⟨hwoke, hphase⟩ := h.woke
      cases hr with
      | oldest _ _ => exact ⟨hwoke.of_eq rfl rfl, hphase⟩

end Turns

omit [Arithmetic α] in
theorem Placed.pending_le {a : Option (Agent α)} {p w r : Nat} (h : Placed a p w r) :
    p ≤ 1 := by
  cases h <;> decide

namespace Network

/-- What every step does to the events: one is dispatched, and its agent adds others. -/
theorem Moved.woke {n m : Network α} {e : Event α} (h : n.Moved e m) :
    ∃ t a a', n.floor.scheduler.Dispatched e t ∧ n.agents[e.agent.index]? = some a ∧
      m.agents = n.agents.set e.agent.index a' ∧ a'.phase ≠ .running ∧
        Floor.Woke e.agent { n.floor with scheduler := t } a'.phase m.floor := by
  cases h with
  | source hd ha h => exact ⟨_, _, _, hd, ha, rfl, h.woke.2, h.woke.1⟩
  | server hd ha h => exact ⟨_, _, _, hd, ha, rfl, h.woke.2, h.woke.1⟩

/-! ## Wake-ups that are due -/

/-- Whoever is pending for another reason than a timer is due at present. The wake-ups with
which agents start have the numbers below `k`, and all others the numbers from there on. -/
structure Prompt (k : Nat) (n : Network α) : Prop where
  due : ∀ e ∈ n.floor.scheduler.pending, ∀ a, n.agents[e.agent.index]? = some a →
    a.phase ≠ .awaitingTimer → e.time = n.floor.now
  first : ∀ e ∈ n.floor.scheduler.pending, ∀ a, n.agents[e.agent.index]? = some a →
    a.phase = .running → e.seq < k
  later : ∀ e ∈ n.floor.scheduler.pending, ∀ a, n.agents[e.agent.index]? = some a →
    a.phase ≠ .running → k ≤ e.seq
  le_nextSeq : k ≤ n.floor.scheduler.nextSeq

theorem Settled.time_eq_of_due [LawfulTime α] {n : Network α} (hn : n.Settled) {e x : Event α}
    {t : Scheduler α} (hd : n.floor.scheduler.Dispatched e t) (hx : x ∈ n.floor.scheduler.pending)
    (hdue : x.time = n.floor.now) : e.time = n.floor.now := by
  have he : e ∈ n.floor.scheduler.pending := hd.mem_pending.mpr (Or.inl rfl)
  have htime := hn.timely.time e he
  refine htime.le_antisymm hn.timely.now_time ?_ (hn.timely.orderly.now_le e he)
  rcases hd.mem_pending.mp hx with rfl | hx'
  · rw [hdue]
    exact hn.timely.now_time.le_refl
  · rw [← hdue]
    exact Event.time_le_of_precedes htime.finite (hn.timely.time x hx).finite
      (hd.precedes hn.timely.orderly x hx')

/-- **Every step keeps a network prompt.** -/
theorem Prompt.step [LawfulTime α] {k : Nat} {n m : Network α} {e : Event α} (h : Prompt k n)
    (hn : n.Settled) (hm : n.Moved e m) : Prompt k m := by
  obtain ⟨t, a, a', hd, ha, hagents, hphase, hwoke⟩ := hm.woke
  obtain ⟨p, w, r, hplaced, hfits⟩ := hn.dispatch hd
  have hnow : m.floor.now = e.time := hwoke.now_eq.trans hd.now
  have hlt := (List.getElem?_eq_some_iff.mp ha).1
  -- the wake-up that was dispatched was the only one of its agent
  have hnone : ∀ x ∈ t.pending, x.agent ≠ e.agent := by
    intro x hx hid
    have hpos : 0 < Floor.pendingOf { n.floor with scheduler := t } e.agent :=
      List.countP_pos_iff.mpr ⟨x, hx, decide_eq_true hid⟩
    have := hplaced.pending_le
    rw [hfits.pending_eq] at hpos
    omega
  have hself : ∀ x : Event α, x.agent = e.agent → m.agents[x.agent.index]? = some a' := by
    intro x hid
    rw [hagents, hid, List.getElem?_set_self hlt]
  have hother : ∀ x : Event α, x.agent ≠ e.agent →
      m.agents[x.agent.index]? = n.agents[x.agent.index]? := by
    intro x hid
    rw [hagents, List.getElem?_set_ne fun hc => hid (congrArg AgentId.mk hc.symm)]
  refine ⟨?_, ?_, ?_, ?_⟩
  · intro x hx b hb hnot
    rw [hnow]
    rcases hwoke.added x hx with hold | ⟨-, hown | ⟨-, htime⟩⟩
    · rw [hother x (hnone x hold)] at hb
      have hmem := hd.mem_pending.mpr (Or.inr hold)
      have hdue := h.due x hmem b hb hnot
      rw [hdue, hn.time_eq_of_due hd hmem hdue]
    · rw [hself x hown.1] at hb
      cases hb
      exact absurd hown.2 hnot
    · exact htime.trans hd.now
  · intro x hx b hb hrun
    by_cases hid : x.agent = e.agent
    · rw [hself x hid] at hb
      cases hb
      exact absurd hrun hphase
    · rw [hother x hid] at hb
      rcases hwoke.added x hx with hold | ⟨-, hown | ⟨hline, -⟩⟩
      · exact h.first x (hd.mem_pending.mpr (Or.inr hold)) b hb hrun
      · exact absurd hown.1 hid
      · -- whoever is in line has started
        have hb' := hfits.others x.agent hid
        rw [hb] at hb'
        have hw := (hb'.aside fun hp => by rw [hrun] at hp; cases hp).1
        exact absurd hline (List.count_eq_zero.mp hw)
  · intro x hx b hb hnot
    rcases hwoke.added x hx with hold | ⟨hseq, -⟩
    · rw [hother x (hnone x hold)] at hb
      exact h.later x (hd.mem_pending.mpr (Or.inr hold)) b hb hnot
    · refine Nat.le_trans h.le_nextSeq ?_
      rw [← hd.nextSeq]
      exact hseq
  · refine Nat.le_trans h.le_nextSeq ?_
    rw [← hd.nextSeq]
    exact hwoke.nextSeq_le

theorem Spawned.prompt [LawfulTime α] {agents : List (Agent α)} {n : Network α}
    (h : Spawned (ofAgents agents) (List.range agents.length) n)
    (hfresh : ∀ a ∈ agents, a.Fresh) : Prompt n.floor.scheduler.nextSeq n := by
  have hrun : ∀ (i : Nat) a, n.agents[i]? = some a → a.phase = .running := by
    intro i a ha
    rw [show n.agents = agents from h.agents] at ha
    cases hfresh a (List.mem_of_getElem? ha) with
    | source _ => rfl
    | server _ => rfl
  refine ⟨?_, ?_, ?_, Nat.le_refl _⟩
  · intro e he a _ _
    rw [h.now]
    exact (h.time e he).resolve_left List.not_mem_nil
  · intro e he a _ _
    exact h.timely.orderly.seq_lt e he
  · intro e _ a ha hnot
    exact absurd (hrun _ a ha) hnot

theorem reached_prompt [LawfulTime α] {agents : List (Agent α)} {n₀ n : Network α}
    {es : List (Event α)} (h : Spawned (ofAgents agents) (List.range agents.length) n₀)
    (hfresh : ∀ a ∈ agents, a.Fresh) (hsteps : Steps step n₀ es n) :
    Reached agents n ∧ Prompt n₀.floor.scheduler.nextSeq n := by
  have hkeep : ∀ {s : Network α} {e : Event α} {t : Network α},
      Reached agents s ∧ Prompt n₀.floor.scheduler.nextSeq s → s.step = .moved e t →
        Reached agents t ∧ Prompt n₀.floor.scheduler.nextSeq t := by
    rintro s e t ⟨hreached, hprompt⟩ hstep
    exact ⟨hreached.step hstep,
      hprompt.step hreached.settled (moved_of_step hreached.settled hstep)⟩
  exact hsteps.preserves hkeep ⟨h.reached hfresh, h.prompt hfresh⟩

/-! ## The clock and the customers -/

/-- When the clock is about to move, whoever is no sleeper has no wake-up pending. -/
theorem Prompt.pendingOf_eq_zero [LawfulTime α] {k : Nat} {n : Network α} (h : Prompt k n)
    (hn : n.Settled) {e : Event α} {t : Scheduler α} (hd : n.floor.scheduler.Dispatched e t)
    (hmove : e.time ≠ n.floor.now) {id : AgentId} {a : Agent α}
    (ha : n.agents[id.index]? = some a) (hphase : a.phase ≠ .awaitingTimer) :
    n.floor.pendingOf id = 0 := by
  refine List.countP_eq_zero.mpr ?_
  intro x hx hid
  obtain rfl : x.agent = id := of_decide_eq_true hid
  exact hmove (hn.time_eq_of_due hd hx (h.due x hx a ha hphase))

theorem Prompt.reserved_eq_nil [LawfulTime α] {k : Nat} {n : Network α} (h : Prompt k n)
    (hn : n.Settled) {e : Event α} {t : Scheduler α} (hd : n.floor.scheduler.Dispatched e t)
    (hmove : e.time ≠ n.floor.now) : n.floor.channel.reserved = [] := by
  refine List.eq_nil_iff_forall_not_mem.mpr ?_
  rintro ⟨id, c⟩ hx
  have hpos : 0 < n.floor.reservedOf id :=
    List.countP_pos_iff.mpr ⟨(id, c), hx, decide_eq_true rfl⟩
  have hplaced := hn.placed id
  cases ha : n.agents[id.index]? with
  | none =>
      rw [ha] at hplaced
      exact absurd hplaced.absent_eq.2.2 (Nat.ne_of_gt hpos)
  | some a =>
      by_cases hphase : a.phase = .awaitingTimer
      · rw [ha] at hplaced
        have hzero := (hplaced.aside fun hp => by rw [hphase] at hp; cases hp).2
        exact absurd hzero (Nat.ne_of_gt hpos)
      · have hzero := h.pendingOf_eq_zero hn hd hmove ha hphase
        have := hplaced.reserved_le
        omega

theorem Prompt.server_busy [LawfulTime α] {k : Nat} {n : Network α} (h : Prompt k n)
    (hn : n.Settled) {e : Event α} {t : Scheduler α} (hd : n.floor.scheduler.Dispatched e t)
    (hmove : e.time ≠ n.floor.now) (hline : n.floor.channel.waiters = []) {v : Server α}
    (hv : .server v ∈ n.agents) : v.phase = .awaitingTimer ∧ v.inService.isSome = true := by
  obtain ⟨i, hi⟩ := List.mem_iff_getElem?.mp hv
  have hplaced := hn.placed ⟨i⟩
  have hpending : (Agent.server v).phase ≠ .awaitingTimer → n.floor.pendingOf ⟨i⟩ = 0 :=
    h.pendingOf_eq_zero hn hd hmove hi
  rw [hi, show n.floor.waitingOf ⟨i⟩ = 0 by rw [Floor.waitingOf, hline]; rfl] at hplaced
  generalize n.floor.pendingOf ⟨i⟩ = p at hplaced hpending
  generalize n.floor.reservedOf ⟨i⟩ = r at hplaced
  cases hplaced with
  | newServer hp _ =>
      have := hpending (by rw [Agent.phase, hp]; decide)
      omega
  | serving hp hc =>
      refine ⟨hp, ?_⟩
      rw [hc]
      rfl
  | woken hp _ =>
      have := hpending (by rw [Agent.phase, hp]; decide)
      omega

omit [Arithmetic α] in
theorem Balanced.empty_of_put {n : Network α} (h : n.Balanced) (hput : n.floor.channel.put = 0) :
    n.floor.channel.reserved = [] ∧ ∀ v, .server v ∈ n.agents → v.inService = none := by
  have hconserved := h.conserved
  rw [hput, Floor.load] at hconserved
  refine ⟨List.eq_nil_of_length_eq_zero ?_, ?_⟩
  · show n.floor.channel.inFlight = 0
    omega
  · intro v hv
    have hle : Agent.busy (.server v) ≤ n.busy :=
      List.single_le_sum (fun _ _ => Nat.zero_le _) _ (List.mem_map.mpr ⟨_, hv, rfl⟩)
    cases hc : v.inService with
    | none => rfl
    | some c =>
        rw [Agent.busy, hc] at hle
        simp only [Option.isSome_some, if_true] at hle
        omega

/-- **The first customer finds every server in line**: before anybody was put, an agent takes
its second turn only after all have taken their first. -/
theorem Prompt.waiters_ne_nil [LawfulTime α] {k : Nat} {n : Network α} (h : Prompt k n)
    (hn : n.Settled) (hb : n.Balanced) (hserver : ∃ v, .server v ∈ n.agents) {e : Event α}
    {t : Scheduler α} (hd : n.floor.scheduler.Dispatched e t) {a : Agent α}
    (ha : n.agents[e.agent.index]? = some a) (hphase : a.phase ≠ .running)
    (hput : n.floor.channel.put = 0) : n.floor.channel.waiters ≠ [] := by
  obtain ⟨v, hv⟩ := hserver
  obtain ⟨hreserved, hidle⟩ := hb.empty_of_put hput
  obtain ⟨i, hi⟩ := List.mem_iff_getElem?.mp hv
  have hplaced := hn.placed ⟨i⟩
  rw [hi] at hplaced
  generalize hp' : n.floor.pendingOf ⟨i⟩ = p at hplaced
  generalize hw' : n.floor.waitingOf ⟨i⟩ = w at hplaced
  generalize hr' : n.floor.reservedOf ⟨i⟩ = r at hplaced
  cases hplaced with
  | newServer hp _ =>
      -- the wake-up with which the server starts would be dispatched before `e`
      have hpos : 0 < n.floor.pendingOf ⟨i⟩ := by omega
      obtain ⟨x, hx, hid⟩ := List.countP_pos_iff.mp hpos
      have hxa : n.agents[x.agent.index]? = some (.server v) := by
        rw [of_decide_eq_true hid]
        exact hi
      have hdue := h.due x hx _ hxa (by rw [Agent.phase, hp]; decide)
      have hfirst := h.first x hx _ hxa hp
      have he : e ∈ n.floor.scheduler.pending := hd.mem_pending.mpr (Or.inl rfl)
      have hlater := h.later e he a ha hphase
      rcases hd.mem_pending.mp hx with rfl | hx
      · omega
      · have htime : e.time = x.time := by
          rw [hdue, hn.time_eq_of_due hd (hd.mem_pending.mpr (Or.inr hx)) hdue]
        have hlt := Event.seq_lt_of_precedes (hd.precedes hn.timely.orderly x hx) htime
        omega
  | serving _ hc =>
      rw [hidle v hv] at hc
      cases hc
  | waiting _ _ =>
      intro hnil
      rw [Floor.waitingOf, hnil] at hw'
      cases hw'
  | woken _ _ =>
      rw [Floor.reservedOf, hreserved] at hr'
      cases hr'

/-- **The clock never advances while a customer waits and a server is idle**, whatever the
platform takes for the logarithm: if the next event comes later than the present, nothing is
reserved, and the buffer is empty or every server has a customer in service. -/
theorem work_conserving (log threeHalves : Binary64 → Binary64) :
    letI := Binary64.arithmetic log threeHalves
    ∀ agents : List (Agent Binary64), (∀ a ∈ agents, a.Fresh) →
      ∃ n₀, (ofAgents agents).spawn = .ok n₀ ∧ ∀ es n, Steps step n₀ es n →
        ∀ e t, n.floor.scheduler.next = .ok (some (e, t)) → n.floor.now < e.time →
          n.floor.channel.inFlight = 0 ∧ (n.floor.channel.size = 0 ∨
            ∀ v, .server v ∈ n.agents → v.phase = .awaitingTimer ∧ v.inService.isSome = true) := by
  let _ := Binary64.arithmetic log threeHalves
  intro agents hfresh
  obtain ⟨n₀, hspawn, hspawned⟩ := spawn_spawned agents
  refine ⟨n₀, hspawn, ?_⟩
  intro es n hsteps e t hnext hlt
  obtain ⟨hreached, hprompt⟩ := reached_prompt hspawned hfresh hsteps
  have hn := hreached.settled
  have hd := Scheduler.dispatched_of_next hn.timely.orderly hnext
  have hmove : e.time ≠ n.floor.now := by
    intro heq
    rw [heq] at hlt
    exact absurd (Binary64.lt_iff.mp hlt).2.2 (Int.lt_irrefl _)
  refine ⟨?_, ?_⟩
  · rw [Channel.inFlight, hprompt.reserved_eq_nil hn hd hmove]
    rfl
  · rcases hn.timely.apart with hline | hbuffer
    · exact Or.inr fun v hv => hprompt.server_busy hn hd hmove hline hv
    · left
      rw [Channel.size, ← Fifo.length_toList, hbuffer]
      rfl

/-- A network of one server and one source, after five events: one customer is in service, the
other one waits, and the clock is about to move. -/
theorem work_conserving_pair :
    letI := Binary64.arithmetic pairLog Binary64.threeHalves
    letI agents : List (Agent Binary64) :=
      [.server (Server.fresh 1 ⟨15935747428950683733⟩),
        .source (Source.fresh 2 1 ⟨18028485387484114715⟩)]
    (∀ a ∈ agents, a.Fresh) ∧ ∃ n₀ es n e t, (ofAgents agents).spawn = .ok n₀ ∧
      Steps step n₀ es n ∧ n.floor.scheduler.next = .ok (some (e, t)) ∧ n.floor.now < e.time ∧
        n.floor.channel.size = 1 ∧ n.floor.channel.inFlight = 0 ∧
          ∀ v, .server v ∈ n.agents → v.phase = .awaitingTimer ∧ v.inService.isSome = true := by
  let _ := Binary64.arithmetic pairLog Binary64.threeHalves
  let agents : List (Agent Binary64) :=
    [.server (Server.fresh 1 ⟨15935747428950683733⟩),
      .source (Source.fresh 2 1 ⟨18028485387484114715⟩)]
  have hrate : isRate (1 : Binary64) = true := by decide +kernel
  have hfresh : ∀ a ∈ agents, a.Fresh := by
    intro a ha
    rcases List.mem_cons.mp ha with rfl | ha
    · exact .server hrate
    · rw [List.mem_singleton.mp ha]
      exact .source hrate
  obtain ⟨n₀, hspawn, h⟩ := work_conserving pairLog Binary64.threeHalves agents hfresh
  have hrun : (ofAgents agents).spawn.toOption.map (fun n =>
      let r := Run.go step 5 [] n
      (decide (r.ending = .unfinished), r.state.floor.channel.size,
        r.state.floor.scheduler.next.toOption.map fun next =>
          next.map fun x => decide (r.state.floor.now < x.1.time))) =
      some (true, 1, some (some true)) := by
    decide +kernel
  obtain ⟨n, hn, hrun⟩ := exists_ok_of_toOption hrun
  cases hspawn.symm.trans hn
  simp only [Prod.mk.injEq, decide_eq_true_eq] at hrun
  obtain ⟨hending, hsize, hnext⟩ := hrun
  obtain ⟨next, hnext, hmap⟩ := exists_ok_of_toOption hnext
  obtain ⟨es, hsteps⟩ : ∃ es, Steps step n₀ es (Run.go step 5 [] n₀).state := by
    refine Run.steps_of_go ?_
    intro cause hc
    cases hending.symm.trans hc
  obtain ⟨⟨e, t⟩, rfl, hlt⟩ := Option.map_eq_some_iff.mp hmap
  have hlt := of_decide_eq_true hlt
  obtain ⟨hflight, hbusy⟩ := h es _ hsteps e t hnext hlt
  refine ⟨hfresh, n₀, es, _, e, t, hspawn, hsteps, hnext, hlt, hsize, hflight, ?_⟩
  exact hbusy.resolve_left (by omega)

end Network

end Queueing
