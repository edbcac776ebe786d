import Mathlib.Algebra.BigOperators.Group.List.Basic
import Queueing.Proofs.Network.Settled
import Queueing.Proofs.Run

/-!
# The steps of a settled network

A settled network rests, takes the turn of one agent, or fails because the wait that the
agent drew is refused as a delay (`Network.step_cases`). A turn leaves the network settled,
keeps the customers that were generated in account, and uses up some of its work.
-/

namespace Queueing

variable {α : Type} [Arithmetic α]

/-! ## One step -/

omit [Arithmetic α] in
theorem Placed.source_resumable {s : Source α} {p w r : Nat}
    (h : Placed (some (.source s)) (p + 1) w r) :
    s.phase = .running ∨ s.phase = .awaitingTimer := by
  cases h with
  | newSource hp _ => exact Or.inl hp
  | generating hp _ => exact Or.inr hp

theorem Placed.server_resumable {agents : List (Agent α)} {id : AgentId} {f : Floor α}
    {s : Server α} {p w r : Nat} (h : Placed (some (.server s)) (p + 1) w r)
    (hf : Fits agents id f p w r) : s.Resumable id f := by
  cases h with
  | newServer hp _ => exact Or.inl hp
  | serving hp hc => exact Or.inr (Or.inl ⟨_, hp, hc⟩)
  | woken hp _ =>
      -- what was counted as reserved for the server is there to be collected
      have hpos : 0 < f.channel.reserved.countP (·.1 = id) := by
        rw [show List.countP _ _ = 1 from hf.reserved_eq]
        exact Nat.one_pos
      obtain ⟨⟨v, c⟩, hmem, hv⟩ := List.countP_pos_iff.mp hpos
      obtain rfl : v = id := of_decide_eq_true hv
      exact Or.inr (Or.inr ⟨c, hp, hmem⟩)

namespace Network

/-- What a step does: the agent for which the next event was scheduled takes its turn. -/
inductive Moved (n : Network α) (e : Event α) : Network α → Prop where
  | source {t : Scheduler α} {s s' : Source α} {f : Floor α}
      (hd : n.floor.scheduler.Dispatched e t)
      (ha : n.agents[e.agent.index]? = some (.source s))
      (h : s.Resumed e.agent { n.floor with scheduler := t } s' f) :
      Moved n e ⟨f, n.agents.set e.agent.index (.source s')⟩
  | server {t : Scheduler α} {s s' : Server α} {f : Floor α}
      (hd : n.floor.scheduler.Dispatched e t)
      (ha : n.agents[e.agent.index]? = some (.server s))
      (h : s.Resumed e.agent { n.floor with scheduler := t } s' f) :
      Moved n e ⟨f, n.agents.set e.agent.index (.server s')⟩

/-- Where a step fails: the agent for which the next event was scheduled draws a wait that is
refused. -/
inductive Failed (n : Network α) (e : Event α) (delay : α) : Prop where
  | source {t : Scheduler α} {s : Source α} (hd : n.floor.scheduler.Dispatched e t)
      (ha : n.agents[e.agent.index]? = some (.source s))
      (h : s.ResumeFailed e.agent { n.floor with scheduler := t } delay) : Failed n e delay
  | server {t : Scheduler α} {s : Server α} (hd : n.floor.scheduler.Dispatched e t)
      (ha : n.agents[e.agent.index]? = some (.server s))
      (h : s.ResumeFailed e.agent { n.floor with scheduler := t } delay) : Failed n e delay

/-- **A step of a settled network fails only because a wait that was drawn is refused.** -/
theorem step_cases [LawfulTime α] {n : Network α} (hn : n.Settled) :
    (n.floor.scheduler.pending = [] ∧ n.step = .rest) ∨
      (∃ e delay m, n.step = .failed (some e) (.error (.invalidDelay delay)) m ∧
        n.Failed e delay) ∨
        ∃ e m, n.step = .moved e m ∧ n.Moved e m := by
  unfold step
  rcases Scheduler.next_cases hn.timely.orderly with ⟨hp, hnext⟩ | ⟨e, t, hnext, hd⟩
  · exact Or.inl ⟨hp, by simp only [hnext]⟩
  · right
    simp only [hnext]
    obtain ⟨p, w, r, hplaced, hfits⟩ := hn.dispatch hd
    unfold resume
    cases ha : n.agents[e.agent.index]? with
    | none =>
        rw [ha] at hplaced
        cases hplaced
    | some a =>
        rw [ha] at hplaced
        have husable := hn.usable a (List.mem_of_getElem? ha)
        cases a with
        | source s =>
            simp only [Agent.resume]
            rcases Source.resume_cases husable hplaced.source_resumable hfits.timely.orderly
              hfits.timely.now_time e.agent with ⟨s', f, hturn, hr⟩ | ⟨delay, hturn, hr⟩
            · simp only [hturn]
              exact Or.inr ⟨e, _, rfl, .source hd ha hr⟩
            · simp only [hturn]
              exact Or.inl ⟨e, delay, _, rfl, .source hd ha hr⟩
        | server s =>
            simp only [Agent.resume]
            rcases Server.resume_cases husable (hplaced.server_resumable hfits) hfits.timely.orderly
              with ⟨s', f, hturn, hr⟩ | ⟨delay, hturn, hr⟩
            · simp only [hturn]
              exact Or.inr ⟨e, _, rfl, .server hd ha hr⟩
            · simp only [hturn]
              exact Or.inl ⟨e, delay, _, rfl, .server hd ha hr⟩

theorem moved_of_step [LawfulTime α] {n m : Network α} {e : Event α} (hn : n.Settled)
    (h : n.step = .moved e m) : n.Moved e m := by
  rcases step_cases hn with ⟨-, hs⟩ | ⟨_, _, _, hs, -⟩ | ⟨e', m', hs, hm⟩
  · cases hs.symm.trans h
  · cases hs.symm.trans h
  · cases hs.symm.trans h
    exact hm

theorem failed_of_step [LawfulTime α] {n m : Network α} {e : Option (Event α)}
    {cause : Failure α} (hn : n.Settled) (h : n.step = .failed e cause m) :
    ∃ x delay, cause = .error (.invalidDelay delay) ∧ n.Failed x delay := by
  rcases step_cases hn with ⟨-, hs⟩ | ⟨x, delay, _, hs, hfailed⟩ | ⟨_, _, hs, -⟩
  · cases hs.symm.trans h
  · cases hs.symm.trans h
    exact ⟨x, delay, rfl, hfailed⟩
  · cases hs.symm.trans h

end Network

/-! ## Customers in account, and work -/

namespace Floor

/-- The customers that left their source and are in nobody's service: they are in the channel
or have completed. -/
def load (f : Floor α) : Nat := f.channel.size + f.channel.inFlight + f.sojourns.completed

def work (f : Floor α) : Nat :=
  f.scheduler.pending.length + f.channel.size + f.channel.inFlight

theorem work_of_schedule {f : Floor α} {id : AgentId} {x : α} {e : Event α} {t : Scheduler α}
    (ht : f.scheduler.schedule id x = .ok (e, t)) :
    Floor.work { f with scheduler := t } = f.work + 1 := by
  obtain ⟨-, -, ha⟩ := Scheduler.schedule_eq_ok_iff.mp ht
  have hlength := ha.length_pending
  simp only [work]
  omega

omit [Arithmetic α] in
theorem work_of_dispatched {f : Floor α} {e : Event α} {t : Scheduler α}
    (h : f.scheduler.Dispatched e t) : Floor.work { f with scheduler := t } + 1 = f.work := by
  rw [work, work, h.pending, List.length_cons]
  simp only
  omega

theorem Sent.numbers {f f' : Floor α} {c : Customer α} (h : f.Sent c f') :
    f'.channel.put = f.channel.put + 1 ∧ f'.load = f.load + 1 ∧ f'.work ≤ f.work + 2 := by
  cases h with
  | @handed w ws e t hw ha =>
      have hlength := ha.length_pending
      refine ⟨rfl, ?_, ?_⟩
      · simp only [load, Channel.size, Channel.inFlight, List.length_append,
          List.length_singleton]
        omega
      · simp only [work, Channel.size, Channel.inFlight, List.length_append,
          List.length_singleton]
        omega
  | stored hw =>
      refine ⟨rfl, ?_, ?_⟩
      · simp only [load, Channel.size, Channel.inFlight, Fifo.size_push]
        omega
      · simp only [work, Channel.size, Channel.inFlight, Fifo.size_push]
        omega

omit [Arithmetic α] in
theorem numbers_of_taken {f : Floor α} {id : AgentId} {c : Customer α}
    {channel : Channel (Customer α)} (h : f.channel.Received id (some c) channel) :
    channel.put = f.channel.put ∧ Floor.load { f with channel } + 1 = f.load ∧
      Floor.work { f with channel } + 1 = f.work := by
  cases h with
  | @taken c buffer hb =>
      have hsize : f.channel.buffer.size = buffer.size + 1 := by
        rw [← Fifo.length_toList, hb, List.length_cons, Fifo.length_toList]
      refine ⟨rfl, ?_, ?_⟩
      · simp only [load, Channel.size, Channel.inFlight]
        omega
      · simp only [work, Channel.size, Channel.inFlight]
        omega

omit [Arithmetic α] in
theorem numbers_of_waiting {f : Floor α} {id : AgentId} {channel : Channel (Customer α)}
    (h : f.channel.Received id none channel) :
    channel.put = f.channel.put ∧ Floor.load { f with channel } = f.load ∧
      Floor.work { f with channel } = f.work := by
  cases h with
  | known hempty hmem => exact ⟨rfl, rfl, rfl⟩
  | registered hempty hmem => exact ⟨rfl, rfl, rfl⟩

omit [Arithmetic α] in
theorem numbers_of_collected {f : Floor α} {id : AgentId} {c : Customer α}
    {channel : Channel (Customer α)} (h : f.channel.Collected id (some c) channel) :
    channel.put = f.channel.put ∧ Floor.load { f with channel } + 1 = f.load ∧
      Floor.work { f with channel } + 1 = f.work := by
  cases h with
  | @oldest pre post c hsplit hpre =>
      have hlen : f.channel.reserved.length = (pre ++ post).length + 1 := by
        rw [hsplit, List.length_append, List.length_cons, List.length_append]
        omega
      refine ⟨rfl, ?_, ?_⟩
      · simp only [load, Channel.size, Channel.inFlight]
        omega
      · simp only [work, Channel.size, Channel.inFlight]
        omega

end Floor

def Agent.generated : Agent α → Nat
  | .source s => s.generated
  | .server _ => 0

def Agent.busy : Agent α → Nat
  | .source _ => 0
  | .server s => if s.inService.isSome then 1 else 0

/-- How many customers an agent is to generate, if it is a source. -/
def Agent.quota : Agent α → Option Nat
  | .source s => some s.limit
  | .server _ => none

section Turns

variable {id : AgentId} {f f' : Floor α}

/-- What a turn of a source does to the account: a customer that it generates is put. -/
theorem Source.Awaited.numbers {s s' : Source α} (h : s.Awaited id f s' f') :
    s'.generated = s.generated ∧ f'.channel.put = f.channel.put ∧ f'.load = f.load ∧
      f'.work + Network.agentWork (.source s') ≤ f.work + 3 * (s.limit - s.generated) := by
  cases h with
  | finished h => exact ⟨rfl, rfl, rfl, Nat.le_refl _⟩
  | timed h hx ht =>
      refine ⟨rfl, rfl, rfl, ?_⟩
      rw [Floor.work_of_schedule ht, Network.agentWork, if_pos rfl]
      show f.work + 1 + (3 * (s.limit - s.generated) - 1) ≤ _
      omega

theorem Source.Resumed.numbers {s s' : Source α} (h : s.Resumed id f s' f') {p w r : Nat}
    (hp : Placed (some (.source s)) p w r) :
    f'.channel.put + s.generated = f.channel.put + s'.generated ∧
      f'.load + s.generated = f.load + s'.generated ∧
      f'.work + Network.agentWork (.source s') ≤ f.work + Network.agentWork (.source s) := by
  cases h with
  | started hrun h =>
      obtain ⟨hgenerated, hput, hload, hwork⟩ := h.numbers
      have hs : Network.agentWork (.source s) = 3 * (s.limit - s.generated) := by
        rw [Network.agentWork, hrun]
        rfl
      rw [hgenerated, hput, hload, hs]
      exact ⟨rfl, rfl, hwork⟩
  | arrived htimer hs h =>
      have hlt : s.generated < s.limit := by
        cases hp with
        | newSource hrun _ => cases hrun.symm.trans htimer
        | generating _ hlt => exact hlt
        | exhausted hdone _ => cases hdone.symm.trans htimer
      -- a customer costs three events at most: its arrival, the waking of a server, its departure
      obtain ⟨hput₁, hload₁, hwork₁⟩ := hs.numbers
      obtain ⟨hgenerated, hput, hload, hwork⟩ := h.numbers
      have hagent : Network.agentWork (.source s) = 3 * (s.limit - s.generated) - 1 := by
        rw [Network.agentWork, if_pos htimer]
      simp only at hgenerated hwork
      refine ⟨?_, ?_, ?_⟩ <;> omega

theorem Server.Served.numbers {s s' : Server α} {c : Customer α} (h : s.Served id c f s' f') :
    f'.channel.put = f.channel.put ∧ f'.load = f.load ∧ f'.work = f.work + 1 ∧
      Agent.busy (.server s') = 1 := by
  cases h with
  | timed hx ht => exact ⟨rfl, rfl, Floor.work_of_schedule ht, rfl⟩

theorem Server.Fetched.numbers {s s' : Server α} (h : s.Fetched id f s' f')
    (hc : s.inService = none) :
    f'.channel.put = f.channel.put ∧ f'.load + Agent.busy (.server s') = f.load ∧
      f'.work ≤ f.work := by
  cases h with
  | found hr h =>
      obtain ⟨hput₁, hload₁, hwork₁⟩ := Floor.numbers_of_taken hr
      obtain ⟨hput, hload, hwork, hbusy⟩ := h.numbers
      simp only at hput
      refine ⟨?_, ?_, ?_⟩ <;> omega
  | empty hr =>
      obtain ⟨hput, hload, hwork⟩ := Floor.numbers_of_waiting hr
      have hbusy : Agent.busy (.server { s with phase := .awaitingChannel }) = 0 := by
        rw [Agent.busy, hc]
        rfl
      rw [hbusy]
      exact ⟨hput, hload, Nat.le_of_eq hwork⟩

/-- What a turn of a server does to the account: no customer is put, and one that completes
or is taken up stays in account. -/
theorem Server.Resumed.numbers {s s' : Server α} (h : s.Resumed id f s' f') {p w r : Nat}
    (hp : Placed (some (.server s)) p w r) :
    f'.channel.put = f.channel.put ∧
      f'.load + Agent.busy (.server s') = f.load + Agent.busy (.server s) ∧
      f'.work ≤ f.work := by
  have hidle : s.phase ≠ .awaitingTimer → s.inService = none := by
    intro hne
    cases hp with
    | newServer _ hc => exact hc
    | serving htimer _ => exact absurd htimer hne
    | waiting _ hc => exact hc
    | woken _ hc => exact hc
  cases h with
  | started hrun h =>
      have hc := hidle fun htimer => by cases hrun.symm.trans htimer
      rw [show Agent.busy (.server s) = 0 by rw [Agent.busy, hc]; rfl]
      exact h.numbers hc
  | finished htimer hc h =>
      obtain ⟨hput, hload, hwork⟩ := h.numbers rfl
      rw [show Agent.busy (.server s) = 1 by rw [Agent.busy, hc]; rfl]
      exact ⟨hput, hload, hwork⟩
  | woken hwait hr h =>
      have hc := hidle fun htimer => by cases hwait.symm.trans htimer
      rw [show Agent.busy (.server s) = 0 by rw [Agent.busy, hc]; rfl]
      obtain ⟨hput₁, hload₁, hwork₁⟩ := Floor.numbers_of_collected hr
      obtain ⟨hput, hload, hwork, hbusy⟩ := h.numbers
      simp only at hput
      refine ⟨?_, ?_, ?_⟩ <;> omega

theorem Source.Awaited.fixed {s s' : Source α} (h : s.Awaited id f s' f') :
    s'.rate = s.rate ∧ s'.limit = s.limit := by
  cases h with
  | finished _ => exact ⟨rfl, rfl⟩
  | timed _ _ _ => exact ⟨rfl, rfl⟩

theorem Source.Resumed.fixed {s s' : Source α} (h : s.Resumed id f s' f') :
    s'.rate = s.rate ∧ s'.limit = s.limit := by
  cases h with
  | started _ h => exact h.fixed
  | arrived _ _ h => exact h.fixed

theorem Server.Fetched.rate_eq {s s' : Server α} (h : s.Fetched id f s' f') :
    s'.rate = s.rate := by
  cases h with
  | found _ h =>
      cases h
      rfl
  | empty _ => rfl

theorem Server.Resumed.rate_eq {s s' : Server α} (h : s.Resumed id f s' f') :
    s'.rate = s.rate := by
  cases h with
  | started _ h => exact h.rate_eq
  | finished _ _ h => exact h.rate_eq
  | woken _ _ h =>
      cases h
      rfl

end Turns

omit [Arithmetic α] in
theorem sum_map_set (g : Agent α → Nat) : ∀ {agents : List (Agent α)} {i : Nat}
    {a b : Agent α}, agents[i]? = some a →
    ((agents.set i b).map g).sum + g a = (agents.map g).sum + g b
  | x :: agents, 0, a, b, h => by
      obtain rfl : x = a := by simpa using h
      simp only [List.set_cons_zero, List.map_cons, List.sum_cons]
      omega
  | x :: agents, i + 1, a, b, h => by
      have := sum_map_set g (b := b) (show agents[i]? = some a by simpa using h)
      simp only [List.set_cons_succ, List.map_cons, List.sum_cons]
      omega

omit [Arithmetic α] in
theorem map_set_eq {β : Type} (g : Agent α → β) {agents : List (Agent α)} {i : Nat}
    {a b : Agent α} (ha : agents[i]? = some a) (h : g b = g a) :
    (agents.set i b).map g = agents.map g := by
  obtain ⟨hlt, rfl⟩ := List.getElem?_eq_some_iff.mp ha
  have hlt' : i < (agents.map g).length := by rwa [List.length_map]
  rw [List.map_set, h, ← List.getElem_map g (h := hlt'), List.set_getElem_self]

namespace Network

def generated (n : Network α) : Nat := (n.agents.map Agent.generated).sum

def busy (n : Network α) : Nat := (n.agents.map Agent.busy).sum

/-- Every customer that was generated was put, and is in the channel, in service, or gone. -/
structure Balanced (n : Network α) : Prop where
  put_eq : n.floor.channel.put = n.generated
  conserved : n.floor.channel.put = n.floor.load + n.busy

omit [Arithmetic α] in
theorem work_eq (n : Network α) : n.work = n.floor.work + (n.agents.map agentWork).sum := by
  rw [work, Floor.work, List.sum_eq_foldr, List.foldr_map]

/-- What every turn does, whoever takes it. -/
structure Turned (n : Network α) (id : AgentId) (a a' : Agent α) (f : Floor α) : Prop where
  agent : n.agents[id.index]? = some a
  seated : Seated n.agents id f a'
  usable : a.Usable → a'.Usable
  quota_eq : a'.quota = a.quota
  /-- Whoever is generated is put. -/
  put_eq : f.channel.put + a.generated = n.floor.channel.put + a'.generated
  /-- Whoever was generated stays in account. -/
  load_eq : f.load + a'.busy + a.generated = n.floor.load + a.busy + a'.generated
  work_lt : f.work + agentWork a' < n.floor.work + agentWork a

theorem Moved.turned [LawfulTime α] {n m : Network α} {e : Event α} (h : n.Moved e m)
    (hn : n.Settled) : ∃ a a' f, m = ⟨f, n.agents.set e.agent.index a'⟩ ∧
      n.Turned e.agent a a' f := by
  cases h with
  | @source t s s' f hd ha h =>
      obtain ⟨p, w, r, hplaced, hfits⟩ := hn.dispatch hd
      rw [ha] at hplaced
      obtain ⟨hrate, hlimit⟩ := h.fixed
      obtain ⟨hput, hload, hwork⟩ := h.numbers hplaced
      have hdispatched := Floor.work_of_dispatched hd
      refine ⟨_, _, f, rfl, ha, h.seated hplaced hfits, ?_, congrArg some hlimit, hput, hload, ?_⟩
      · intro husable
        show isRate s'.rate = true
        rw [hrate]
        exact husable
      · simp only at hwork hdispatched
        omega
  | @server t s s' f hd ha h =>
      obtain ⟨p, w, r, hplaced, hfits⟩ := hn.dispatch hd
      rw [ha] at hplaced
      obtain ⟨hput, hload, hwork⟩ := h.numbers hplaced
      have hdispatched := Floor.work_of_dispatched hd
      refine ⟨_, _, f, rfl, ha, h.seated hplaced hfits, ?_, rfl, hput, hload, ?_⟩
      · intro husable
        show isRate s'.rate = true
        rw [h.rate_eq]
        exact husable
      · simp only at hwork hdispatched
        simp only [agentWork]
        omega

namespace Turned

variable {n : Network α} {id : AgentId} {a a' : Agent α} {f : Floor α}

theorem settled (h : n.Turned id a a' f) (hn : n.Settled) :
    Network.Settled ⟨f, n.agents.set id.index a'⟩ := by
  obtain ⟨p, w, r, hfits, hplaced⟩ := h.seated
  refine ⟨hfits.timely, ?_, ?_⟩
  · intro j
    by_cases hj : j = id
    · subst hj
      have hlt := (List.getElem?_eq_some_iff.mp h.agent).1
      rw [List.getElem?_set_self hlt, hfits.pending_eq, hfits.waiting_eq, hfits.reserved_eq]
      exact hplaced
    · have hne : id.index ≠ j.index := by
        intro heq
        exact hj (congrArg AgentId.mk heq.symm)
      rw [List.getElem?_set_ne hne]
      exact hfits.others j hj
  · intro b hb
    rcases List.mem_or_eq_of_mem_set hb with hb | rfl
    · exact hn.usable b hb
    · exact h.usable (hn.usable a (List.mem_of_getElem? h.agent))

theorem balanced (h : n.Turned id a a' f) (hb : n.Balanced) :
    Network.Balanced ⟨f, n.agents.set id.index a'⟩ := by
  obtain ⟨hput, hconserved⟩ := hb
  have hgenerated := sum_map_set Agent.generated (b := a') h.agent
  have hbusy := sum_map_set Agent.busy (b := a') h.agent
  have hput' := h.put_eq
  have hload' := h.load_eq
  rw [generated] at hput
  rw [busy] at hconserved
  constructor
  · show f.channel.put = ((n.agents.set id.index a').map Agent.generated).sum
    omega
  · show f.channel.put = f.load + ((n.agents.set id.index a').map Agent.busy).sum
    omega

/-- **Every step uses up some of the work.** -/
theorem work_decreases (h : n.Turned id a a' f) :
    Network.work ⟨f, n.agents.set id.index a'⟩ < n.work := by
  have hsum := sum_map_set agentWork (b := a') h.agent
  have hwork := h.work_lt
  rw [work_eq, work_eq]
  show f.work + ((n.agents.set id.index a').map agentWork).sum < _
  omega

theorem map_quota (h : n.Turned id a a' f) :
    (n.agents.set id.index a').map Agent.quota = n.agents.map Agent.quota :=
  map_set_eq Agent.quota h.agent h.quota_eq

end Turned

end Network

end Queueing
