import Queueing.Proofs.Network.Steps

/-!
# What every turn keeps

An agent may be resumed at any time: twice in a row, without an event, or again after a turn
that failed. Whenever it is and whatever the turn results in, the agent keeps its data coherent
with its phase, generates whom it puts and no others, and holds or releases nobody who did not
leave the channel for it (`Agent.Coherent.behaved`).
-/

namespace Queueing

variable {α : Type} [Arithmetic α]

namespace Agent

/-- The phase of an agent agrees with its data. A server that failed may hold a customer in
any phase. -/
inductive Coherent : Agent α → Prop where
  | newSource {s : Source α} (hp : s.phase = .running) (hg : s.generated = 0) :
      Coherent (.source s)
  | generating {s : Source α} (hp : s.phase = .awaitingTimer) (hg : s.generated < s.limit) :
      Coherent (.source s)
  | exhausted {s : Source α} (hp : s.phase = .done) (hg : s.generated = s.limit) :
      Coherent (.source s)
  | idle {s : Server α} (hp : s.phase = .running ∨ s.phase = .awaitingChannel) :
      Coherent (.server s)
  | serving {s : Server α} {c : Customer α} (hp : s.phase = .awaitingTimer)
      (hc : s.inService = some c) : Coherent (.server s)

def aboard : Agent α → List (Customer α)
  | .source _ => []
  | .server s => s.inService.toList

omit [Arithmetic α] in
theorem busy_eq (a : Agent α) : a.busy = a.aboard.length := by
  cases a with
  | source s => rfl
  | server s => cases h : s.inService <;> simp [busy, aboard, h]

/-- The customer who leaves an agent for good: one more is counted as completed, and it is the
one whom the agent held. -/
def departed (a : Agent α) (f f' : Floor α) : List (Customer α) :=
  if f.sojourns.completed < f'.sojourns.completed then a.aboard else []

/-- What every turn of an agent keeps, whatever its result. -/
structure Behaved (a : Agent α) (f : Floor α) (t : Turn α (Agent α)) : Prop where
  /-- An agent that cannot go on changes nothing. -/
  unchanged : ∀ b, t.result = .error (.error (.agentInvariant b)) → t.agent = a ∧ t.floor = f
  timely : t.floor.Timely
  usable : t.agent.Usable
  coherent : t.agent.Coherent
  quota_eq : t.agent.quota = a.quota
  retired : a.phase = .done → t.agent = a
  /-- Whoever is put is generated, in the order of the numbers. -/
  range_eq : List.range t.agent.generated = List.range a.generated ++
    (f.channel.gained t.floor.channel).map Customer.number
  completed_eq : t.floor.sojourns.completed =
    f.sojourns.completed + (a.departed f t.floor).length
  /-- Whoever is held or departs was held before or has left the channel. -/
  account : ∃ out, f.channel.Moves out t.floor.channel ∧
    (a.departed f t.floor ++ t.agent.aboard).Sublist (a.aboard ++ out)

omit [Arithmetic α] in
theorem departed_of_eq {a : Agent α} {f f' : Floor α} (h : f'.sojourns = f.sojourns) :
    a.departed f f' = [] := by
  rw [departed, h, if_neg (Nat.lt_irrefl _)]

omit [Arithmetic α] in
theorem departed_of_succ {a : Agent α} {f f' : Floor α}
    (h : f'.sojourns.completed = f.sojourns.completed + 1) : a.departed f f' = a.aboard := by
  rw [departed, h, if_pos (Nat.lt_succ_self _)]

end Agent

section Behaved

variable {id : AgentId} {f : Floor α}

/-! ## Sources -/

theorem Source.Awaits.agent {s : Source α} {t : Turn α (Source α)} (h : s.Awaits id f t) :
    t.agent.rate = s.rate ∧ t.agent.limit = s.limit ∧ t.agent.generated = s.generated := by
  cases h <;> exact ⟨rfl, rfl, rfl⟩

theorem Source.Awaits.frame {s : Source α} {t : Turn α (Source α)} (h : s.Awaits id f t) :
    t.floor.channel = f.channel ∧ t.floor.sojourns = f.sojourns := by
  cases h <;> exact ⟨rfl, rfl⟩

theorem Source.Awaits.result_ne {s : Source α} {t : Turn α (Source α)} (h : s.Awaits id f t)
    (b : Breach) : t.result ≠ .error (.error (.agentInvariant b)) := by
  cases h <;> exact nofun

theorem Source.Awaits.timely [LawfulTime α] {s : Source α} {t : Turn α (Source α)}
    (h : s.Awaits id f t) (hf : f.Timely) : t.floor.Timely := by
  cases h with
  | finished _ => exact hf
  | timed _ _ ht => exact hf.schedule ht
  | refused _ _ _ => exact hf

/-- A wait that is refused leaves a source in the phase that it had. -/
theorem Source.Awaits.coherent {s : Source α} {t : Turn α (Source α)} (h : s.Awaits id f t)
    (hle : s.generated ≤ s.limit)
    (hkeep : s.generated < s.limit → ∀ rng, (Agent.source { s with rng }).Coherent) :
    (Agent.source t.agent).Coherent := by
  cases h with
  | finished h => exact .exhausted rfl (Nat.le_antisymm hle h)
  | timed h _ _ => exact .generating rfl h
  | refused h _ _ => exact hkeep h _

/-- No customer leaves the channel or departs in the turn of a source. -/
theorem Agent.Behaved.of_source {s : Source α} {t : Turn α (Source α)}
    (hunchanged : ∀ b, t.result = .error (.error (.agentInvariant b)) →
      t.agent = s ∧ t.floor = f)
    (htimely : t.floor.Timely) (husable : isRate t.agent.rate = true)
    (hcoherent : (Agent.source t.agent).Coherent) (hlimit : t.agent.limit = s.limit)
    (hretired : s.phase = .done → t.agent = s)
    (hrange : List.range t.agent.generated = List.range s.generated ++
      (f.channel.gained t.floor.channel).map Customer.number)
    (hsojourns : t.floor.sojourns = f.sojourns) (hmoves : f.channel.Moves [] t.floor.channel) :
    (Agent.source s).Behaved f ⟨.source t.agent, t.floor, t.result⟩ where
  unchanged b hb := ⟨congrArg Agent.source (hunchanged b hb).1, (hunchanged b hb).2⟩
  timely := htimely
  usable := husable
  coherent := hcoherent
  quota_eq := congrArg some hlimit
  retired h := congrArg Agent.source (hretired h)
  range_eq := hrange
  completed_eq := by
    rw [Agent.departed_of_eq hsojourns, hsojourns]
    rfl
  account := by
    rw [Agent.departed_of_eq hsojourns]
    exact ⟨[], hmoves, List.Sublist.refl _⟩

theorem Source.Attempted.behaved [LawfulTime α] {s : Source α} {t : Turn α (Source α)}
    (h : s.Attempted id f t) (hf : f.Timely) (husable : isRate s.rate = true)
    (hs : (Agent.source s).Coherent) :
    (Agent.source s).Behaved f ⟨.source t.agent, t.floor, t.result⟩ := by
  cases h with
  | started hp h =>
      obtain ⟨hrate, hlimit, hgenerated⟩ := h.agent
      obtain ⟨hchannel, hsojourns⟩ := h.frame
      have hzero : s.generated = 0 := by
        cases hs with
        | newSource _ hg => exact hg
        | generating hp' _ => cases hp.symm.trans hp'
        | exhausted hp' _ => cases hp.symm.trans hp'
      refine .of_source (fun b hb => (h.result_ne b hb).elim) (h.timely hf) (by rwa [hrate]) ?_
        hlimit (fun hdone => nomatch hp.symm.trans hdone) ?_ hsojourns
        (by rw [hchannel]; exact .refl _)
      · exact h.coherent (by omega) fun _ _ => .newSource hp hzero
      · rw [hgenerated, hchannel, Channel.gained_self]
        exact (List.append_nil _).symm
  | @arrived f₁ _ hp hsent h =>
      -- the customer is put and counted before the wait is drawn, and stays so if it is refused
      obtain ⟨hrate, hlimit, hgenerated⟩ := h.agent
      obtain ⟨hchannel, hsojourns⟩ := h.frame
      have hlt : s.generated < s.limit := by
        cases hs with
        | newSource hp' _ => cases hp.symm.trans hp'
        | generating _ hg => exact hg
        | exhausted hp' _ => cases hp.symm.trans hp'
      refine .of_source (fun b hb => (h.result_ne b hb).elim) (h.timely (hf.sent hsent))
        (by rwa [hrate]) ?_ hlimit (fun hdone => nomatch hp.symm.trans hdone) ?_
        (hsojourns.trans hsent.frame.2) (by rw [hchannel]; exact hsent.channel.moves)
      · exact h.coherent hlt fun hlt' _ => .generating hp hlt'
      · rw [hgenerated, hchannel, hsent.channel.gained_eq]
        exact List.range_succ
  | unfit _ _ =>
      refine .of_source (fun _ _ => ⟨rfl, rfl⟩) hf husable hs rfl (fun _ => rfl) ?_ rfl (.refl _)
      rw [Channel.gained_self]
      exact (List.append_nil _).symm

/-! ## Servers -/

theorem Server.Serves.agent {s : Server α} {c : Customer α} {t : Turn α (Server α)}
    (h : s.Serves id c f t) : t.agent.rate = s.rate ∧ t.agent.inService = some c := by
  cases h <;> exact ⟨rfl, rfl⟩

theorem Server.Serves.frame {s : Server α} {c : Customer α} {t : Turn α (Server α)}
    (h : s.Serves id c f t) :
    t.floor.channel = f.channel ∧ t.floor.sojourns = f.sojourns := by
  cases h <;> exact ⟨rfl, rfl⟩

theorem Server.Serves.result_ne {s : Server α} {c : Customer α} {t : Turn α (Server α)}
    (h : s.Serves id c f t) (b : Breach) : t.result ≠ .error (.error (.agentInvariant b)) := by
  cases h <;> exact nofun

theorem Server.Serves.timely [LawfulTime α] {s : Server α} {c : Customer α}
    {t : Turn α (Server α)} (h : s.Serves id c f t) (hf : f.Timely) : t.floor.Timely := by
  cases h with
  | timed _ ht => exact hf.schedule ht
  | refused _ _ => exact hf

omit [Arithmetic α] in
/-- A server that holds a customer may be in any phase but that of having finished. -/
theorem Agent.Coherent.of_inService {s : Server α} {c : Customer α} (hp : s.phase ≠ .done)
    (hc : s.inService = some c) : (Agent.server s).Coherent := by
  cases h : s.phase with
  | running => exact .idle (Or.inl h)
  | awaitingTimer => exact .serving h hc
  | awaitingChannel => exact .idle (Or.inr h)
  | done => exact absurd h hp

omit [Arithmetic α] in
theorem Agent.Coherent.phase_ne {s : Server α} (h : (Agent.server s).Coherent) :
    s.phase ≠ .done := by
  intro hdone
  cases h with
  | idle hp => rcases hp with hp | hp <;> cases hp.symm.trans hdone
  | serving hp _ => cases hp.symm.trans hdone

theorem Server.Serves.coherent {s : Server α} {c : Customer α} {t : Turn α (Server α)}
    (h : s.Serves id c f t) (hp : s.phase ≠ .done) : (Agent.server t.agent).Coherent := by
  cases h with
  | timed _ _ => exact .serving rfl rfl
  | refused _ _ => exact .of_inService hp rfl

/-- What a server keeps that takes a customer from the channel, or finds none. -/
structure Server.Supplied (s : Server α) (f : Floor α) (t : Turn α (Server α)) : Prop where
  result_ne : ∀ b, t.result ≠ .error (.error (.agentInvariant b))
  timely : t.floor.Timely
  rate_eq : t.agent.rate = s.rate
  coherent : (Agent.server t.agent).Coherent
  gained_eq : f.channel.gained t.floor.channel = []
  sojourns_eq : t.floor.sojourns = f.sojourns
  account : ∃ out, f.channel.Moves out t.floor.channel ∧
    t.agent.inService.toList.Sublist (s.inService.toList ++ out)

theorem Server.Serves.supplied [LawfulTime α] {s : Server α} {c : Customer α}
    {channel : Channel (Customer α)} {t : Turn α (Server α)}
    (h : s.Serves id c { f with channel } t) (hf : f.Timely) (hp : s.phase ≠ .done)
    (hgained : f.channel.gained channel = []) (hmoves : f.channel.Moves [c] channel) :
    s.Supplied f t where
  result_ne := h.result_ne
  timely := h.timely (hf.move hmoves)
  rate_eq := h.agent.1
  coherent := h.coherent hp
  gained_eq := by
    rw [h.frame.1]
    exact hgained
  sojourns_eq := h.frame.2
  account := by
    rw [h.frame.1, h.agent.2]
    exact ⟨[c], hmoves, List.sublist_append_right _ _⟩

theorem Server.Fetches.supplied [LawfulTime α] {s : Server α} {t : Turn α (Server α)}
    (h : s.Fetches id f t) (hf : f.Timely) (hp : s.phase ≠ .done) : s.Supplied f t := by
  cases h with
  | found hr h => exact h.supplied hf hp hr.gained_eq hr.moves
  | empty hr =>
      refine ⟨fun _ => nofun, hf.move hr.moves, rfl, .idle (Or.inr rfl), hr.gained_eq, rfl, [],
        hr.moves, ?_⟩
      exact List.sublist_append_left _ _

theorem Server.Supplied.behaved {s : Server α} {t : Turn α (Server α)} (h : s.Supplied f t)
    (husable : isRate s.rate = true) (hp : s.phase ≠ .done) :
    (Agent.server s).Behaved f ⟨.server t.agent, t.floor, t.result⟩ where
  unchanged b hb := (h.result_ne b hb).elim
  timely := h.timely
  usable := by
    show isRate t.agent.rate = true
    rw [h.rate_eq]
    exact husable
  coherent := h.coherent
  quota_eq := rfl
  retired hdone := absurd hdone hp
  range_eq := by
    rw [h.gained_eq]
    rfl
  completed_eq := by
    rw [Agent.departed_of_eq h.sojourns_eq, h.sojourns_eq]
    rfl
  account := by
    rw [Agent.departed_of_eq h.sojourns_eq]
    exact h.account

theorem Server.Supplied.released {s : Server α} {c : Customer α} {t : Turn α (Server α)}
    (h : Server.Supplied { s with inService := none } (f.complete c) t)
    (hc : s.inService = some c) (husable : isRate s.rate = true) (hp : s.phase ≠ .done) :
    (Agent.server s).Behaved f ⟨.server t.agent, t.floor, t.result⟩ := by
  have hcompleted : t.floor.sojourns.completed = f.sojourns.completed + 1 := by
    rw [h.sojourns_eq]
    rfl
  have haboard : (Agent.server s).aboard = [c] := congrArg Option.toList hc
  have hdeparted : (Agent.server s).departed f t.floor = [c] := by
    rw [Agent.departed_of_succ hcompleted, haboard]
  obtain ⟨out, hmoves, hsublist⟩ := h.account
  exact
    { h.behaved (s := { s with inService := none }) husable hp with
      unchanged := fun b hb => (h.result_ne b hb).elim
      retired := fun hdone => absurd hdone hp
      completed_eq := by
        rw [hdeparted]
        exact hcompleted
      account := by
        refine ⟨out, hmoves, ?_⟩
        rw [hdeparted, haboard]
        exact hsublist.cons_cons c }

theorem Server.Attempted.behaved [LawfulTime α] {s : Server α} {t : Turn α (Server α)}
    (h : s.Attempted id f t) (hf : f.Timely) (husable : isRate s.rate = true)
    (hs : (Agent.server s).Coherent) :
    (Agent.server s).Behaved f ⟨.server t.agent, t.floor, t.result⟩ := by
  have hp := hs.phase_ne
  cases h with
  | started _ h => exact (h.supplied hf hp).behaved husable hp
  | @finished c _ _ hc h =>
      have hfloor : (f.complete c).Timely := ⟨hf.orderly, hf.now_time, hf.time, hf.apart⟩
      exact (h.supplied hfloor hp).released hc husable hp
  | woken _ hr h => exact (h.supplied hf hp hr.gained_eq hr.moves).behaved husable hp
  | unfit _ =>
      refine ⟨fun _ _ => ⟨rfl, rfl⟩, hf, husable, hs, rfl, fun _ => rfl, ?_, ?_, [], .refl _, ?_⟩
      · rw [Channel.gained_self]
        rfl
      · rw [Agent.departed_of_eq rfl]
        rfl
      · rw [Agent.departed_of_eq rfl]
        exact List.sublist_append_left _ _

/-! ## Agents -/

/-- **Every turn of an agent is well behaved**, whenever the agent is resumed. -/
theorem Agent.Coherent.behaved [LawfulTime α] {a : Agent α} (ha : a.Coherent)
    (husable : a.Usable) (hf : f.Timely) (id : AgentId) : a.Behaved f (a.resume id f) := by
  cases a with
  | source s =>
      exact (Source.resume_attempted husable hf.orderly hf.now_time id).behaved hf husable ha
  | server s => exact (Server.resume_attempted husable hf.orderly id).behaved hf husable ha

end Behaved

end Queueing
