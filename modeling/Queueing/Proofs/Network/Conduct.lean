import Mathlib.Data.List.Induction
import Mathlib.Data.List.Perm.Subperm
import Queueing.Proofs.Network.Account
import Queueing.Proofs.Network.Behaviour

/-!
# The conduct of agents under any calls

Sources and servers in any number share a floor, and anything may be asked of them and of the
floor at any time: an agent is resumed without an event, twice, again after a turn that failed,
or in the name of another one; events are taken and lead nowhere; customers are put into the
channel and taken out of it behind the backs of all. Whatever is asked and in whatever order
(`chronicle`), an agent that cannot go on changes nothing, every source has put as many customers
as it generated, in the order of their numbers, and nobody is counted twice
(`network_conduct`).
-/

namespace Queueing

variable {α : Type} [Arithmetic α]

/-! ## Deeds -/

/-- Whatever may be asked of agents and of the floor that they share. -/
inductive Deed (α : Type) where
  /-- Dispatch the next event. -/
  | dispatch
  /-- Take the next event and resume nobody. -/
  | skip
  /-- Resume an agent in a name, which need not be its own. -/
  | resume (id name : AgentId)
  /-- Ask for a wake-up. -/
  | schedule (id : AgentId) (delay : α)
  /-- Put a customer and wake whoever it is handed to. -/
  | send (c : Customer α)
  /-- Put a customer and wake nobody. -/
  | put (c : Customer α)
  | get (id : AgentId)
  | collect (id : AgentId)

namespace Network

def resumeAs (name id : AgentId) (n : Network α) : Network α × Except (Failure α) Phase :=
  match n.agents[id.index]? with
  | none => (n, .error (.error (.agentInvariant (.unregistered id))))
  | some agent =>
    let turn := agent.resume name n.floor
    (⟨turn.floor, n.agents.set id.index turn.agent⟩, turn.result)

theorem resume_eq_resumeAs (id : AgentId) (n : Network α) : n.resume id = n.resumeAs id id := rfl

/-- What a deed makes of a network, whether it succeeds or fails. -/
def after (n : Network α) : Deed α → Network α
  | .dispatch =>
    match n.step with
    | .rest => n
    | .moved _ m | .failed _ _ m => m
  | .skip =>
    match n.floor.scheduler.next with
    | .ok (some (_, scheduler)) => { n with floor := { n.floor with scheduler } }
    | _ => n
  | .resume id name => (n.resumeAs name id).1
  | .schedule id delay =>
    match n.floor.schedule id delay with
    | .ok (_, floor) => { n with floor }
    | .error _ => n
  | .send c => { n with floor := (n.floor.send c).1 }
  | .put c => { n with floor := { n.floor with channel := (n.floor.channel.send c).2 } }
  | .get id => { n with floor := (n.floor.receive id).2 }
  | .collect id => { n with floor := (n.floor.collect id).2 }

omit [Arithmetic α] in
def actor? (n : Network α) : Deed α → Option AgentId
  | .dispatch => n.floor.scheduler.pending.head?.map (·.agent)
  | .resume id _ => some id
  | _ => none

end Network

/-! ## Chronicles -/

/-- A network and what happened in it so far, the earliest first. -/
structure Chronicle (α : Type) where
  network : Network α
  /-- The customers that came into the channel, with the agent that put them, if it was one. -/
  puts : List (Option AgentId × Customer α)
  /-- The customers that an agent released for good. -/
  departed : List (Customer α)

namespace Chronicle

omit [Arithmetic α] in
/-- Go on to another state of the network, for which an agent may be responsible. What is noted
is read off the two states. -/
def extend (c : Chronicle α) (who : Option AgentId) (m : Network α) : Chronicle α where
  network := m
  puts := c.puts ++ (c.network.floor.channel.gained m.floor.channel).map (who, ·)
  departed := c.departed ++ match who.bind fun id => c.network.agents[id.index]? with
    | some a => a.departed c.network.floor m.floor
    | none => []

def perform (c : Chronicle α) (d : Deed α) : Chronicle α :=
  c.extend (c.network.actor? d) (c.network.after d)

def performAll (c : Chronicle α) (deeds : List (Deed α)) : Chronicle α := deeds.foldl perform c

omit [Arithmetic α] in
def putsBy (c : Chronicle α) (id : AgentId) : List (Customer α) :=
  (c.puts.filter (·.1 = some id)).map Prod.snd

end Chronicle

def chronicle (agents : List (Agent α)) (deeds : List (Deed α)) : Chronicle α :=
  Chronicle.performAll ⟨.ofAgents agents, [], []⟩ deeds

/-- How agents have conducted themselves in a chronicle, and will. -/
structure Conduct (agents : List (Agent α)) (c : Chronicle α) : Prop where
  /-- An agent that cannot go on changes nothing. -/
  unchanged : ∀ name id b, (c.network.resumeAs name id).2 = .error (.error (.agentInvariant b)) →
    (c.network.resumeAs name id).1 = c.network
  /-- Where it is resumed by a dispatch, the event is taken and nothing else changes. -/
  dispatch_unchanged : ∀ e b m,
    c.network.step = .failed (some e) (.error (.agentInvariant b)) m → m = c.network.after .skip
  /-- Kinds and limits are those of the start. -/
  quota_eq : c.network.agents.map Agent.quota = agents.map Agent.quota
  put_eq : c.network.floor.channel.put = c.puts.length
  /-- Every agent has put the customers that it generated, in the order of their numbers. -/
  numbers : ∀ id a, c.network.agents[id.index]? = some a →
    (c.putsBy id).map Customer.number = List.range a.generated
  generated_le : ∀ s, .source s ∈ c.network.agents → s.generated ≤ s.limit
  /-- A source that is done has generated all its customers. It never changes again, and puts
  nobody. -/
  done : ∀ id s, c.network.agents[id.index]? = some (.source s) → s.phase = .done →
    s.generated = s.limit ∧ ∀ later,
      (c.performAll later).network.agents[id.index]? = some (.source s) ∧
        (c.performAll later).putsBy id = c.putsBy id
  completed_eq : c.network.floor.sojourns.completed = c.departed.length
  /-- Nobody is in two places: whoever departed, is in service, reserved or in the buffer was
  put, and as often at least. -/
  once : (c.departed ++ c.network.agents.flatMap Agent.aboard ++
    c.network.floor.channel.reserved.map Prod.snd ++
      c.network.floor.channel.buffer.toList).Subperm (c.puts.map Prod.snd)
  count_le : c.network.floor.sojourns.completed + c.network.busy + c.network.floor.channel.size +
    c.network.floor.channel.inFlight ≤ c.network.floor.channel.put
  server : ∀ s, .server s ∈ c.network.agents →
    s.phase ≠ .done ∧ (s.phase = .awaitingTimer → s.inService.isSome = true)
  source : ∀ s, .source s ∈ c.network.agents → s.phase ≠ .awaitingChannel

/-! ## What a deed does -/

namespace Network

/-- The floor is in order, and so is every agent on it. -/
structure Regular (n : Network α) : Prop where
  timely : n.floor.Timely
  agents : ∀ a ∈ n.agents, a.Usable ∧ a.Coherent

/-- What a deed does for which an agent may be responsible. -/
inductive Performed (n : Network α) : Option AgentId → Network α → Prop where
  /-- Nobody is resumed. Customers may leave the channel, and come into it on behalf of no
  agent. -/
  | called {who : Option AgentId} {f : Floor α} {out : List (Customer α)} (hf : f.Timely)
      (hs : f.sojourns = n.floor.sojourns) (hm : n.floor.channel.Moves out f.channel)
      (hwho : n.floor.channel.gained f.channel = [] ∨ who = none) :
      Performed n who { n with floor := f }
  /-- An agent is resumed, after an event was taken or not. -/
  | resumed {id : AgentId} {t : Scheduler α} {a : Agent α} {turn : Turn α (Agent α)}
      (ha : n.agents[id.index]? = some a) (h : a.Behaved { n.floor with scheduler := t } turn) :
      Performed n (some id) ⟨turn.floor, n.agents.set id.index turn.agent⟩

variable {n m : Network α} {who : Option AgentId}

theorem Performed.of_scheduler {t : Scheduler α}
    (ht : Floor.Timely { n.floor with scheduler := t }) :
    n.Performed who { n with floor := { n.floor with scheduler := t } } :=
  .called ht rfl (.refl _) (Or.inl (Channel.gained_self _))

theorem Performed.refl (hn : n.Regular) : n.Performed who n := .of_scheduler hn.timely

theorem Regular.resumeAs_performed [LawfulTime α] (hn : n.Regular) {t : Scheduler α}
    (ht : Floor.Timely { n.floor with scheduler := t }) (name id : AgentId) :
    n.Performed (some id)
      (resumeAs name id { n with floor := { n.floor with scheduler := t } }).1 := by
  unfold resumeAs
  cases ha : n.agents[id.index]? with
  | none => exact .of_scheduler ht
  | some a =>
      obtain ⟨husable, hcoherent⟩ := hn.agents a (List.mem_of_getElem? ha)
      exact .resumed ha (hcoherent.behaved husable ht name)

theorem Regular.unchanged [LawfulTime α] (hn : n.Regular) (name id : AgentId) {b : Breach}
    (hb : (n.resumeAs name id).2 = .error (.error (.agentInvariant b))) :
    (n.resumeAs name id).1 = n := by
  unfold resumeAs at hb ⊢
  cases ha : n.agents[id.index]? with
  | none => rfl
  | some a =>
      rw [ha] at hb
      obtain ⟨husable, hcoherent⟩ := hn.agents a (List.mem_of_getElem? ha)
      obtain ⟨hagent, hfloor⟩ := (hcoherent.behaved husable hn.timely name).unchanged b hb
      obtain ⟨hlt, rfl⟩ := List.getElem?_eq_some_iff.mp ha
      simp only [hagent, hfloor, List.set_getElem_self]

/-- A dispatch that fails after it took an event is a turn that failed. -/
theorem resume_of_step {e x : Event α} {t : Scheduler α} {cause : Failure α}
    (h : n.floor.scheduler.next = .ok (some (e, t)))
    (hm : n.step = .failed (some x) cause m) : e = x ∧
      resume e.agent { n with floor := { n.floor with scheduler := t } } = (m, .error cause) := by
  rw [step, h] at hm
  simp only at hm
  generalize resume e.agent { n with floor := { n.floor with scheduler := t } } = r at hm ⊢
  obtain ⟨m', _ | _⟩ := r
  · cases hm
    exact ⟨rfl, rfl⟩
  · cases hm

theorem after_dispatch {e : Event α} {t : Scheduler α}
    (h : n.floor.scheduler.next = .ok (some (e, t))) : n.after .dispatch =
      (resumeAs e.agent e.agent { n with floor := { n.floor with scheduler := t } }).1 := by
  rw [after, step, h]
  simp only [resume_eq_resumeAs]
  generalize resumeAs e.agent e.agent { n with floor := { n.floor with scheduler := t } } = r
  obtain ⟨m, _ | _⟩ := r <;> rfl

/-- **Every deed either calls on the floor or resumes an agent**, which behaves. -/
theorem Regular.performed [LawfulTime α] (hn : n.Regular) (d : Deed α) :
    n.Performed (n.actor? d) (n.after d) := by
  cases d with
  | dispatch =>
      rcases Scheduler.next_cases hn.timely.orderly with ⟨-, hnext⟩ | ⟨e, t, hnext, hd⟩
      · have hrest : n.after .dispatch = n := by
          rw [after, step, hnext]
        rw [hrest]
        exact .refl hn
      · have hactor : n.actor? .dispatch = some e.agent := by
          rw [actor?, hd.pending]
          rfl
        rw [after_dispatch hnext, hactor]
        exact hn.resumeAs_performed (hn.timely.dispatched hd) e.agent e.agent
  | skip =>
      rw [after]
      rcases Scheduler.next_cases hn.timely.orderly with ⟨-, hnext⟩ | ⟨e, t, hnext, hd⟩
      · rw [hnext]
        exact .refl hn
      · rw [hnext]
        exact .of_scheduler (hn.timely.dispatched hd)
  | resume id name => exact hn.resumeAs_performed hn.timely name id
  | schedule id delay =>
      rw [after, Floor.schedule]
      cases ht : n.floor.scheduler.schedule id delay with
      | ok r => exact .of_scheduler (hn.timely.schedule ht)
      | error _ => exact .refl hn
  | send c =>
      obtain ⟨f, hsend, hsent⟩ := Floor.send_cases hn.timely.now_time c
      rw [after, hsend]
      exact .called (hn.timely.sent hsent) hsent.frame.2 hsent.channel.moves (Or.inr rfl)
  | put c =>
      have hmoves := (n.floor.channel.send_sent c).moves
      exact .called (hn.timely.move hmoves) rfl hmoves (Or.inr rfl)
  | get id =>
      have hr := n.floor.channel.receive_received id
      exact .called (hn.timely.move hr.moves) rfl hr.moves (Or.inr rfl)
  | collect id =>
      have hr := n.floor.channel.collect_collected id
      exact .called (hn.timely.move hr.moves) rfl hr.moves (Or.inr rfl)

theorem Performed.regular (h : n.Performed who m) (hn : n.Regular) : m.Regular := by
  cases h with
  | called hf _ _ _ => exact ⟨hf, hn.agents⟩
  | resumed ha h =>
      refine ⟨h.timely, ?_⟩
      intro b hb
      rcases List.mem_or_eq_of_mem_set hb with hb | rfl
      · exact hn.agents b hb
      · exact ⟨h.usable, h.coherent⟩

theorem Performed.quota_eq (h : n.Performed who m) :
    m.agents.map Agent.quota = n.agents.map Agent.quota := by
  cases h with
  | called _ _ _ _ => rfl
  | resumed ha h => exact map_set_eq Agent.quota ha h.quota_eq

theorem Performed.retired (h : n.Performed who m) {id : AgentId} {a : Agent α}
    (ha : n.agents[id.index]? = some a) (hdone : a.phase = .done) :
    m.agents[id.index]? = some a := by
  cases h with
  | called _ _ _ _ => exact ha
  | @resumed i _ b turn hb h =>
      show (n.agents.set i.index turn.agent)[id.index]? = some a
      by_cases hi : i.index = id.index
      · rw [hi] at hb ⊢
        cases ha.symm.trans hb
        rw [h.retired hdone, List.getElem?_set_self (List.getElem?_eq_some_iff.mp ha).1]
      · rw [List.getElem?_set_ne hi]
        exact ha

end Network

/-! ## What a chronicle keeps -/

namespace Chronicle

/-- What every deed keeps of a chronicle that began with these agents. -/
structure Kept (agents : List (Agent α)) (c : Chronicle α) : Prop where
  regular : c.network.Regular
  quota_eq : c.network.agents.map Agent.quota = agents.map Agent.quota
  put_eq : c.network.floor.channel.put = c.puts.length
  numbers : ∀ id a, c.network.agents[id.index]? = some a →
    (c.putsBy id).map Customer.number = List.range a.generated
  completed_eq : c.network.floor.sojourns.completed = c.departed.length
  /-- However customers are singled out, no more of them departed or are somewhere than were
  put. -/
  account : ∀ p : Customer α → Bool,
    c.departed.countP p + (c.network.agents.map (·.aboard.countP p)).sum +
      c.network.floor.channel.held.countP p ≤ (c.puts.map Prod.snd).countP p

variable {agents : List (Agent α)} {c : Chronicle α} {m : Network α} {who : Option AgentId}

omit [Arithmetic α] in
theorem map_snd_puts_extend : (c.extend who m).puts.map Prod.snd =
    c.puts.map Prod.snd ++ c.network.floor.channel.gained m.floor.channel := by
  rw [extend, List.map_append, List.map_map]
  exact congrArg _ (List.map_id _)

omit [Arithmetic α] in
theorem length_puts_extend : (c.extend who m).puts.length =
    c.puts.length + (c.network.floor.channel.gained m.floor.channel).length := by
  rw [extend, List.length_append, List.length_map]

omit [Arithmetic α] in
/-- What comes into the channel is put by the agent that is responsible. -/
theorem putsBy_extend_self (id : AgentId) : (c.extend (some id) m).putsBy id =
    c.putsBy id ++ c.network.floor.channel.gained m.floor.channel := by
  have hall : ((c.network.floor.channel.gained m.floor.channel).map
      (some id, ·)).filter (·.1 = some id) = (c.network.floor.channel.gained m.floor.channel).map
        (some id, ·) := by
    refine List.filter_eq_self.mpr ?_
    intro x hx
    obtain ⟨r, -, rfl⟩ := List.mem_map.mp hx
    exact decide_eq_true rfl
  rw [putsBy, extend, List.filter_append, hall, List.map_append, List.map_map]
  exact congrArg _ (List.map_id _)

omit [Arithmetic α] in
theorem putsBy_extend_of_ne {id : AgentId}
    (h : c.network.floor.channel.gained m.floor.channel = [] ∨ who ≠ some id) :
    (c.extend who m).putsBy id = c.putsBy id := by
  have hnone : ((c.network.floor.channel.gained m.floor.channel).map (who, ·)).filter
      (·.1 = some id) = [] := by
    refine List.filter_eq_nil_iff.mpr ?_
    intro x hx
    obtain ⟨r, hr, rfl⟩ := List.mem_map.mp hx
    rcases h with h | h
    · rw [h] at hr
      exact absurd hr List.not_mem_nil
    · simpa using h
  rw [putsBy, extend, List.filter_append, hnone, List.append_nil]
  rfl

omit [Arithmetic α] in
theorem putsBy_prefix_extend (id : AgentId) : c.putsBy id <+: (c.extend who m).putsBy id := by
  rw [putsBy, putsBy, extend, List.filter_append, List.map_append]
  exact List.prefix_append _ _

omit [Arithmetic α] in
theorem departed_extend_of_eq (h : m.floor.sojourns = c.network.floor.sojourns) :
    (c.extend who m).departed = c.departed := by
  rw [extend]
  simp only
  split
  · rw [Agent.departed_of_eq h, List.append_nil]
  · exact List.append_nil _

omit [Arithmetic α] in
theorem departed_extend_of_agent {id : AgentId} {a : Agent α}
    (ha : c.network.agents[id.index]? = some a) : (c.extend (some id) m).departed =
      c.departed ++ a.departed c.network.floor m.floor := by
  rw [extend, Option.bind_some, ha]

theorem Kept.called (hk : c.Kept agents) {f : Floor α} {out : List (Customer α)}
    (hf : f.Timely) (hs : f.sojourns = c.network.floor.sojourns)
    (hm : c.network.floor.channel.Moves out f.channel)
    (hwho : c.network.floor.channel.gained f.channel = [] ∨ who = none) :
    (c.extend who { c.network with floor := f }).Kept agents where
  regular := ⟨hf, hk.regular.agents⟩
  quota_eq := hk.quota_eq
  put_eq := by
    rw [length_puts_extend, ← hk.put_eq]
    exact hm.put_eq
  numbers id a ha := by
    have hne : c.network.floor.channel.gained f.channel = [] ∨ who ≠ some id :=
      hwho.imp_right fun h => by rw [h]; exact nofun
    rw [putsBy_extend_of_ne hne]
    exact hk.numbers id a ha
  completed_eq := by
    rw [departed_extend_of_eq hs, ← hk.completed_eq]
    exact congrArg Sojourns.completed hs
  account p := by
    have hbefore := hk.account p
    have hmoved := hm.perm.countP_eq p
    rw [departed_extend_of_eq hs, map_snd_puts_extend, List.countP_append]
    rw [List.countP_append, List.countP_append] at hmoved
    show c.departed.countP p + (c.network.agents.map (·.aboard.countP p)).sum +
      f.channel.held.countP p ≤ _ + (c.network.floor.channel.gained f.channel).countP p
    omega

/-- **Every turn keeps the chronicle**, at the right time or not, and whether it fails. -/
theorem Kept.resumed (hk : c.Kept agents) {id : AgentId} {t : Scheduler α} {a : Agent α}
    {turn : Turn α (Agent α)} (ha : c.network.agents[id.index]? = some a)
    (h : a.Behaved { c.network.floor with scheduler := t } turn) :
    (c.extend (some id) ⟨turn.floor, c.network.agents.set id.index turn.agent⟩).Kept agents where
  regular := (Network.Performed.resumed ha h).regular hk.regular
  quota_eq := (Network.Performed.resumed ha h).quota_eq.trans hk.quota_eq
  put_eq := by
    obtain ⟨out, hm, -⟩ := h.account
    rw [length_puts_extend, ← hk.put_eq]
    exact hm.put_eq
  numbers j b hb := by
    replace hb : (c.network.agents.set id.index turn.agent)[j.index]? = some b := hb
    by_cases hj : id = j
    · subst hj
      rw [List.getElem?_set_self (List.getElem?_eq_some_iff.mp ha).1] at hb
      cases hb
      rw [putsBy_extend_self, List.map_append, hk.numbers id a ha]
      exact h.range_eq.symm
    · have hne : id.index ≠ j.index := fun heq => hj (congrArg AgentId.mk heq)
      rw [List.getElem?_set_ne hne] at hb
      rw [putsBy_extend_of_ne (Or.inr fun heq => hj (Option.some.inj heq))]
      exact hk.numbers j b hb
  completed_eq := by
    rw [departed_extend_of_agent ha, List.length_append, ← hk.completed_eq]
    exact h.completed_eq
  account p := by
    -- the sum over the agents changes by what this one held and holds, and that comes from the
    -- channel; a customer whom it held may also be lost
    obtain ⟨out, hm, hsublist⟩ := h.account
    have hbefore := hk.account p
    have hmoved := hm.perm.countP_eq p
    have hheld := hsublist.countP_le (p := p)
    have hsum := sum_map_set (·.aboard.countP p) (b := turn.agent) ha
    rw [List.countP_append, List.countP_append] at hmoved hheld
    rw [departed_extend_of_agent ha, map_snd_puts_extend, List.countP_append,
      List.countP_append]
    show c.departed.countP p + (a.departed c.network.floor turn.floor).countP p +
      ((c.network.agents.set id.index turn.agent).map (·.aboard.countP p)).sum +
        turn.floor.channel.held.countP p ≤
          _ + (c.network.floor.channel.gained turn.floor.channel).countP p
    replace hmoved : out.countP p + turn.floor.channel.held.countP p =
      c.network.floor.channel.held.countP p +
        (c.network.floor.channel.gained turn.floor.channel).countP p := hmoved
    replace hheld : (a.departed c.network.floor turn.floor).countP p +
      turn.agent.aboard.countP p ≤ a.aboard.countP p + out.countP p := hheld
    omega

theorem Kept.extend (hk : c.Kept agents) (h : c.network.Performed who m) :
    (c.extend who m).Kept agents := by
  cases h with
  | called hf hs hm hwho => exact hk.called hf hs hm hwho
  | resumed ha h => exact hk.resumed ha h

theorem Kept.perform [LawfulTime α] (hk : c.Kept agents) (d : Deed α) :
    (c.perform d).Kept agents := hk.extend (hk.regular.performed d)

theorem Kept.performAll [LawfulTime α] (hk : c.Kept agents) (deeds : List (Deed α)) :
    (c.performAll deeds).Kept agents := by
  induction deeds generalizing c with
  | nil => exact hk
  | cons d deeds ih => exact ih (hk.perform d)

/-! ## Sources that are done -/

theorem Kept.retired [LawfulTime α] (hk : c.Kept agents) {id : AgentId} {a : Agent α}
    (ha : c.network.agents[id.index]? = some a) (hdone : a.phase = .done)
    (later : List (Deed α)) : (c.performAll later).network.agents[id.index]? = some a := by
  induction later generalizing c with
  | nil => exact ha
  | cons d later ih => exact ih (hk.perform d) ((hk.regular.performed d).retired ha hdone)

theorem putsBy_prefix (c : Chronicle α) (id : AgentId) (later : List (Deed α)) :
    c.putsBy id <+: (c.performAll later).putsBy id := by
  induction later generalizing c with
  | nil => exact List.prefix_rfl
  | cons d later ih => exact (putsBy_prefix_extend id).trans (ih (c.perform d))

theorem Kept.putsBy_of_retired [LawfulTime α] (hk : c.Kept agents) {id : AgentId} {a : Agent α}
    (ha : c.network.agents[id.index]? = some a) (hdone : a.phase = .done)
    (later : List (Deed α)) : (c.performAll later).putsBy id = c.putsBy id := by
  -- nothing that was put is ever struck off, so equal numbers of customers are the same customers
  have hbefore := congrArg List.length (hk.numbers id a ha)
  have hafter := congrArg List.length
    ((hk.performAll later).numbers id a (hk.retired ha hdone later))
  rw [List.length_map] at hbefore hafter
  exact ((c.putsBy_prefix id later).eq_of_length (hbefore.trans hafter.symm)).symm

/-! ## Conduct -/

theorem Kept.once (hk : c.Kept agents) : (c.departed ++ c.network.agents.flatMap Agent.aboard ++
    c.network.floor.channel.reserved.map Prod.snd ++
      c.network.floor.channel.buffer.toList).Subperm (c.puts.map Prod.snd) := by
  classical
  refine List.subperm_iff_count.mpr ?_
  intro x
  have haccount := hk.account (· == x)
  rw [Channel.held, List.countP_append] at haccount
  rw [List.count_append, List.count_append, List.count_append, List.count_flatMap]
  simp only [List.count, Function.comp_def]
  omega

theorem Kept.count_le (hk : c.Kept agents) : c.network.floor.sojourns.completed +
    c.network.busy + c.network.floor.channel.size + c.network.floor.channel.inFlight ≤
      c.network.floor.channel.put := by
  have hlength := hk.once.length_le
  have hbusy : c.network.busy = (c.network.agents.flatMap Agent.aboard).length := by
    rw [Network.busy, List.length_flatMap, List.map_congr_left fun a _ => a.busy_eq]
  simp only [List.length_append, List.length_map, Fifo.length_toList] at hlength
  rw [hk.completed_eq, hk.put_eq, hbusy, Channel.size, Channel.inFlight]
  omega

theorem Kept.conduct [LawfulTime α] (hk : c.Kept agents) : Conduct agents c where
  unchanged name id _ hb := hk.regular.unchanged name id hb
  dispatch_unchanged e b m hm := by
    have hskip := (hk.perform .skip).regular
    rw [Chronicle.perform, Chronicle.extend, Network.after] at hskip
    rw [Network.after]
    rcases Scheduler.next_cases hk.regular.timely.orderly with ⟨-, hnext⟩ | ⟨x, t, hnext, -⟩
    · rw [Network.step, hnext] at hm
      cases hm
    · rw [hnext] at hskip ⊢
      obtain ⟨rfl, hresume⟩ := Network.resume_of_step hnext hm
      rw [Network.resume_eq_resumeAs] at hresume
      have hsame := hskip.unchanged x.agent x.agent (b := b) (by rw [hresume])
      rw [hresume] at hsame
      exact hsame
  quota_eq := hk.quota_eq
  put_eq := hk.put_eq
  numbers := hk.numbers
  generated_le s hs := by
    obtain ⟨-, hcoherent⟩ := hk.regular.agents _ hs
    cases hcoherent with
    | newSource _ hg => omega
    | generating _ hg => omega
    | exhausted _ hg => omega
  done id s hs hp := by
    refine ⟨?_, fun later => ⟨hk.retired hs hp later, hk.putsBy_of_retired hs hp later⟩⟩
    obtain ⟨-, hcoherent⟩ := hk.regular.agents _ (List.mem_of_getElem? hs)
    cases hcoherent with
    | newSource hp' _ => cases hp.symm.trans hp'
    | generating hp' _ => cases hp.symm.trans hp'
    | exhausted _ hg => exact hg
  completed_eq := hk.completed_eq
  once := hk.once
  count_le := hk.count_le
  server s hs := by
    obtain ⟨-, hcoherent⟩ := hk.regular.agents _ hs
    refine ⟨hcoherent.phase_ne, ?_⟩
    intro htimer
    cases hcoherent with
    | idle hp => rcases hp with hp | hp <;> cases hp.symm.trans htimer
    | serving _ hc =>
        rw [hc]
        rfl
  source s hs := by
    obtain ⟨-, hcoherent⟩ := hk.regular.agents _ hs
    intro hwait
    cases hcoherent with
    | newSource hp _ => cases hp.symm.trans hwait
    | generating hp _ => cases hp.symm.trans hwait
    | exhausted hp _ => cases hp.symm.trans hwait

theorem fresh_kept [LawfulTime α] (hfresh : ∀ a ∈ agents, a.Fresh) :
    Kept agents ⟨.ofAgents agents, [], []⟩ where
  regular := by
    refine ⟨Network.ofAgents_timely agents, ?_⟩
    intro a ha
    cases hfresh a ha with
    | source hrate => exact ⟨hrate, .newSource rfl rfl⟩
    | server hrate => exact ⟨hrate, .idle (Or.inl rfl)⟩
  quota_eq := rfl
  put_eq := rfl
  numbers id a ha := by
    cases hfresh a (List.mem_of_getElem? ha) <;> rfl
  completed_eq := rfl
  account p := by
    have hsum : (agents.map (·.aboard.countP p)).sum = 0 := by
      refine List.sum_eq_zero ?_
      intro x hx
      obtain ⟨a, ha, rfl⟩ := List.mem_map.mp hx
      cases hfresh a ha <;> rfl
    show 0 + (agents.map (·.aboard.countP p)).sum + 0 ≤ 0
    omega

end Chronicle

namespace Network

/-- **Agents conduct themselves under any calls**, whatever the platform takes for the
logarithm. -/
theorem network_conduct (log threeHalves : Binary64 → Binary64) :
    letI := Binary64.arithmetic log threeHalves
    ∀ agents : List (Agent Binary64), (∀ a ∈ agents, a.Fresh) →
      ∀ deeds, Conduct agents (chronicle agents deeds) := by
  let _ := Binary64.arithmetic log threeHalves
  intro agents hfresh deeds
  exact ((Chronicle.fresh_kept hfresh).performAll deeds).conduct

/-- A logarithm under which only the first wait of the source in `network_conduct_refused` is a
delay: all others are infinite. -/
def onceLog (x : Binary64) : Binary64 :=
  if x.bits = 4606853716570277489 then ⟨13808890457445132378⟩ else -Binary64.infinity

/-- A source is resumed again and again without an event, and each time its next wait is refused;
so are the waits of the server, which loses a customer. -/
theorem network_conduct_refused :
    letI := Binary64.arithmetic onceLog Binary64.threeHalves
    letI agents : List (Agent Binary64) :=
      [.server (Server.fresh 1 ⟨15935747428950683733⟩),
        .source (Source.fresh 3 1 ⟨18028485387484114715⟩)]
    letI deeds : List (Deed Binary64) :=
      [.resume ⟨1⟩ ⟨1⟩, .resume ⟨1⟩ ⟨1⟩, .resume ⟨1⟩ ⟨1⟩, .resume ⟨0⟩ ⟨0⟩, .resume ⟨0⟩ ⟨0⟩,
        .dispatch]
    (∀ a ∈ agents, a.Fresh) ∧ Conduct agents (chronicle agents deeds) ∧
      ((chronicle agents deeds).putsBy ⟨1⟩).map Customer.number = [0, 1, 2] := by
  let _ := Binary64.arithmetic onceLog Binary64.threeHalves
  let agents : List (Agent Binary64) :=
    [.server (Server.fresh 1 ⟨15935747428950683733⟩),
      .source (Source.fresh 3 1 ⟨18028485387484114715⟩)]
  have hrate : isRate (1 : Binary64) = true := by decide +kernel
  have hfresh : ∀ a ∈ agents, a.Fresh := by
    intro a ha
    rcases List.mem_cons.mp ha with rfl | ha
    · exact .server hrate
    · rw [List.mem_singleton.mp ha]
      exact .source hrate
  exact ⟨hfresh, network_conduct onceLog Binary64.threeHalves agents hfresh _, by decide +kernel⟩

end Network

end Queueing
