import Mathlib.Data.List.Count
import Queueing.Proofs.Channel.Moves
import Queueing.Proofs.Network.Turns
import Queueing.Simulation.Network

/-!
# Settled networks

Between two dispatches every agent has a place: it has started nothing, sleeps until a
wake-up of its own, waits for a customer, has one reserved, or is done. The place fixes how
many wake-ups are pending for the agent, whether it waits at the channel, and how much is
reserved for it there. A network in which every agent has its place, on a floor that is in
order, is settled.

While an agent takes its turn it has no place, and all others keep theirs (`Fits`). Each
action of a turn keeps the others in their places and changes the counts of the agent in a
known way, so that the agent has a place again when the turn is over.
-/

namespace Queueing

variable {α : Type} [Arithmetic α]

/-! ## Counts -/

namespace Floor

def pendingOf (f : Floor α) (id : AgentId) : Nat := f.scheduler.pending.countP (·.agent = id)

def waitingOf (f : Floor α) (id : AgentId) : Nat := f.channel.waiters.count id

def reservedOf (f : Floor α) (id : AgentId) : Nat := f.channel.reserved.countP (·.1 = id)

/-- The clock and all wake-ups are in order, and customers and waiting servers never meet. -/
structure Timely (f : Floor α) : Prop where
  orderly : f.scheduler.Orderly
  now_time : IsTime f.now
  time : ∀ e ∈ f.scheduler.pending, IsTime e.time
  apart : f.channel.waiters = [] ∨ f.channel.buffer.toList = []

end Floor

theorem Scheduler.Accepted.countP_pending {s s' : Scheduler α} {id : AgentId} {time : α}
    {e : Event α} (h : s.Accepted id time e s') (j : AgentId) :
    s'.pending.countP (·.agent = j) =
      s.pending.countP (·.agent = j) + if id = j then 1 else 0 := by
  obtain ⟨rfl, rfl, -, -⟩ := h
  rw [(Event.insert_perm _ _).countP_eq, List.countP_cons]
  simp only [decide_eq_true_eq]

omit [Arithmetic α] in
theorem Scheduler.Dispatched.countP_pending {s s' : Scheduler α} {e : Event α}
    (h : s.Dispatched e s') (j : AgentId) :
    s.pending.countP (·.agent = j) =
      s'.pending.countP (·.agent = j) + if e.agent = j then 1 else 0 := by
  rw [h.pending, List.countP_cons]
  simp only [decide_eq_true_eq]

omit [Arithmetic α] in
theorem Floor.waitingOf_of_cons {f : Floor α} {v : AgentId} {ws : List AgentId}
    (h : f.channel.waiters = v :: ws) (j : AgentId) :
    f.waitingOf j = ws.count j + if v = j then 1 else 0 := by
  rw [waitingOf, h, List.count_cons]
  simp only [beq_iff_eq]

theorem Floor.Timely.accept [LawfulTime α] {f : Floor α} (hf : f.Timely) {id : AgentId}
    {time : α} {e : Event α} {t : Scheduler α} (ha : f.scheduler.Accepted id time e t)
    (ht : IsTime time) : Floor.Timely { f with scheduler := t } := by
  refine ⟨ha.orderly hf.orderly, ?_, ?_, hf.apart⟩
  · show IsTime t.now
    rw [ha.now_eq]
    exact hf.now_time
  · intro x hx
    rcases ha.mem_pending.mp hx with rfl | hx
    · rw [ha.event]
      exact ht
    · exact hf.time x hx

theorem Floor.Timely.schedule [LawfulTime α] {f : Floor α} (hf : f.Timely) {id : AgentId}
    {x : α} {e : Event α} {t : Scheduler α} (ht : f.scheduler.schedule id x = .ok (e, t)) :
    Floor.Timely { f with scheduler := t } := by
  obtain ⟨hfin, h0, ha⟩ := Scheduler.schedule_eq_ok_iff.mp ht
  exact hf.accept ha (hf.now_time.add hfin h0 ha.finite).1

theorem Floor.Timely.move {f : Floor α} (hf : f.Timely) {out : List (Customer α)}
    {channel : Channel (Customer α)} (h : f.channel.Moves out channel) :
    Floor.Timely { f with channel } :=
  ⟨hf.orderly, hf.now_time, hf.time, h.apart hf.apart⟩

theorem Floor.Timely.sent [LawfulTime α] {f f' : Floor α} (hf : f.Timely) {c : Customer α}
    (h : f.Sent c f') : f'.Timely := by
  have hmoves := h.channel.moves
  cases h with
  | stored _ => exact hf.move hmoves
  | handed _ ha => exact (hf.accept ha hf.now_time).move hmoves

theorem Floor.Timely.dispatched [LawfulTime α] {f : Floor α} (hf : f.Timely) {e : Event α}
    {t : Scheduler α} (hd : f.scheduler.Dispatched e t) :
    Floor.Timely { f with scheduler := t } := by
  refine ⟨hd.orderly hf.orderly, ?_, ?_, hf.apart⟩
  · rw [Floor.now, hd.now]
    exact hf.time e (hd.mem_pending.mpr (Or.inl rfl))
  · intro x hx
    exact hf.time x (hd.mem_pending.mpr (Or.inr hx))

/-! ## Places -/

/-- The place of an agent, with the counts that belong to it. A number that no agent has is
counted nowhere. -/
inductive Placed : Option (Agent α) → Nat → Nat → Nat → Prop where
  | absent : Placed none 0 0 0
  | newSource {s : Source α} (hp : s.phase = .running) (hg : s.generated = 0) :
      Placed (some (.source s)) 1 0 0
  | generating {s : Source α} (hp : s.phase = .awaitingTimer) (hg : s.generated < s.limit) :
      Placed (some (.source s)) 1 0 0
  | exhausted {s : Source α} (hp : s.phase = .done) (hg : s.generated = s.limit) :
      Placed (some (.source s)) 0 0 0
  | newServer {s : Server α} (hp : s.phase = .running) (hc : s.inService = none) :
      Placed (some (.server s)) 1 0 0
  | serving {s : Server α} {c : Customer α} (hp : s.phase = .awaitingTimer)
      (hc : s.inService = some c) : Placed (some (.server s)) 1 0 0
  | waiting {s : Server α} (hp : s.phase = .awaitingChannel) (hc : s.inService = none) :
      Placed (some (.server s)) 0 1 0
  | woken {s : Server α} (hp : s.phase = .awaitingChannel) (hc : s.inService = none) :
      Placed (some (.server s)) 1 0 1

omit [Arithmetic α] in
theorem Placed.wake {a : Option (Agent α)} {p w r : Nat} (h : Placed a p (w + 1) r) :
    Placed a (p + 1) w (r + 1) := by
  cases h with
  | waiting hp hc => exact .woken hp hc

omit [Arithmetic α] in
theorem Placed.absent_eq {p w r : Nat} (h : Placed (none : Option (Agent α)) p w r) :
    p = 0 ∧ w = 0 ∧ r = 0 := by
  cases h
  exact ⟨rfl, rfl, rfl⟩

omit [Arithmetic α] in
theorem Placed.aside {a : Agent α} {p w r : Nat} (h : Placed (some a) p w r)
    (hphase : a.phase ≠ .awaitingChannel) : w = 0 ∧ r = 0 := by
  cases h with
  | waiting hp _ => exact absurd hp hphase
  | woken hp _ => exact absurd hp hphase
  | _ => exact ⟨rfl, rfl⟩

omit [Arithmetic α] in
/-- Who waits for a customer is in line, or has one reserved and is about to wake. -/
theorem Placed.in_line {a : Agent α} {p w r : Nat} (h : Placed (some a) p w r)
    (hphase : a.phase = .awaitingChannel) : w + r = 1 ∧ p = r := by
  cases h with
  | waiting hp _ => exact ⟨rfl, rfl⟩
  | woken hp _ => exact ⟨rfl, rfl⟩
  | newSource hp _ => cases hp.symm.trans hphase
  | generating hp _ => cases hp.symm.trans hphase
  | exhausted hp _ => cases hp.symm.trans hphase
  | newServer hp _ => cases hp.symm.trans hphase
  | serving hp _ => cases hp.symm.trans hphase

omit [Arithmetic α] in
theorem Placed.pending_eq {a : Agent α} {p w r : Nat} (h : Placed (some a) p w r)
    (hphase : a.phase = .running ∨ a.phase = .awaitingTimer) : p = 1 := by
  cases h with
  | exhausted hp _ => rcases hphase with hq | hq <;> cases hp.symm.trans hq
  | waiting hp _ => rcases hphase with hq | hq <;> cases hp.symm.trans hq
  | _ => rfl

omit [Arithmetic α] in
theorem Placed.reserved_le {a : Option (Agent α)} {p w r : Nat} (h : Placed a p w r) :
    r ≤ p := by
  cases h with
  | woken _ _ => exact Nat.le_refl 1
  | _ => exact Nat.zero_le _

def Agent.Usable : Agent α → Prop
  | .source s => isRate s.rate = true
  | .server s => isRate s.rate = true

/-- Every agent has its place, on a floor that is in order. -/
structure Network.Settled (n : Network α) : Prop where
  timely : n.floor.Timely
  placed : ∀ id : AgentId, Placed n.agents[id.index]? (n.floor.pendingOf id)
    (n.floor.waitingOf id) (n.floor.reservedOf id)
  usable : ∀ a ∈ n.agents, a.Usable

/-- An agent takes its turn, and all others have their places. -/
structure Fits (agents : List (Agent α)) (id : AgentId) (f : Floor α) (p w r : Nat) : Prop where
  timely : f.Timely
  others : ∀ j, j ≠ id → Placed agents[j.index]? (f.pendingOf j) (f.waitingOf j) (f.reservedOf j)
  pending_eq : f.pendingOf id = p
  waiting_eq : f.waitingOf id = w
  reserved_eq : f.reservedOf id = r

namespace Fits

variable [LawfulTime α] {agents : List (Agent α)} {id : AgentId} {f : Floor α} {p w r : Nat}

theorem schedule (h : Fits agents id f p w r) {x : α} {e : Event α} {t : Scheduler α}
    (ht : f.scheduler.schedule id x = .ok (e, t)) :
    Fits agents id { f with scheduler := t } (p + 1) w r := by
  obtain ⟨-, -, ha⟩ := Scheduler.schedule_eq_ok_iff.mp ht
  refine ⟨h.timely.schedule ht, ?_, ?_, h.waiting_eq, h.reserved_eq⟩
  · intro j hj
    show Placed _ (t.pending.countP _) _ _
    rw [ha.countP_pending j, if_neg hj.symm, Nat.add_zero]
    exact h.others j hj
  · show t.pending.countP _ = _
    rw [ha.countP_pending id, if_pos rfl]
    exact congrArg Nat.succ h.pending_eq

/-- A server that is woken moves to another place, which is not that of the agent. -/
theorem send (h : Fits agents id f p 0 r) {c : Customer α} {f' : Floor α}
    (hs : f.Sent c f') : Fits agents id f' p 0 r := by
  have htimely := h.timely.sent hs
  cases hs with
  | stored hw => exact ⟨htimely, h.others, h.pending_eq, h.waiting_eq, h.reserved_eq⟩
  | @handed v ws e t hw ha =>
      have hreserved : ∀ j, (f.channel.reserved ++ [(v, c)]).countP (fun x => decide (x.1 = j)) =
          f.reservedOf j + if v = j then 1 else 0 := by
        intro j
        rw [List.countP_append, Floor.reservedOf, List.countP_singleton]
        simp only [decide_eq_true_eq]
      -- the agent itself is not in line, so it is another one that is woken
      have hv : v ≠ id := by
        intro heq
        have := Floor.waitingOf_of_cons hw id
        rw [if_pos heq, h.waiting_eq] at this
        omega
      refine ⟨htimely, ?_, ?_, ?_, ?_⟩
      · intro j hj
        have hplaced := h.others j hj
        show Placed _ (t.pending.countP _) (ws.count j) (List.countP _ _)
        rw [ha.countP_pending j, hreserved j]
        rw [Floor.waitingOf_of_cons hw j] at hplaced
        by_cases hvj : v = j
        · rw [if_pos hvj] at hplaced ⊢
          exact hplaced.wake
        · rw [if_neg hvj] at hplaced ⊢
          exact hplaced
      · show t.pending.countP _ = _
        rw [ha.countP_pending id, if_neg hv]
        exact h.pending_eq
      · show ws.count id = 0
        have := Floor.waitingOf_of_cons hw id
        rw [if_neg hv, h.waiting_eq] at this
        exact this.symm
      · show List.countP _ _ = _
        rw [hreserved id, if_neg hv]
        exact h.reserved_eq

omit [LawfulTime α] in
theorem take (h : Fits agents id f p 0 r) {c : Customer α} {channel : Channel (Customer α)}
    (hr : f.channel.Received id (some c) channel) :
    Fits agents id { f with channel } p 0 r := by
  have htimely := h.timely.move hr.moves
  cases hr with
  | taken _ => exact ⟨htimely, h.others, h.pending_eq, h.waiting_eq, h.reserved_eq⟩

omit [LawfulTime α] in
theorem wait (h : Fits agents id f p 0 r) {channel : Channel (Customer α)}
    (hr : f.channel.Received id none channel) : Fits agents id { f with channel } p 1 r := by
  have hnot : id ∉ f.channel.waiters := List.count_eq_zero.mp h.waiting_eq
  have htimely := h.timely.move hr.moves
  cases hr with
  | known hempty hmem => exact absurd hmem hnot
  | registered hempty hmem =>
      have hcount : ∀ j, List.count j (f.channel.waiters ++ [id]) =
          f.waitingOf j + if id = j then 1 else 0 := by
        intro j
        rw [List.count_append, List.count_singleton]
        simp only [beq_iff_eq]
        rfl
      refine ⟨htimely, ?_, h.pending_eq, ?_, h.reserved_eq⟩
      · intro j hj
        show Placed _ _ (List.count j _) _
        rw [hcount j, if_neg hj.symm]
        exact h.others j hj
      · show List.count id _ = 1
        rw [hcount id, if_pos rfl, h.waiting_eq]

omit [LawfulTime α] in
theorem collect (h : Fits agents id f p w (r + 1)) {c : Customer α}
    {channel : Channel (Customer α)} (hr : f.channel.Collected id (some c) channel) :
    Fits agents id { f with channel } p w r := by
  have htimely := h.timely.move hr.moves
  cases hr with
  | @oldest pre post c hsplit hpre =>
      have hcount : ∀ j, f.reservedOf j = List.countP (fun x => decide (x.1 = j)) (pre ++ post) +
          if id = j then 1 else 0 := by
        intro j
        rw [Floor.reservedOf, hsplit, List.countP_append, List.countP_cons, List.countP_append,
          Nat.add_assoc]
        simp only [decide_eq_true_eq]
      refine ⟨htimely, ?_, h.pending_eq, h.waiting_eq, ?_⟩
      · intro j hj
        have hplaced := h.others j hj
        rw [hcount j, if_neg hj.symm] at hplaced
        exact hplaced
      · have heq := hcount id
        rw [if_pos rfl, h.reserved_eq] at heq
        exact (Nat.succ.inj heq).symm

omit [LawfulTime α] in
theorem complete (h : Fits agents id f p w r) (c : Customer α) :
    Fits agents id (f.complete c) p w r :=
  ⟨⟨h.timely.orderly, h.timely.now_time, h.timely.time, h.timely.apart⟩, h.others,
    h.pending_eq, h.waiting_eq, h.reserved_eq⟩

end Fits

/-- The turn of an agent begins when its wake-up is dispatched. -/
theorem Network.Settled.dispatch [LawfulTime α] {n : Network α} (hn : n.Settled) {e : Event α}
    {t : Scheduler α} (hd : n.floor.scheduler.Dispatched e t) :
    ∃ p w r, Placed n.agents[e.agent.index]? (p + 1) w r ∧
      Fits n.agents e.agent { n.floor with scheduler := t } p w r := by
  have hcount : ∀ j, n.floor.pendingOf j =
      t.pending.countP (·.agent = j) + if e.agent = j then 1 else 0 := hd.countP_pending
  have hplaced := hn.placed e.agent
  rw [hcount, if_pos rfl] at hplaced
  refine ⟨_, _, _, hplaced, hn.timely.dispatched hd, ?_, rfl, rfl, rfl⟩
  intro j hj
  have hother := hn.placed j
  rw [hcount, if_neg hj.symm] at hother
  exact hother

/-! ## Turns -/

/-- The turn of an agent is over, and the agent has a place again. -/
def Seated (agents : List (Agent α)) (id : AgentId) (f : Floor α) (a : Agent α) : Prop :=
  ∃ p w r, Fits agents id f p w r ∧ Placed (some a) p w r

section Turns

variable [LawfulTime α] {agents : List (Agent α)} {id : AgentId} {f f' : Floor α}

theorem Source.Awaited.seated {s s' : Source α} (h : s.Awaited id f s' f')
    (hf : Fits agents id f 0 0 0) (hg : s.generated ≤ s.limit) :
    Seated agents id f' (.source s') := by
  cases h with
  | finished h => exact ⟨0, 0, 0, hf, .exhausted rfl (Nat.le_antisymm hg h)⟩
  | timed h hx ht => exact ⟨1, 0, 0, hf.schedule ht, .generating rfl h⟩

theorem Source.Resumed.seated {s s' : Source α} (h : s.Resumed id f s' f') {p w r : Nat}
    (hp : Placed (some (.source s)) (p + 1) w r) (hf : Fits agents id f p w r) :
    Seated agents id f' (.source s') := by
  cases h with
  | started hrun h =>
      cases hp with
      | newSource _ hg => exact h.seated hf (by omega)
      | generating htimer _ => cases hrun.symm.trans htimer
  | arrived htimer hs h =>
      cases hp with
      | newSource hrun _ => cases hrun.symm.trans htimer
      | generating _ hg => exact h.seated (hf.send hs) hg

theorem Server.Served.seated {s s' : Server α} {c : Customer α} (h : s.Served id c f s' f')
    (hf : Fits agents id f 0 0 0) : Seated agents id f' (.server s') := by
  cases h with
  | timed hx ht => exact ⟨1, 0, 0, hf.schedule ht, .serving rfl rfl⟩

theorem Server.Fetched.seated {s s' : Server α} (h : s.Fetched id f s' f')
    (hf : Fits agents id f 0 0 0) (hc : s.inService = none) :
    Seated agents id f' (.server s') := by
  cases h with
  | found hr h => exact h.seated (hf.take hr)
  | empty hr => exact ⟨0, 1, 0, hf.wait hr, .waiting rfl hc⟩

theorem Server.Resumed.seated {s s' : Server α} (h : s.Resumed id f s' f') {p w r : Nat}
    (hp : Placed (some (.server s)) (p + 1) w r) (hf : Fits agents id f p w r) :
    Seated agents id f' (.server s') := by
  cases h with
  | started hrun h =>
      cases hp with
      | newServer _ hc => exact h.seated hf hc
      | serving htimer _ => cases hrun.symm.trans htimer
      | woken hwait _ => cases hrun.symm.trans hwait
  | finished htimer hc h =>
      cases hp with
      | newServer hrun _ => cases hrun.symm.trans htimer
      | serving _ _ => exact h.seated (hf.complete _) rfl
      | woken hwait _ => cases htimer.symm.trans hwait
  | woken hwait hr h =>
      cases hp with
      | newServer hrun _ => cases hrun.symm.trans hwait
      | serving htimer _ => cases htimer.symm.trans hwait
      | woken _ _ => exact h.seated (hf.collect hr)

end Turns

end Queueing
