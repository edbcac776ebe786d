import Queueing.Proofs.Channel.Basic
import Queueing.Proofs.Scheduler.Orderly
import Queueing.Simulation.Agent

/-!
# What a turn of an agent does

For each kind of agent one relation says what every turn leaves, whatever its result
(`Source.Attempted`, `Server.Attempted`). The one failure that leaves a trace is a wait that is
refused: by then the source has put its customer, or the server has taken one up, and the phase
stays as it was.

Of these turns, another relation says what those do that succeed, and a third one where the
others fail. On a floor whose clock reads a time, and from a phase that the agent can be resumed
in, a turn fails for one reason only: a wait that was drawn is refused as a delay
(`Source.resume_cases`, `Server.resume_cases`).
-/

namespace Queueing

variable {α : Type} [Arithmetic α]

/-! ## The floor -/

namespace Floor

/-- What sending a customer does: it is handed to the server that waits longest, which is
woken at the present time, or stored because none waits. -/
inductive Sent (f : Floor α) (c : Customer α) : Floor α → Prop where
  | handed {w : AgentId} {ws : List AgentId} {e : Event α} {t : Scheduler α}
      (h : f.channel.waiters = w :: ws) (ha : f.scheduler.Accepted w f.now e t) :
      Sent f c { f with
        scheduler := t
        channel := { f.channel with
          waiters := ws, reserved := f.channel.reserved ++ [(w, c)], put := f.channel.put + 1 } }
  | stored (h : f.channel.waiters = []) :
      Sent f c { f with
        channel := { f.channel with
          buffer := f.channel.buffer.push c, put := f.channel.put + 1
          peak := max f.channel.peak (f.channel.buffer.size + 1) } }

/-- **Sending never fails**: a server can always be woken at the present time. -/
theorem send_cases [LawfulTime α] {f : Floor α} (hf : IsTime f.now) (c : Customer α) :
    ∃ f', f.send c = (f', .ok ()) ∧ f.Sent c f' := by
  unfold send
  have hsent := f.channel.send_sent c
  generalize f.channel.send c = r at hsent ⊢
  obtain ⟨woken, channel⟩ := r
  cases hsent with
  | stored hw => exact ⟨_, rfl, .stored hw⟩
  | @handed w ws hw =>
      obtain ⟨e, t, hschedule, ha⟩ := Scheduler.schedule_zero hf w
      refine ⟨_, ?_, .handed hw ha⟩
      simp only [schedule, hschedule]

theorem Sent.frame {f f' : Floor α} {c : Customer α} (h : f.Sent c f') :
    f'.now = f.now ∧ f'.sojourns = f.sojourns := by
  cases h with
  | handed _ ha => exact ⟨ha.now_eq, rfl⟩
  | stored _ => exact ⟨rfl, rfl⟩

theorem Sent.channel {f f' : Floor α} {c : Customer α} (h : f.Sent c f') :
    f.channel.Sent c (f.channel.send c).1 f'.channel := by
  unfold Channel.send
  cases h with
  | handed hw _ =>
      rw [hw]
      exact .handed hw
  | stored hw =>
      rw [hw]
      exact .stored hw

theorem Sent.orderly [LawfulTime α] {f f' : Floor α} {c : Customer α} (h : f.Sent c f')
    (hf : f.scheduler.Orderly) : f'.scheduler.Orderly := by
  cases h with
  | handed hw ha => exact ha.orderly hf
  | stored hw => exact hf

end Floor

theorem Xorshift.exponential_cases {rate : α} (h : isRate rate = true) (g : Xorshift) :
    ∃ x g', g.exponential rate = .ok (x, g') := by
  rw [exponential, if_pos h]
  exact ⟨_, _, rfl⟩

/-! ## Sources -/

namespace Source

/-- What a source leaves that goes on, also when the wait that it draws is refused. -/
inductive Awaits (id : AgentId) (s : Source α) (f : Floor α) : Turn α (Source α) → Prop where
  | finished (h : s.limit ≤ s.generated) :
      Awaits id s f ⟨{ s with phase := .done }, f, .ok .done⟩
  | timed {x : α} {rng : Xorshift} {e : Event α} {t : Scheduler α} (h : s.generated < s.limit)
      (hx : s.rng.exponential s.rate = .ok (x, rng))
      (ht : f.scheduler.schedule id x = .ok (e, t)) :
      Awaits id s f
        ⟨{ s with rng, phase := .awaitingTimer }, { f with scheduler := t }, .ok .awaitingTimer⟩
  | refused {x delay : α} {rng : Xorshift} (h : s.generated < s.limit)
      (hx : s.rng.exponential s.rate = .ok (x, rng))
      (ht : f.scheduler.schedule id x = .error (.invalidDelay delay)) :
      Awaits id s f ⟨{ s with rng }, f, .error (.error (.invalidDelay delay))⟩

/-- What a turn of a source leaves. -/
inductive Attempted (id : AgentId) (s : Source α) (f : Floor α) : Turn α (Source α) → Prop where
  | started {t : Turn α (Source α)} (hp : s.phase = .running) (h : Awaits id s f t) :
      Attempted id s f t
  | arrived {f₁ : Floor α} {t : Turn α (Source α)} (hp : s.phase = .awaitingTimer)
      (hs : f.Sent ⟨s.generated, f.now⟩ f₁)
      (h : Awaits id { s with generated := s.generated + 1 } f₁ t) : Attempted id s f t
  | unfit {b : Breach} (hrun : s.phase ≠ .running) (htimer : s.phase ≠ .awaitingTimer) :
      Attempted id s f ⟨s, f, .error (.error (.agentInvariant b))⟩

theorem awaitNext_awaits [LawfulTime α] {s : Source α} {f : Floor α}
    (hrate : isRate s.rate = true) (hf : f.scheduler.Orderly) (id : AgentId) :
    s.Awaits id f (s.awaitNext id f) := by
  unfold awaitNext
  split
  · next h => exact .finished h
  · next h =>
    obtain ⟨x, rng, hx⟩ := Xorshift.exponential_cases hrate s.rng
    rw [hx]
    cases ht : f.scheduler.schedule id x with
    | ok r =>
        simp only [Floor.schedule, ht]
        exact .timed (Nat.lt_of_not_le h) hx ht
    | error cause =>
        obtain ⟨delay, rfl⟩ := Scheduler.invalidDelay_of_schedule hf ht
        simp only [Floor.schedule, ht]
        exact .refused (Nat.lt_of_not_le h) hx ht

theorem resume_attempted [LawfulTime α] {s : Source α} {f : Floor α}
    (hrate : isRate s.rate = true) (hf : f.scheduler.Orderly) (hnow : IsTime f.now)
    (id : AgentId) : s.Attempted id f (s.resume id f) := by
  unfold resume
  split
  · next hrun => exact .started hrun (awaitNext_awaits hrate hf id)
  · next htimer =>
    obtain ⟨f₁, hsend, hsent⟩ := Floor.send_cases hnow ⟨s.generated, f.now⟩
    simp only [hsend]
    exact .arrived htimer hsent (awaitNext_awaits (s := { s with generated := s.generated + 1 })
      hrate (hsent.orderly hf) id)
  · next hrun htimer => exact .unfit hrun htimer

/-- What a source does that goes on: it is done, or waits for its next arrival. -/
inductive Awaited (id : AgentId) (s : Source α) (f : Floor α) : Source α → Floor α → Prop where
  | finished (h : s.limit ≤ s.generated) : Awaited id s f { s with phase := .done } f
  | timed {x : α} {rng : Xorshift} {e : Event α} {t : Scheduler α} (h : s.generated < s.limit)
      (hx : s.rng.exponential s.rate = .ok (x, rng))
      (ht : f.scheduler.schedule id x = .ok (e, t)) :
      Awaited id s f { s with rng, phase := .awaitingTimer } { f with scheduler := t }

/-- What a turn of a source does. -/
inductive Resumed (id : AgentId) (s : Source α) (f : Floor α) : Source α → Floor α → Prop where
  | started {s' : Source α} {f' : Floor α} (hp : s.phase = .running)
      (h : Awaited id s f s' f') : Resumed id s f s' f'
  | arrived {s' : Source α} {f₁ f' : Floor α} (hp : s.phase = .awaitingTimer)
      (hs : f.Sent ⟨s.generated, f.now⟩ f₁)
      (h : Awaited id { s with generated := s.generated + 1 } f₁ s' f') : Resumed id s f s' f'

/-- A source that goes on draws a wait that is refused. -/
inductive AwaitFailed (id : AgentId) (s : Source α) (f : Floor α) (delay : α) : Prop where
  | drawn {x : α} {rng : Xorshift} (h : s.generated < s.limit)
      (hx : s.rng.exponential s.rate = .ok (x, rng))
      (ht : f.scheduler.schedule id x = .error (.invalidDelay delay)) : AwaitFailed id s f delay

/-- Where a turn of a source fails. -/
inductive ResumeFailed (id : AgentId) (s : Source α) (f : Floor α) (delay : α) : Prop where
  | started (hp : s.phase = .running) (h : AwaitFailed id s f delay) : ResumeFailed id s f delay
  | arrived {f₁ : Floor α} (hp : s.phase = .awaitingTimer) (hs : f.Sent ⟨s.generated, f.now⟩ f₁)
      (h : AwaitFailed id { s with generated := s.generated + 1 } f₁ delay) :
      ResumeFailed id s f delay

theorem Awaits.cases {id : AgentId} {s : Source α} {f : Floor α} {t : Turn α (Source α)}
    (h : s.Awaits id f t) :
    (∃ s' f', t = ⟨s', f', .ok s'.phase⟩ ∧ Awaited id s f s' f') ∨
      ∃ delay, t.result = .error (.error (.invalidDelay delay)) ∧ AwaitFailed id s f delay := by
  cases h with
  | finished h => exact Or.inl ⟨_, _, rfl, .finished h⟩
  | timed h hx ht => exact Or.inl ⟨_, _, rfl, .timed h hx ht⟩
  | refused h hx ht => exact Or.inr ⟨_, rfl, .drawn h hx ht⟩

/-- **A turn of a source fails only because the wait that was drawn is refused.** -/
theorem resume_cases [LawfulTime α] {s : Source α} {f : Floor α} (hrate : isRate s.rate = true)
    (hp : s.phase = .running ∨ s.phase = .awaitingTimer) (hf : f.scheduler.Orderly)
    (hnow : IsTime f.now) (id : AgentId) :
    (∃ s' f', s.resume id f = ⟨s', f', .ok s'.phase⟩ ∧ Resumed id s f s' f') ∨
      ∃ delay, (s.resume id f).result = .error (.error (.invalidDelay delay)) ∧
        ResumeFailed id s f delay := by
  have h := resume_attempted hrate hf hnow id
  generalize s.resume id f = t at h ⊢
  cases h with
  | started hrun h =>
      rcases h.cases with ⟨s', f', hturn, ha⟩ | ⟨delay, hturn, ha⟩
      · exact Or.inl ⟨s', f', hturn, .started hrun ha⟩
      · exact Or.inr ⟨delay, hturn, .started hrun ha⟩
  | arrived htimer hsent h =>
      rcases h.cases with ⟨s', f', hturn, ha⟩ | ⟨delay, hturn, ha⟩
      · exact Or.inl ⟨s', f', hturn, .arrived htimer hsent ha⟩
      · exact Or.inr ⟨delay, hturn, .arrived htimer hsent ha⟩
  | unfit hrun htimer => exact (hp.elim hrun htimer).elim

end Source

/-! ## Servers -/

namespace Server

/-- A server may be resumed when it has something to go on with. -/
def Resumable (id : AgentId) (s : Server α) (f : Floor α) : Prop :=
  s.phase = .running ∨ (∃ c, s.phase = .awaitingTimer ∧ s.inService = some c) ∨
    ∃ c, s.phase = .awaitingChannel ∧ (id, c) ∈ f.channel.reserved

/-- What a server leaves that takes up a customer, also when the wait that it draws is
refused. -/
inductive Serves (id : AgentId) (c : Customer α) (s : Server α) (f : Floor α) :
    Turn α (Server α) → Prop where
  | timed {x : α} {rng : Xorshift} {e : Event α} {t : Scheduler α}
      (hx : s.rng.exponential s.rate = .ok (x, rng))
      (ht : f.scheduler.schedule id x = .ok (e, t)) :
      Serves id c s f ⟨{ s with rng, inService := some c, phase := .awaitingTimer },
        { f with scheduler := t }, .ok .awaitingTimer⟩
  | refused {x delay : α} {rng : Xorshift} (hx : s.rng.exponential s.rate = .ok (x, rng))
      (ht : f.scheduler.schedule id x = .error (.invalidDelay delay)) :
      Serves id c s f
        ⟨{ s with rng, inService := some c }, f, .error (.error (.invalidDelay delay))⟩

/-- What a server without a customer leaves. -/
inductive Fetches (id : AgentId) (s : Server α) (f : Floor α) : Turn α (Server α) → Prop where
  | found {c : Customer α} {channel : Channel (Customer α)} {t : Turn α (Server α)}
      (hr : f.channel.Received id (some c) channel)
      (h : Serves id c s { f with channel } t) : Fetches id s f t
  | empty {channel : Channel (Customer α)} (hr : f.channel.Received id none channel) :
      Fetches id s f ⟨{ s with phase := .awaitingChannel }, { f with channel },
        .ok .awaitingChannel⟩

/-- What a turn of a server leaves. -/
inductive Attempted (id : AgentId) (s : Server α) (f : Floor α) : Turn α (Server α) → Prop where
  | started {t : Turn α (Server α)} (hp : s.phase = .running) (h : Fetches id s f t) :
      Attempted id s f t
  | finished {c : Customer α} {t : Turn α (Server α)} (hp : s.phase = .awaitingTimer)
      (hc : s.inService = some c) (h : Fetches id { s with inService := none } (f.complete c) t) :
      Attempted id s f t
  | woken {c : Customer α} {channel : Channel (Customer α)} {t : Turn α (Server α)}
      (hp : s.phase = .awaitingChannel) (hr : f.channel.Collected id (some c) channel)
      (h : Serves id c s { f with channel } t) : Attempted id s f t
  | unfit {b : Breach} (h : ¬ s.Resumable id f) :
      Attempted id s f ⟨s, f, .error (.error (.agentInvariant b))⟩

theorem serve_serves [LawfulTime α] {s : Server α} {f : Floor α} (hrate : isRate s.rate = true)
    (hf : f.scheduler.Orderly) (id : AgentId) (c : Customer α) :
    Serves id c s f (s.serve id c f) := by
  unfold serve
  obtain ⟨x, rng, hx⟩ := Xorshift.exponential_cases hrate s.rng
  rw [hx]
  cases ht : f.scheduler.schedule id x with
  | ok r =>
      simp only [Floor.schedule, ht]
      exact .timed hx ht
  | error cause =>
      obtain ⟨delay, rfl⟩ := Scheduler.invalidDelay_of_schedule hf ht
      simp only [Floor.schedule, ht]
      exact .refused hx ht

theorem fetch_fetches [LawfulTime α] {s : Server α} {f : Floor α}
    (hrate : isRate s.rate = true) (hf : f.scheduler.Orderly) (id : AgentId) :
    s.Fetches id f (s.fetch id f) := by
  unfold fetch Floor.receive
  have hr := f.channel.receive_received id
  generalize f.channel.receive id = r at hr ⊢
  obtain ⟨_ | c, channel⟩ := r
  · exact .empty hr
  · exact .found hr (serve_serves (f := { f with channel }) hrate hf id c)

theorem resume_attempted [LawfulTime α] {s : Server α} {f : Floor α}
    (hrate : isRate s.rate = true) (hf : f.scheduler.Orderly) (id : AgentId) :
    s.Attempted id f (s.resume id f) := by
  unfold resume
  split
  · next hrun => exact .started hrun (fetch_fetches hrate hf id)
  · next htimer =>
    split
    · next hc =>
      refine .unfit ?_
      rintro (hp | ⟨c, -, hc'⟩ | ⟨c, hp, -⟩)
      · cases hp.symm.trans htimer
      · cases hc.symm.trans hc'
      · cases hp.symm.trans htimer
    · next c hc =>
      exact .finished htimer hc
        (fetch_fetches (s := { s with inService := none }) (f := f.complete c) hrate hf id)
  · next hwait =>
    unfold Floor.collect
    have hr := f.channel.collect_collected id
    generalize f.channel.collect id = r at hr ⊢
    obtain ⟨_ | c, channel⟩ := r
    · cases hr with
      | nothing hnone =>
          refine .unfit ?_
          rintro (hp | ⟨c, hp, -⟩ | ⟨c, -, hmem⟩)
          · cases hp.symm.trans hwait
          · cases hp.symm.trans hwait
          · exact hnone _ hmem rfl
    · exact .woken hwait hr (serve_serves (f := { f with channel }) hrate hf id c)
  · next hdone =>
    refine .unfit ?_
    rintro (hp | ⟨c, hp, -⟩ | ⟨c, hp, -⟩) <;> cases hp.symm.trans hdone

/-- A server takes up a customer. -/
inductive Served (id : AgentId) (c : Customer α) (s : Server α) (f : Floor α) :
    Server α → Floor α → Prop where
  | timed {x : α} {rng : Xorshift} {e : Event α} {t : Scheduler α}
      (hx : s.rng.exponential s.rate = .ok (x, rng))
      (ht : f.scheduler.schedule id x = .ok (e, t)) :
      Served id c s f { s with rng, inService := some c, phase := .awaitingTimer }
        { f with scheduler := t }

/-- What a server without a customer does: it takes the oldest one, or waits. -/
inductive Fetched (id : AgentId) (s : Server α) (f : Floor α) : Server α → Floor α → Prop where
  | found {c : Customer α} {channel : Channel (Customer α)} {s' : Server α} {f' : Floor α}
      (hr : f.channel.Received id (some c) channel)
      (h : Served id c s { f with channel } s' f') : Fetched id s f s' f'
  | empty {channel : Channel (Customer α)} (hr : f.channel.Received id none channel) :
      Fetched id s f { s with phase := .awaitingChannel } { f with channel }

/-- What a turn of a server does. -/
inductive Resumed (id : AgentId) (s : Server α) (f : Floor α) : Server α → Floor α → Prop where
  | started {s' : Server α} {f' : Floor α} (hp : s.phase = .running)
      (h : Fetched id s f s' f') : Resumed id s f s' f'
  | finished {c : Customer α} {s' : Server α} {f' : Floor α} (hp : s.phase = .awaitingTimer)
      (hc : s.inService = some c)
      (h : Fetched id { s with inService := none } (f.complete c) s' f') : Resumed id s f s' f'
  | woken {c : Customer α} {channel : Channel (Customer α)} {s' : Server α} {f' : Floor α}
      (hp : s.phase = .awaitingChannel) (hr : f.channel.Collected id (some c) channel)
      (h : Served id c s { f with channel } s' f') : Resumed id s f s' f'

/-- A server that takes up a customer draws a wait that is refused. -/
inductive ServeFailed (id : AgentId) (s : Server α) (f : Floor α) (delay : α) : Prop where
  | drawn {x : α} {rng : Xorshift} (hx : s.rng.exponential s.rate = .ok (x, rng))
      (ht : f.scheduler.schedule id x = .error (.invalidDelay delay)) : ServeFailed id s f delay

/-- A server without a customer fails with the oldest one. -/
inductive FetchFailed (id : AgentId) (s : Server α) (f : Floor α) (delay : α) : Prop where
  | found {c : Customer α} {channel : Channel (Customer α)}
      (hr : f.channel.Received id (some c) channel)
      (h : ServeFailed id s { f with channel } delay) : FetchFailed id s f delay

/-- Where a turn of a server fails. -/
inductive ResumeFailed (id : AgentId) (s : Server α) (f : Floor α) (delay : α) : Prop where
  | started (hp : s.phase = .running) (h : FetchFailed id s f delay) : ResumeFailed id s f delay
  | finished {c : Customer α} (hp : s.phase = .awaitingTimer) (hc : s.inService = some c)
      (h : FetchFailed id { s with inService := none } (f.complete c) delay) :
      ResumeFailed id s f delay
  | woken {c : Customer α} {channel : Channel (Customer α)} (hp : s.phase = .awaitingChannel)
      (hr : f.channel.Collected id (some c) channel)
      (h : ServeFailed id s { f with channel } delay) : ResumeFailed id s f delay

theorem Serves.cases {id : AgentId} {c : Customer α} {s : Server α} {f : Floor α}
    {t : Turn α (Server α)} (h : s.Serves id c f t) :
    (∃ s' f', t = ⟨s', f', .ok s'.phase⟩ ∧ Served id c s f s' f') ∨
      ∃ delay, t.result = .error (.error (.invalidDelay delay)) ∧ ServeFailed id s f delay := by
  cases h with
  | timed hx ht => exact Or.inl ⟨_, _, rfl, .timed hx ht⟩
  | refused hx ht => exact Or.inr ⟨_, rfl, .drawn hx ht⟩

theorem Fetches.cases {id : AgentId} {s : Server α} {f : Floor α} {t : Turn α (Server α)}
    (h : s.Fetches id f t) :
    (∃ s' f', t = ⟨s', f', .ok s'.phase⟩ ∧ Fetched id s f s' f') ∨
      ∃ delay, t.result = .error (.error (.invalidDelay delay)) ∧ FetchFailed id s f delay := by
  cases h with
  | found hr h =>
      rcases h.cases with ⟨s', f', hturn, hs⟩ | ⟨delay, hturn, hs⟩
      · exact Or.inl ⟨s', f', hturn, .found hr hs⟩
      · exact Or.inr ⟨delay, hturn, .found hr hs⟩
  | empty hr => exact Or.inl ⟨_, _, rfl, .empty hr⟩

/-- **A turn of a server fails only because the wait that was drawn is refused.** -/
theorem resume_cases [LawfulTime α] {s : Server α} {f : Floor α} {id : AgentId}
    (hrate : isRate s.rate = true) (hp : Resumable id s f) (hf : f.scheduler.Orderly) :
    (∃ s' f', s.resume id f = ⟨s', f', .ok s'.phase⟩ ∧ Resumed id s f s' f') ∨
      ∃ delay, (s.resume id f).result = .error (.error (.invalidDelay delay)) ∧
        ResumeFailed id s f delay := by
  have h := resume_attempted hrate hf id
  generalize s.resume id f = t at h ⊢
  cases h with
  | started hrun h =>
      rcases h.cases with ⟨s', f', hturn, hs⟩ | ⟨delay, hturn, hs⟩
      · exact Or.inl ⟨s', f', hturn, .started hrun hs⟩
      · exact Or.inr ⟨delay, hturn, .started hrun hs⟩
  | finished htimer hc h =>
      rcases h.cases with ⟨s', f', hturn, hs⟩ | ⟨delay, hturn, hs⟩
      · exact Or.inl ⟨s', f', hturn, .finished htimer hc hs⟩
      · exact Or.inr ⟨delay, hturn, .finished htimer hc hs⟩
  | woken hwait hr h =>
      rcases h.cases with ⟨s', f', hturn, hs⟩ | ⟨delay, hturn, hs⟩
      · exact Or.inl ⟨s', f', hturn, .woken hwait hr hs⟩
      · exact Or.inr ⟨delay, hturn, .woken hwait hr hs⟩
  | unfit hnot => exact absurd hp hnot

end Server

end Queueing
