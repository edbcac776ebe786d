import Mathlib.Data.List.Nodup
import Mathlib.Data.List.Range
import Mathlib.Logic.Relation
import Queueing.Proofs.Run
import Queueing.Proofs.Scheduler.Orderly
import Queueing.Simulation.Script

/-!
# Histories of a scheduler

A *ledger* is a scheduler together with the events that it accepted and dispatched so far.
Requests and dispatches are the moves of a ledger. A run, whatever its callback does and
wherever it is aborted, is a sequence of moves (`run_ran`), so the ledgers that moves
reach are all the points of all histories, those inside a run included. The main statement
is `history_sound`: at each of them nothing is lost, nothing is dispatched twice, and events
leave in their order with times that never decrease.
-/

namespace Queueing

variable {α : Type} [Arithmetic α]

/-- A scheduler and its history: the events that it accepted and those that it dispatched,
the earliest first. -/
structure Ledger (α : Type) where
  scheduler : Scheduler α
  accepted : List (Event α)
  dispatched : List (Event α)

namespace Ledger

def fresh : Ledger α := ⟨Scheduler.empty, [], []⟩

/-- One call on a scheduler. A refused request leaves no trace, and neither does asking an
idle scheduler for an event. -/
inductive Move : Ledger α → Ledger α → Prop where
  | schedule {l : Ledger α} (agent : AgentId) (delay : α) {e : Event α} {s : Scheduler α}
      (h : l.scheduler.schedule agent delay = .ok (e, s)) :
      Move l ⟨s, l.accepted ++ [e], l.dispatched⟩
  | scheduleAt {l : Ledger α} (agent : AgentId) (time : α) {e : Event α} {s : Scheduler α}
      (h : l.scheduler.scheduleAt agent time = .ok (e, s)) :
      Move l ⟨s, l.accepted ++ [e], l.dispatched⟩
  | refused {l : Ledger α} {agent : AgentId} {delay : α} {cause : SimulationError α}
      (h : l.scheduler.schedule agent delay = .error cause) : Move l l
  | refusedAt {l : Ledger α} {agent : AgentId} {time : α} {cause : SimulationError α}
      (h : l.scheduler.scheduleAt agent time = .error cause) : Move l l
  | next {l : Ledger α} {e : Event α} {s : Scheduler α}
      (h : l.scheduler.next = .ok (some (e, s))) :
      Move l ⟨s, l.accepted, l.dispatched ++ [e]⟩
  | idle {l : Ledger α} (h : l.scheduler.next = .ok none) : Move l l

/-- Any number of calls, in any order. -/
abbrev Reaches : Ledger α → Ledger α → Prop := Relation.ReflTransGen Move

/-! ## What holds at every point -/

/-- The account of a ledger. -/
structure Sound (l : Ledger α) : Prop where
  /-- Taking the next event never fails. -/
  next_ok : ∀ cause, l.scheduler.next ≠ .error cause
  times_le : l.dispatched.Pairwise fun a b => a.time ≤ b.time
  /-- The clock shows the time of the last dispatched event, zero before the first. -/
  now_eq : l.scheduler.now = (l.dispatched.getLast?.map Event.time).getD 0
  now_finite : Arithmetic.isFinite l.scheduler.now = true
  now_nonneg : 0 ≤ l.scheduler.now
  /-- Nothing is lost and nothing is dispatched twice. -/
  conserved : l.accepted.Perm (l.dispatched ++ l.scheduler.pending)
  /-- Accepted events are numbered from zero, so a refused request takes no number. -/
  numbered : l.accepted.map Event.seq = List.range l.accepted.length
  nextSeq_eq : l.scheduler.nextSeq = l.accepted.length
  dispatched_eq : l.scheduler.dispatched = l.dispatched.length
  isIdle_iff : l.scheduler.isIdle = true ↔ l.accepted.Perm l.dispatched
  /-- The event that is dispatched next is the least of those pending. -/
  least : ∀ e s, l.scheduler.next = .ok (some (e, s)) →
    l.scheduler.pending = e :: s.pending ∧ (∀ x ∈ s.pending, e.precedes x = true) ∧
      s.now = e.time ∧ l.scheduler.now ≤ e.time
  peekTime_eq : ∀ t, l.scheduler.peekTime? = some t ↔
    ∃ e s, l.scheduler.next = .ok (some (e, s)) ∧ e.time = t
  schedule_iff : ∀ agent delay, (∃ e s, l.scheduler.schedule agent delay = .ok (e, s)) ↔
    Arithmetic.isFinite delay = true ∧ 0 ≤ delay ∧
      Arithmetic.isFinite (l.scheduler.now + delay) = true
  scheduleAt_iff : ∀ agent time, (∃ e s, l.scheduler.scheduleAt agent time = .ok (e, s)) ↔
    Arithmetic.isFinite time = true ∧ l.scheduler.now ≤ time
  /-- An accepted wake-up is added to those pending, and nothing else changes. -/
  schedule_eq : ∀ agent delay e s, l.scheduler.schedule agent delay = .ok (e, s) →
    l.scheduler.Accepted agent (l.scheduler.now + delay) e s
  scheduleAt_eq : ∀ agent time e s, l.scheduler.scheduleAt agent time = .ok (e, s) →
    l.scheduler.Accepted agent time e s

/-- What carries the account through a history. -/
structure Balanced (l : Ledger α) : Prop where
  orderly : l.scheduler.Orderly
  times_le : l.dispatched.Pairwise fun a b => a.time ≤ b.time
  le_now : ∀ e ∈ l.dispatched, e.time ≤ l.scheduler.now
  now_eq : l.scheduler.now = (l.dispatched.getLast?.map Event.time).getD 0
  conserved : l.accepted.Perm (l.dispatched ++ l.scheduler.pending)
  numbered : l.accepted.map Event.seq = List.range l.accepted.length
  nextSeq_eq : l.scheduler.nextSeq = l.accepted.length
  dispatched_eq : l.scheduler.dispatched = l.dispatched.length

theorem fresh_balanced [LawfulTime α] : (fresh : Ledger α).Balanced where
  orderly := Scheduler.empty_orderly
  times_le := List.Pairwise.nil
  le_now := by simp [fresh]
  now_eq := rfl
  conserved := .refl _
  numbered := rfl
  nextSeq_eq := rfl
  dispatched_eq := rfl

theorem Balanced.accept [LawfulTime α] {l : Ledger α} (hl : l.Balanced) {agent : AgentId}
    {time : α} {e : Event α} {s : Scheduler α} (h : l.scheduler.Accepted agent time e s) :
    (Ledger.mk s (l.accepted ++ [e]) l.dispatched).Balanced := by
  have hs := h.orderly hl.orderly
  obtain ⟨rfl, rfl, -, -⟩ := h
  refine ⟨hs, hl.times_le, hl.le_now, hl.now_eq, ?_, ?_, ?_, hl.dispatched_eq⟩
  · refine List.perm_append_singleton _ _ |>.trans ?_
    refine (hl.conserved.cons _).trans (List.perm_middle.symm.trans ?_)
    exact (Event.insert_perm _ _).symm.append_left l.dispatched
  · rw [List.map_append, hl.numbered, List.length_append, List.length_singleton,
      List.range_succ, ← hl.nextSeq_eq]
    rfl
  · simp [hl.nextSeq_eq]

theorem Balanced.dispatch [LawfulTime α] {l : Ledger α} (hl : l.Balanced) {e : Event α}
    {s : Scheduler α} (h : l.scheduler.Dispatched e s) :
    (Ledger.mk s l.accepted (l.dispatched ++ [e])).Balanced := by
  have hmem : e ∈ l.scheduler.pending := h.mem_pending.mpr (Or.inl rfl)
  have hle := hl.orderly.now_le e hmem
  refine ⟨h.orderly hl.orderly, ?_, ?_, ?_, ?_, hl.numbered, ?_, ?_⟩
  · -- the clock is not behind any event that was dispatched, nor ahead of any that is pending
    refine List.pairwise_append.mpr ⟨hl.times_le, List.pairwise_singleton _ _, ?_⟩
    intro a ha b hb
    rw [List.mem_singleton.mp hb]
    exact LawfulTime.le_trans (hl.le_now a ha) hle
  · intro a ha
    show a.time ≤ s.now
    rw [h.now]
    rcases List.mem_append.mp ha with ha | ha
    · exact LawfulTime.le_trans (hl.le_now a ha) hle
    · rw [List.mem_singleton.mp ha]
      exact LawfulTime.le_refl (hl.orderly.time_finite e hmem)
  · simpa using h.now
  · rw [List.append_assoc, List.singleton_append, ← h.pending]
    exact hl.conserved
  · rw [h.nextSeq, hl.nextSeq_eq]
  · rw [h.dispatched, hl.dispatched_eq, List.length_append, List.length_singleton]

theorem Balanced.move [LawfulTime α] {l l' : Ledger α} (hl : l.Balanced) (h : Move l l') :
    l'.Balanced := by
  cases h with
  | schedule _ _ h => exact hl.accept (Scheduler.schedule_eq_ok_iff.mp h).2.2
  | scheduleAt _ _ h => exact hl.accept (Scheduler.scheduleAt_eq_ok_iff.mp h)
  | refused _ => exact hl
  | refusedAt _ => exact hl
  | next h => exact hl.dispatch (Scheduler.dispatched_of_next hl.orderly h)
  | idle _ => exact hl

theorem Balanced.reaches [LawfulTime α] {l l' : Ledger α} (hl : l.Balanced)
    (h : Reaches l l') : l'.Balanced := by
  induction h with
  | refl => exact hl
  | tail _ hmove ih => exact ih.move hmove

theorem Balanced.sound [LawfulTime α] {l : Ledger α} (hl : l.Balanced) : l.Sound where
  next_ok cause h := by
    rcases Scheduler.next_cases hl.orderly with ⟨-, hn⟩ | ⟨e, s, hn, -⟩
    · cases hn.symm.trans h
    · cases hn.symm.trans h
  times_le := hl.times_le
  now_eq := hl.now_eq
  now_finite := hl.orderly.now_finite
  now_nonneg := hl.orderly.now_nonneg
  conserved := hl.conserved
  numbered := hl.numbered
  nextSeq_eq := hl.nextSeq_eq
  dispatched_eq := hl.dispatched_eq
  isIdle_iff := by
    rw [Scheduler.isIdle, List.isEmpty_iff]
    constructor
    · intro h
      have := hl.conserved
      rwa [h, List.append_nil] at this
    · intro h
      have := (h.symm.trans hl.conserved).length_eq
      rw [List.length_append] at this
      exact List.length_eq_zero_iff.mp (by omega)
  least e s h := by
    have hd := Scheduler.dispatched_of_next hl.orderly h
    exact ⟨hd.pending, hd.precedes hl.orderly, hd.now,
      hl.orderly.now_le e (hd.mem_pending.mpr (Or.inl rfl))⟩
  peekTime_eq t := by
    rcases Scheduler.next_cases hl.orderly with ⟨hp, hn⟩ | ⟨e, s, hn, hd⟩
    · simp [Scheduler.peekTime?, hp, hn]
    · simp [Scheduler.peekTime?, hd.pending, hn]
  schedule_iff _ _ := Scheduler.schedule_accepted_iff hl.orderly
  scheduleAt_iff _ _ := Scheduler.scheduleAt_accepted_iff
  schedule_eq _ _ _ _ h := (Scheduler.schedule_eq_ok_iff.mp h).2.2
  scheduleAt_eq _ _ _ _ h := Scheduler.scheduleAt_eq_ok_iff.mp h

/-! ## Runs -/

/-- Requests made one after the other, refused ones left out. -/
inductive Requests : Scheduler α → List (Event α) → Scheduler α → Prop where
  | done {s : Scheduler α} : Requests s [] s
  | schedule {s s' t : Scheduler α} {agent : AgentId} {delay : α} {e : Event α}
      {es : List (Event α)} (h : s.schedule agent delay = .ok (e, s'))
      (rest : Requests s' es t) : Requests s (e :: es) t
  | scheduleAt {s s' t : Scheduler α} {agent : AgentId} {time : α} {e : Event α}
      {es : List (Event α)} (h : s.scheduleAt agent time = .ok (e, s'))
      (rest : Requests s' es t) : Requests s (e :: es) t

theorem reaches_of_requests {s t : Scheduler α} {es : List (Event α)} (h : Requests s es t)
    (accepted dispatched : List (Event α)) :
    Reaches ⟨s, accepted, dispatched⟩ ⟨t, accepted ++ es, dispatched⟩ := by
  induction h generalizing accepted with
  | done => rw [List.append_nil]
  | @schedule s s' t agent delay e es h rest ih =>
      rw [← List.singleton_append, ← List.append_assoc]
      exact .head (Move.schedule (l := ⟨s, accepted, dispatched⟩) _ _ h) (ih _)
  | @scheduleAt s s' t agent time e es h rest ih =>
      rw [← List.singleton_append, ← List.append_assoc]
      exact .head (Move.scheduleAt (l := ⟨s, accepted, dispatched⟩) _ _ h) (ih _)

theorem Requests.trans {s t u : Scheduler α} {es fs : List (Event α)} (h : Requests s es t)
    (h' : Requests t fs u) : Requests s (es ++ fs) u := by
  induction h with
  | done => exact h'
  | schedule h _ ih => exact .schedule h (ih h')
  | scheduleAt h _ ih => exact .scheduleAt h (ih h')

theorem Requests.length_pending {s t : Scheduler α} {es : List (Event α)}
    (h : Requests s es t) : t.pending.length = s.pending.length + es.length := by
  induction h with
  | done => rfl
  | schedule h _ ih =>
      rw [ih, (Scheduler.schedule_eq_ok_iff.mp h).2.2.length_pending, List.length_cons]
      omega
  | scheduleAt h _ ih =>
      rw [ih, (Scheduler.scheduleAt_eq_ok_iff.mp h).length_pending, List.length_cons]
      omega

theorem Requests.orderly [LawfulTime α] {s t : Scheduler α} {es : List (Event α)}
    (h : Requests s es t) (hs : s.Orderly) : t.Orderly := by
  induction h with
  | done => exact hs
  | schedule h _ ih => exact ih ((Scheduler.schedule_eq_ok_iff.mp h).2.2.orderly hs)
  | scheduleAt h _ ih => exact ih ((Scheduler.scheduleAt_eq_ok_iff.mp h).orderly hs)

/-- A system that runs a scheduler: each of its steps takes the next event, and what it does
with the event touches the scheduler by requests only. The callback of the run is anything
else that happens in a step: it may keep a state of its own, and fail after any request. -/
structure Serves {σ ε : Type} (view : σ → Scheduler α) (step : σ → Step α σ ε) : Prop where
  rest : ∀ {s}, step s = .rest → (view s).next = .ok none
  moved : ∀ {s e s'}, step s = .moved e s' →
    ∃ t es, (view s).next = .ok (some (e, t)) ∧ Requests t es (view s')
  failed : ∀ {s e cause s'}, step s = .failed (some e) cause s' →
    ∃ t es, (view s).next = .ok (some (e, t)) ∧ Requests t es (view s')
  /-- Without an event in hand, a step fails only if the scheduler does. -/
  broken : ∀ {s cause s'}, step s = .failed none cause s' → ∃ c, (view s).next = .error c

/-- What a run from one ledger to another did. -/
structure Ran {σ ε : Type} (view : σ → Scheduler α) (l : Ledger α) (r : Run α σ ε)
    (l' : Ledger α) : Prop where
  reaches : Reaches l l'
  scheduler : l'.scheduler = view r.state
  dispatched : l'.dispatched = l.dispatched ++ r.events
  idle : r.ending = .rested → l'.scheduler.isIdle = true

section Runs

variable {σ ε : Type} {view : σ → Scheduler α} {step : σ → Step α σ ε}

theorem reaches_of_dispatch {s t t' : Scheduler α} {e : Event α} {es : List (Event α)}
    {l : Ledger α} (hl : l.scheduler = s) (hnext : s.next = .ok (some (e, t)))
    (hreq : Requests t es t') :
    Reaches l ⟨t', l.accepted ++ es, l.dispatched ++ [e]⟩ := by
  subst hl
  exact .head (Move.next hnext) (reaches_of_requests hreq _ _)

theorem reaches_of_steps (hserves : Serves view step) {s t : σ} {es : List (Event α)}
    (h : Steps step s es t) : ∀ {l : Ledger α}, l.scheduler = view s →
    ∃ l', Reaches l l' ∧ l'.scheduler = view t ∧ l'.dispatched = l.dispatched ++ es := by
  induction h with
  | refl =>
      intro l hl
      exact ⟨l, .refl, hl, (List.append_nil _).symm⟩
  | @head s t u e es hstep _ ih =>
      intro l hl
      obtain ⟨t', fs, hnext, hreq⟩ := hserves.moved hstep
      obtain ⟨l', hl', hview, hd⟩ := ih (l := ⟨view t, l.accepted ++ fs, l.dispatched ++ [e]⟩) rfl
      refine ⟨l', (reaches_of_dispatch hl hnext hreq).trans hl', hview, ?_⟩
      rw [hd, List.append_assoc, List.singleton_append]

/-- **A run is a history**, whatever its callback does and wherever it is aborted. -/
theorem run_ran [LawfulTime α] (hserves : Serves view step) {l : Ledger α} (hl : l.Balanced)
    {s : σ} (hs : view s = l.scheduler) (bound : Nat) :
    ∃ l', Ran view l (Run.of step bound s) l' := by
  have h := Run.go_ended step bound [] s
  rw [Run.of]
  generalize Run.go step bound [] s = r at h ⊢
  cases h with
  | @rested t es steps h =>
      obtain ⟨l', hl', hview, hd⟩ := reaches_of_steps hserves steps hs.symm
      refine ⟨l', hl', hview, by simpa [Run.events] using hd, ?_⟩
      intro _
      have hnext := hserves.rest h
      rw [← hview] at hnext
      rw [Scheduler.isIdle, Scheduler.pending_of_next (hl.reaches hl').orderly hnext]
      rfl
  | @failed t u es e cause steps h =>
      obtain ⟨l', hl', hview, hd⟩ := reaches_of_steps hserves steps hs.symm
      cases e with
      | none =>
          -- the scheduler cannot be the one that failed
          obtain ⟨c, hnext⟩ := hserves.broken h
          rw [← hview] at hnext
          exact absurd hnext ((hl.reaches hl').sound.next_ok c)
      | some e =>
          obtain ⟨t', fs, hnext, hreq⟩ := hserves.failed h
          refine ⟨_, hl'.trans (reaches_of_dispatch hview hnext hreq), rfl, ?_, ?_⟩
          · simp [Run.events, hd]
          · intro hend
            cases hend
  | @unfinished t u es e steps h hbound =>
      obtain ⟨l', hl', hview, hd⟩ := reaches_of_steps hserves steps hs.symm
      refine ⟨l', hl', hview, by simpa [Run.events] using hd, ?_⟩
      intro hend
      cases hend

end Runs

/-! ## Scripts -/

theorem requests_of_perform {a : Action α} {s t : Scheduler α} (h : s.perform a = .ok t) :
    ∃ e, Requests s [e] t := by
  cases a with
  | schedule agent delay =>
      rw [Scheduler.perform] at h
      cases hs : s.schedule agent delay with
      | error c =>
          rw [hs] at h
          cases h
      | ok r =>
          rw [hs] at h
          cases h
          exact ⟨r.1, .schedule hs .done⟩
  | scheduleAt agent time =>
      rw [Scheduler.perform] at h
      cases hs : s.scheduleAt agent time with
      | error c =>
          rw [hs] at h
          cases h
      | ok r =>
          rw [hs] at h
          cases h
          exact ⟨r.1, .scheduleAt hs .done⟩
  | fail detail => cases h

theorem requests_of_performAll : ∀ {actions : List (Action α)} {s t : Scheduler α}
    {cause : Option (SimulationError α)}, Scheduler.performAll actions s = (t, cause) →
    ∃ es, Requests s es t ∧ es.length ≤ actions.length
  | [], s, t, cause, h => by
      rw [Scheduler.performAll] at h
      cases h
      exact ⟨[], .done, Nat.le_refl _⟩
  | a :: rest, s, t, cause, h => by
      rw [Scheduler.performAll] at h
      cases hp : s.perform a with
      | error c =>
          rw [hp] at h
          cases h
          exact ⟨[], .done, Nat.zero_le _⟩
      | ok s' =>
          rw [hp] at h
          obtain ⟨e, hone⟩ := requests_of_perform hp
          obtain ⟨es, hreq, hlen⟩ := requests_of_performAll h
          exact ⟨e :: es, hone.trans hreq, Nat.succ_le_succ hlen⟩

theorem scriptStep_moved {s : Scheduler α} {script : Script α} {e : Event α}
    {t : Scheduler α × Script α} (h : Scheduler.scriptStep (s, script) = .moved e t) :
    ∃ s' es, s.next = .ok (some (e, s')) ∧ Requests s' es t.1 ∧
      es.length ≤ (script.headD []).length ∧ t.2 = script.tail := by
  simp only [Scheduler.scriptStep] at h
  split at h
  · cases h
  · cases h
  · next e' s' hnext =>
    split at h
    · cases h
    · next t' hperform =>
      cases h
      obtain ⟨es, hreq, hlen⟩ := requests_of_performAll hperform
      exact ⟨s', es, hnext, hreq, hlen, rfl⟩

theorem scriptStep_serves : Serves (α := α) Prod.fst Scheduler.scriptStep where
  rest {s} h := by
    simp only [Scheduler.scriptStep] at h
    split at h
    · cases h
    · assumption
    · split at h <;> cases h
  moved {s e s'} h := by
    obtain ⟨t, es, hnext, hreq, -⟩ := scriptStep_moved h
    exact ⟨t, es, hnext, hreq⟩
  failed {s e cause s'} h := by
    simp only [Scheduler.scriptStep] at h
    split at h
    · cases h
    · cases h
    · next e' t hnext =>
      split at h
      · next t' c hperform =>
        cases h
        obtain ⟨es, hreq, -⟩ := requests_of_performAll hperform
        exact ⟨t, es, hnext, hreq⟩
      · cases h
  broken {s cause s'} h := by
    simp only [Scheduler.scriptStep] at h
    split at h
    · next c hnext => exact ⟨c, hnext⟩
    · cases h
    · split at h <;> cases h

/-- The bound of a scripted run is enough: a step takes one event and puts at most as many as
the script says for it. -/
theorem runScript_finished [LawfulTime α] {s : Scheduler α} (hs : s.Orderly)
    (script : Script α) : (s.runScript script).ending ≠ .unfinished := by
  refine Run.of_finished (P := fun st : Scheduler α × Script α => st.1.Orderly)
    (w := fun st => st.1.pending.length + st.2.flatten.length) ?_ hs (Nat.le_refl _)
  rintro ⟨s, script⟩ e ⟨t, script'⟩ hs h
  obtain ⟨s', es, hnext, hreq, hlen, rfl⟩ := scriptStep_moved h
  -- one event is taken, and the requests are not more than the actions that the script loses
  have hd := Scheduler.dispatched_of_next hs hnext
  refine ⟨hreq.orderly (hd.orderly hs), ?_⟩
  have hflat : script.flatten.length = (script.headD []).length + script.tail.flatten.length := by
    cases script <;> simp
  have hs' : s.pending.length = s'.pending.length + 1 := by rw [hd.pending, List.length_cons]
  have ht : t.pending.length = s'.pending.length + es.length := hreq.length_pending
  show t.pending.length + script.tail.flatten.length < s.pending.length + script.flatten.length
  omega

/-! ## Every history -/

/-- **Histories are sound.** After any calls on a fresh scheduler the account holds, whatever
numbers were passed. Any run from there, under a callback that may make any requests and fail
at any event, is a history in turn, so that the account also holds inside it, after it was
aborted, and when the run is taken up again. Scripts are such callbacks, and their runs end. -/
theorem history_sound {l : Ledger Binary64} (h : Reaches fresh l) : l.Sound ∧
    (∀ (σ ε : Type) (view : σ → Scheduler Binary64) (step : σ → Step Binary64 σ ε),
      Serves view step → ∀ (bound : Nat) (s : σ), view s = l.scheduler →
        ∃ l', Ran view l (Run.of step bound s) l') ∧
    ∀ script : Script Binary64, (∃ l', Ran Prod.fst l (l.scheduler.runScript script) l') ∧
      (l.scheduler.runScript script).ending ≠ .unfinished := by
  have hl := fresh_balanced.reaches h
  refine ⟨hl.sound, ?_, ?_⟩
  · intro σ ε view step hserves bound s hs
    exact run_ran hserves hl hs bound
  · intro script
    exact ⟨run_ran scriptStep_serves hl rfl _, runScript_finished hl.orderly script⟩

/-- Two wake-ups at time zero. The second was asked for at the zero with a sign, which the
queue puts in front of the first and the clock takes for the present. -/
def signedZero : Ledger Binary64 where
  scheduler := ⟨⟨-0, 0⟩, [⟨0, 0, ⟨0⟩⟩], 2, 1⟩
  accepted := [⟨0, 0, ⟨0⟩⟩, ⟨-0, 1, ⟨1⟩⟩]
  dispatched := [⟨-0, 1, ⟨1⟩⟩]

theorem history_sound_signedZero : Reaches fresh signedZero ∧ signedZero.Sound := by
  have h : Reaches fresh signedZero := by
    refine .head (.schedule ⟨0⟩ 0 rfl) ?_
    refine .head (.scheduleAt ⟨1⟩ (-0) rfl) ?_
    exact .head (.next rfl) .refl
  exact ⟨h, (history_sound h).1⟩

end Ledger

end Queueing
