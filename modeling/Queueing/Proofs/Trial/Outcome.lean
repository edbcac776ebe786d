import Queueing.Proofs.Random.Draws
import Queueing.Proofs.Trial.Refinement

/-!
# How trials end

A trial is refused exactly when its parameters are. One that is not refused comes to rest,
unless the times of its recursion leave the finite numbers: then, and only then, the agent that
would wait until such a time is refused its wait (`runTrial_outcome`). No other failure can
occur, and above all no breach of the engine.
-/

namespace Queueing

variable {α : Type} [Arithmetic α]

/-! ## Refused parameters -/

section Refusals

variable {β γ : Type}

/-- A check that fails only by refusing a parameter. -/
def OnlyRefuses (r : Except (SimulationError α) β) : Prop :=
  ∀ cause, r = .error cause → ∃ name refusal, cause = .invalidParameter name refusal

omit [Arithmetic α] in
theorem OnlyRefuses.bind {r : Except (SimulationError α) β} (h : OnlyRefuses r)
    {f : β → Except (SimulationError α) γ} (hf : ∀ x, OnlyRefuses (f x)) :
    OnlyRefuses (r >>= f) := by
  cases r with
  | error cause =>
      intro cause' herror
      cases herror
      exact h cause rfl
  | ok x => exact hf x

omit [Arithmetic α] in
theorem onlyRefuses_ok (x : β) : OnlyRefuses (.ok x : Except (SimulationError α) β) := by
  intro cause h
  cases h

omit [Arithmetic α] in
theorem onlyRefuses_checkCount (name : String) (count : UInt64) :
    OnlyRefuses (checkCount name count : Except (SimulationError α) Unit) := by
  intro cause h
  rw [checkCount] at h
  split_ifs at h
  cases h
  exact ⟨_, _, rfl⟩

theorem onlyRefuses_checkRate (name : String) (rate : α) : OnlyRefuses (checkRate name rate) := by
  intro cause h
  rw [checkRate] at h
  split_ifs at h
  cases h
  exact ⟨_, _, rfl⟩

theorem TrialConfig.onlyRefuses_validate (c : TrialConfig α) : OnlyRefuses c.validate :=
  (onlyRefuses_checkCount _ _).bind fun _ =>
    (onlyRefuses_checkRate _ _).bind fun _ => onlyRefuses_checkRate _ _

end Refusals

/-! ## Times beyond the finite numbers -/

namespace TrialConfig

variable (top : α) (c : TrialConfig α)

/-- All waits of the recursion are waits that may be asked for. -/
structure Waits : Prop where
  interarrival : ∀ i, IsWait top (c.interarrival i)
  serviceTime : ∀ i, IsWait top (c.serviceTime i)

/-- Some customer arrives or leaves beyond the finite times. -/
def Overflows : Prop := ∃ i ≤ c.customers.toNat, c.arrival i = top ∨ c.departure i = top

variable {top c}

theorem Waits.departure_eq_top (htop : IsOverflow top) (h : c.Waits top) {i : Nat}
    (hi : c.arrival (i + 1) = top ∨ c.departure i = top) : c.departure (i + 1) = top := by
  have hmax : max (c.arrival (i + 1)) (c.departure i) = top := by
    rcases hi with hi | hi
    · rw [hi]
      exact htop.top_max _
    · rw [hi]
      exact htop.max_top _
  rw [departure, hmax]
  exact htop.top_add (h.serviceTime i).finite_or_eq

/-- **If anybody arrives or leaves beyond the finite times, so does the last customer leave.** -/
theorem Waits.departure_of_overflows [LawfulTime α] (htop : IsOverflow top) (h : c.Waits top)
    (hover : c.Overflows top) : c.departure c.customers.toNat = top := by
  have hzero : (0 : α) ≠ top := by
    intro heq
    have := htop.not_finite
    rw [← heq, LawfulTime.isFinite_zero] at this
    cases this
  obtain ⟨i, hi, htimes⟩ := hover
  have hstart : c.departure i = top := by
    cases i with
    | zero => rcases htimes with heq | heq <;> exact absurd heq hzero
    | succ i =>
        rcases htimes with heq | heq
        · exact h.departure_eq_top htop (Or.inl heq)
        · exact heq
  generalize c.customers.toNat = last at hi ⊢
  induction last, hi using Nat.le_induction with
  | base => exact hstart
  | succ k _ ih => exact h.departure_eq_top htop (Or.inr ih)

end TrialConfig

/-! ## The wait that is refused -/

namespace Trial

variable {top : α} {c : TrialConfig α} {id : AgentId} {f : Floor α} {delay : α}

theorem overflow_of_awaitFailed [LawfulTime α] (htop : IsOverflow top) (hwaits : c.Waits top)
    (hrate : isRate c.arrivalRate = true) {j : Nat} {phase : Phase}
    (h : Source.AwaitFailed id
      ⟨c.arrivalRate, c.customers.toNat, j, c.arrivalStream.skip j, phase⟩ f delay)
    (hf : f.scheduler.Orderly) (hnow : f.now = c.arrival j) :
    delay = top ∧ j < c.customers.toNat ∧ c.arrival (j + 1) = top := by
  cases h with
  | drawn hlt hx ht =>
      rw [Xorshift.exponential_skip hrate] at hx
      cases hx
      obtain ⟨hcause, hsum⟩ := Scheduler.overflow_of_schedule htop hf (hwaits.interarrival j) ht
      refine ⟨SimulationError.invalidDelay.inj hcause, hlt, ?_⟩
      rw [TrialConfig.arrival, ← hnow]
      exact hsum

theorem overflow_of_serveFailed [LawfulTime α] (htop : IsOverflow top) (hwaits : c.Waits top)
    (hrate : isRate c.serviceRate = true) {k : Nat} {o : Option (Customer α)} {phase : Phase}
    (h : Server.ServeFailed id ⟨c.serviceRate, c.serviceStream.skip k, o, phase⟩ f delay)
    (hf : f.scheduler.Orderly) (hnow : f.now + c.serviceTime k = c.departure (k + 1)) :
    delay = top ∧ c.departure (k + 1) = top := by
  cases h with
  | drawn hx ht =>
      rw [Xorshift.exponential_skip hrate] at hx
      cases hx
      obtain ⟨hcause, hsum⟩ := Scheduler.overflow_of_schedule htop hf (hwaits.serviceTime k) ht
      refine ⟨SimulationError.invalidDelay.inj hcause, ?_⟩
      rw [← hnow]
      exact hsum

theorem overflow_of_fetchFailed [LawfulTime α] (htop : IsOverflow top) (hwaits : c.Waits top)
    (hrate : isRate c.serviceRate = true) {j k : Nat} {phase : Phase}
    (h : Server.FetchFailed serverId ⟨c.serviceRate, c.serviceStream.skip k, none, phase⟩ f delay)
    (hf : f.scheduler.Orderly) (hk : k ≤ j) (hnow : f.now = c.departure k)
    (harrived : ∀ i ≤ j, c.arrival i ≤ f.now) (hbuffer : f.channel.buffer.toList = c.queue k j) :
    delay = top ∧ k < j ∧ c.departure (k + 1) = top := by
  cases h with
  | found hr h =>
      obtain ⟨hlt, -, -, -⟩ := customer_of_taken hr hk hbuffer
      obtain ⟨hdelay, htime⟩ := overflow_of_serveFailed htop hwaits hrate h hf
        (departure_of_fetched hlt hnow harrived)
      exact ⟨hdelay, hlt, htime⟩

section Step

variable [LawfulTime α] {n : Network α} {j k : Nat} {e : Event α} {t : Scheduler α}
  {s : Source α} {v : Server α}

omit [LawfulTime α] in
theorem Tracks.arrivals_le (h : Tracks c n j k) : j ≤ c.customers.toNat := by
  obtain ⟨s, v, ts, tv, hagents, hs, -⟩ := h.agents
  have hplaced := h.reached.settled.placed sourceId
  rw [hagents] at hplaced
  change Placed (some (.source s)) _ _ _ at hplaced
  generalize n.floor.pendingOf sourceId = p at hplaced
  generalize n.floor.waitingOf sourceId = w at hplaced
  generalize n.floor.reservedOf sourceId = r at hplaced
  cases hs with
  | starting => exact Nat.zero_le _
  | timed =>
      cases hplaced with
      | newSource hp _ => cases hp
      | generating _ hlt => exact Nat.le_of_lt hlt
      | exhausted hp _ => cases hp
  | done =>
      cases hplaced with
      | newSource hp _ => cases hp
      | generating hp _ => cases hp
      | exhausted _ heq => exact Nat.le_of_eq heq

/-- The source is refused its wait at the arrival that would be beyond the finite times. -/
theorem Tracks.source_failed (h : Tracks c n j k) (htop : IsOverflow top) (hwaits : c.Waits top)
    (hrate : isRate c.arrivalRate = true) (hd : n.floor.scheduler.Dispatched e t)
    (ha : n.agents[e.agent.index]? = some (.source s))
    (hr : s.ResumeFailed e.agent { n.floor with scheduler := t } delay) :
    delay = top ∧ c.Overflows top := by
  obtain ⟨p, w, r, hplaced, hfits⟩ := h.reached.settled.dispatch hd
  obtain ⟨s₀, v, ts, tv, hagents, hs, hsw, -⟩ := h.agents
  rw [hagents] at ha
  obtain ⟨hid, heq⟩ | ⟨-, heq⟩ := agent_cases ha
  swap
  · cases heq
  cases heq
  have hnow := hsw.now_eq hd hid
  have hover : ∀ {i : Nat}, delay = top ∧ i < c.customers.toNat ∧ c.arrival (i + 1) = top →
      delay = top ∧ c.Overflows top := by
    rintro i ⟨hdelay, hlt, htime⟩
    exact ⟨hdelay, i + 1, hlt, Or.inl htime⟩
  cases hr with
  | started hrun hawait =>
      cases hs with
      | starting =>
          exact hover (overflow_of_awaitFailed (j := 0) htop hwaits hrate hawait
            hfits.timely.orderly hnow)
      | timed => cases hrun
      | done => cases hrun
  | arrived htimer hsent hawait =>
      cases hs with
      | starting => cases htimer
      | done => cases htimer
      | timed =>
          exact hover (overflow_of_awaitFailed htop hwaits hrate hawait
            (hsent.orderly hfits.timely.orderly) (hsent.frame.1.trans hnow))

theorem Tracks.server_failed (h : Tracks c n j k) (htop : IsOverflow top) (hwaits : c.Waits top)
    (hrate : isRate c.serviceRate = true) (hd : n.floor.scheduler.Dispatched e t)
    (ha : n.agents[e.agent.index]? = some (.server v))
    (hr : v.ResumeFailed e.agent { n.floor with scheduler := t } delay) :
    delay = top ∧ c.Overflows top := by
  obtain ⟨p, w, r, hplaced, hfits⟩ := h.reached.settled.dispatch hd
  obtain ⟨s, v₀, ts, tv, hagents, -, -, hv, hvw⟩ := h.agents
  have hle := h.arrivals_le
  rw [hagents] at ha
  obtain ⟨-, heq⟩ | ⟨hid, heq⟩ := agent_cases ha
  · cases heq
  cases heq
  rw [hid] at hr
  have hnow := hvw.now_eq hd hid
  have harrived : ∀ i ≤ j, c.arrival i ≤ Floor.now { n.floor with scheduler := t } := by
    intro i hi
    exact LawfulTime.le_trans (h.arrived i hi) (now_le_of_dispatched h.reached.settled hd)
  have hover : ∀ {i : Nat}, delay = top ∧ i < j ∧ c.departure (i + 1) = top →
      delay = top ∧ c.Overflows top := by
    rintro i ⟨hdelay, hlt, htime⟩
    exact ⟨hdelay, i + 1, Nat.le_trans hlt hle, Or.inr htime⟩
  cases hr with
  | started hrun hfetch =>
      cases hv with
      | starting _ _ hbuffer =>
          exact hover (overflow_of_fetchFailed (k := 0) htop hwaits hrate hfetch
            hfits.timely.orderly (Nat.zero_le j) hnow harrived hbuffer)
      | serving => cases hrun
      | waiting => cases hrun
      | woken => cases hrun
  | finished htimer hc hfetch =>
      cases hv with
      | starting => cases htimer
      | serving hk _ hbuffer =>
          exact hover (overflow_of_fetchFailed (k := k + 1) htop hwaits hrate hfetch
            hfits.timely.orderly hk hnow harrived hbuffer)
      | waiting => cases htimer
      | woken => cases htimer
  | woken hwait hcollect hserve =>
      cases hv with
      | starting => cases hwait
      | serving => cases hwait
      | waiting _ hreserved _ =>
          cases hcollect with
          | oldest hsplit _ => simp [hreserved] at hsplit
      | woken hk _ hdtime hdle _ _ =>
          obtain ⟨hdelay, htime⟩ := overflow_of_serveFailed htop hwaits hrate hserve
            hfits.timely.orderly (departure_of_woken hnow hfits.timely.now_time hdtime hdle)
          exact hover ⟨hdelay, hk, htime⟩

/-- **A step fails only where the recursion leaves the finite times.** -/
theorem Tracks.failed (h : Tracks c n j k) (htop : IsOverflow top) (hwaits : c.Waits top)
    (harrivals : isRate c.arrivalRate = true) (hservice : isRate c.serviceRate = true)
    (hfailed : n.Failed e delay) : delay = top ∧ c.Overflows top := by
  cases hfailed with
  | source hd ha hr => exact h.source_failed htop hwaits harrivals hd ha hr
  | server hd ha hr => exact h.server_failed htop hwaits hservice hd ha hr

end Step

theorem overflow_of_run [LawfulTime α] (htop : IsOverflow top) (hwaits : c.Waits top)
    (harrivals : isRate c.arrivalRate = true) (hservice : isRate c.serviceRate = true)
    {n : Network α} (h : Tracks c n 0 0) {bound : Nat} {cause : Failure α}
    (hend : (Run.of Network.step bound n).ending = .failed cause) :
    cause = .error (.invalidDelay top) ∧ c.Overflows top := by
  have hkeep : ∀ {s : Network α} {e : Event α} {t : Network α}, (∃ j k, Tracks c s j k) →
      s.step = .moved e t → ∃ j k, Tracks c t j k := by
    rintro s e t ⟨j, k, hs⟩ hstep
    rcases hs.step harrivals hservice hstep with ⟨-, j', ht⟩ | ⟨-, j', ht⟩
    · exact ⟨j', k, ht⟩
    · exact ⟨j', k + 1, ht⟩
  obtain ⟨t, e, u, ⟨j, k, ht⟩, hstep⟩ := Run.failed_of_go hkeep ⟨0, 0, h⟩ hend
  obtain ⟨x, delay, hcause, hfailed⟩ := Network.failed_of_step ht.reached.settled hstep
  obtain ⟨rfl, hover⟩ := ht.failed htop hwaits harrivals hservice hfailed
  exact ⟨hcause, hover⟩

end Trial

/-! ## The outcome -/

/-- **A trial fails for a parameter or for a delay**, whatever its draws are. -/
theorem failure_of_runTrial [LawfulTime α] {c : TrialConfig α} {cause : Failure α}
    (h : runTrial c = .error cause) :
    (∃ name refusal, cause = .error (.invalidParameter name refusal)) ∨
      ∃ delay, cause = .error (.invalidDelay delay) := by
  cases hvalidate : c.validate with
  | error refused =>
      obtain ⟨name, refusal, rfl⟩ := c.onlyRefuses_validate _ hvalidate
      rw [runTrial_of_validate_error hvalidate] at h
      cases h
      exact Or.inl ⟨name, refusal, rfl⟩
  | ok u =>
      right
      obtain ⟨-, harrivals, hservice⟩ := TrialConfig.validate_eq_ok hvalidate
      obtain ⟨n, -, hspawned, ⟨-, hok⟩ | ⟨failed, hend, herror⟩⟩ := runTrial_of_validate hvalidate
      · rw [hok] at h
        cases h
      · rw [herror] at h
        cases h
        obtain ⟨t, e, u, ht, hstep⟩ := Run.failed_of_go Network.Reached.step
          (hspawned.reached (Trial.agents_fresh harrivals hservice)) hend
        obtain ⟨-, delay, hcause, -⟩ := Network.failed_of_step ht.settled hstep
        exact ⟨delay, hcause⟩

/-- How a trial ends. -/
structure TrialConfig.Outcome (top : α) (c : TrialConfig α) : Prop where
  /-- A trial is refused exactly when its parameters are, and for the same reason. -/
  refused : ∀ name refusal, runTrial c = .error (.error (.invalidParameter name refusal)) ↔
    c.validate = .error (.invalidParameter name refusal)
  /-- Parameters are refused with no other error. -/
  validate_error : ∀ cause, c.validate = .error cause →
    ∃ name refusal, cause = .invalidParameter name refusal
  /-- Whatever is not refused comes to rest, or overflows. -/
  validated : c.validate = .ok () → (∃ report, runTrial c = .ok report) ∨
    runTrial c = .error (.error (.invalidDelay top))
  /-- It overflows exactly when the recursion does. -/
  overflow : c.validate = .ok () → (runTrial c = .error (.error (.invalidDelay top)) ↔
    ∃ i ≤ c.customers.toNat, c.arrival i = top ∨ c.departure i = top)
  /-- The recursion reads the numbers that successive draws of the two streams give. -/
  draws : c.validate = .ok () → ∀ i,
    (c.arrivalStream.skip i).exponential c.arrivalRate =
        .ok (c.interarrival i, c.arrivalStream.skip (i + 1)) ∧
      (c.serviceStream.skip i).exponential c.serviceRate =
        .ok (c.serviceTime i, c.serviceStream.skip (i + 1))
  /-- There is no other failure: no breach of the engine, and no broken precondition. -/
  failure : ∀ cause, runTrial c = .error cause →
    (∃ name refusal, cause = .error (.invalidParameter name refusal)) ∨
      cause = .error (.invalidDelay top)

theorem ends_of_waits [LawfulTime α] {top : α} (htop : IsOverflow top) {c : TrialConfig α}
    (hwaits : c.Waits top) (hvalidate : c.validate = .ok ()) :
    (∃ report, runTrial c = .ok report) ∧ ¬ c.Overflows top ∨
      runTrial c = .error (.error (.invalidDelay top)) ∧ c.Overflows top := by
  obtain ⟨-, harrivals, hservice⟩ := TrialConfig.validate_eq_ok hvalidate
  obtain ⟨n, hspawn, hspawned, hrun⟩ := runTrial_of_validate hvalidate
  have htracks := Trial.tracks_of_spawned hspawned harrivals hservice
  rcases hrun with ⟨hrested, hok⟩ | ⟨cause, hend, herror⟩
  · refine Or.inl ⟨⟨_, hok⟩, ?_⟩
    intro hover
    -- the clock stands at the last departure, which is a finite time
    obtain ⟨j, k, ht, hstep, -⟩ := Trial.tracks_of_run harrivals hservice htracks hrested
    obtain ⟨rfl, -, hnow⟩ := ht.rest (ht.reached.settled.pending_of_step hstep)
    have hfinite := ht.reached.settled.timely.now_time.finite
    rw [hnow, hwaits.departure_of_overflows htop hover, htop.not_finite] at hfinite
    cases hfinite
  · obtain ⟨rfl, hover⟩ := Trial.overflow_of_run htop hwaits harrivals hservice htracks hend
    exact Or.inr ⟨herror, hover⟩

/-- **How a trial ends**, in any arithmetic in which time behaves and overflows to one number. -/
theorem outcome_of_waits [LawfulTime α] {top : α} (htop : IsOverflow top) {c : TrialConfig α}
    (hwaits : c.validate = .ok () → c.Waits top) : c.Outcome top := by
  have hcases := fun hvalidate => ends_of_waits htop (hwaits hvalidate) hvalidate
  refine ⟨?_, c.onlyRefuses_validate, ?_, ?_, ?_, ?_⟩
  · intro name refusal
    refine ⟨?_, runTrial_of_validate_error⟩
    intro h
    cases hvalidate : c.validate with
    | error cause =>
        rw [runTrial_of_validate_error hvalidate] at h
        cases h
        rfl
    | ok u =>
        rcases hcases hvalidate with ⟨⟨report, hok⟩, -⟩ | ⟨herror, -⟩
        · rw [hok] at h
          cases h
        · rw [herror] at h
          cases h
  · intro hvalidate
    rcases hcases hvalidate with ⟨hok, -⟩ | ⟨herror, -⟩
    · exact Or.inl hok
    · exact Or.inr herror
  · intro hvalidate
    rcases hcases hvalidate with ⟨⟨report, hok⟩, hnot⟩ | ⟨herror, hover⟩
    · rw [hok]
      exact ⟨fun h => (by cases h), fun h => absurd h hnot⟩
    · exact ⟨fun _ => hover, fun _ => herror⟩
  · intro hvalidate i
    obtain ⟨-, harrivals, hservice⟩ := TrialConfig.validate_eq_ok hvalidate
    exact ⟨Xorshift.exponential_skip harrivals _ i, Xorshift.exponential_skip hservice _ i⟩
  · intro cause h
    cases hvalidate : c.validate with
    | error refused =>
        obtain ⟨name, refusal, rfl⟩ := c.onlyRefuses_validate _ hvalidate
        rw [runTrial_of_validate_error hvalidate] at h
        cases h
        exact Or.inl ⟨name, refusal, rfl⟩
    | ok u =>
        rcases hcases hvalidate with ⟨⟨report, hok⟩, -⟩ | ⟨herror, -⟩
        · rw [hok] at h
          cases h
        · rw [herror] at h
          cases h
          exact Or.inr rfl

/-- **How a trial ends**, whatever the platform takes for the logarithm, provided that this is
finite and not positive for the numbers above zero and up to one. -/
theorem runTrial_outcome (log threeHalves : Binary64 → Binary64) (hlog : Binary64.LawfulLog log) :
    letI := Binary64.arithmetic log threeHalves
    ∀ c : TrialConfig Binary64, c.Outcome Binary64.infinity := by
  let _ := Binary64.arithmetic log threeHalves
  intro c
  refine outcome_of_waits (Binary64.isOverflow_infinity log threeHalves) ?_
  intro hvalidate
  obtain ⟨-, harrivals, hservice⟩ := TrialConfig.validate_eq_ok hvalidate
  constructor
  · intro i
    exact Xorshift.isWait_draw threeHalves hlog harrivals _
  · intro i
    exact Xorshift.isWait_draw threeHalves hlog hservice _

/-- A trial with so small a rate that the first customer never arrives. -/
def endlessConfig : TrialConfig Binary64 := ⟨2, ⟨1⟩, 1, 7⟩

theorem pairLog_lawful : Binary64.LawfulLog Network.pairLog := by
  intro u _ _
  unfold Network.pairLog
  split_ifs <;> decide

/-- One trial comes to rest, and so its recursion stays finite; the other one overflows with
its first wait. -/
theorem runTrial_outcome_endless :
    letI := Binary64.arithmetic Network.pairLog Binary64.threeHalves
    Binary64.LawfulLog Network.pairLog ∧
      ((∃ report, runTrial pairConfig = .ok report) ∧ pairConfig.Outcome Binary64.infinity) ∧
      runTrial endlessConfig = .error (.error (.invalidDelay Binary64.infinity)) ∧
        ∃ i ≤ 2, endlessConfig.arrival i = Binary64.infinity ∨
          endlessConfig.departure i = Binary64.infinity := by
  let _ := Binary64.arithmetic Network.pairLog Binary64.threeHalves
  have houtcome := runTrial_outcome Network.pairLog Binary64.threeHalves pairLog_lawful
  have hpair : (runTrial pairConfig).toOption.map (·.completed) = some 2 := by
    decide +kernel
  obtain ⟨report, hok, -⟩ := exists_ok_of_toOption hpair
  have herror : runTrial endlessConfig = .error (.error (.invalidDelay Binary64.infinity)) := by
    decide +kernel
  have hvalid : endlessConfig.validate = .ok () := by decide +kernel
  exact ⟨pairLog_lawful, ⟨⟨report, hok⟩, houtcome pairConfig⟩, herror,
    ((houtcome endlessConfig).overflow hvalid).mp herror⟩

end Queueing
