import Mathlib.Data.List.Basic
import Mathlib.Data.List.Perm.Basic
import Queueing.Proofs.Time
import Queueing.Simulation.Scheduler

/-!
# Orderly schedulers

The events of a scheduler are queued by the total order of times, while its clock and its
requests compare times numerically. The two never disagree fatally, because every pending
event is finite and numerically not before the present: this is the invariant `Orderly`,
which accepted requests and dispatches keep, and under which taking the next event never
fails.
-/

namespace Queueing

variable {α : Type} [Arithmetic α]

/-! ## The order of events -/

namespace Event

theorem compare_eq_compareLex : (Event.compare : Event α → Event α → Ordering) =
    compareLex (fun a b => Arithmetic.compareTotal a.time b.time) (compareOn Event.seq) := rfl

section Lawful

variable [LawfulTime α]

instance : Std.TransCmp (fun a b : Event α => Arithmetic.compareTotal a.time b.time) where
  eq_swap := Std.OrientedCmp.eq_swap
  isLE_trans := Std.TransCmp.isLE_trans

instance : Std.TransCmp (Event.compare : Event α → Event α → Ordering) := by
  rw [compare_eq_compareLex]
  infer_instance

theorem precedes_trans {a b c : Event α} (hab : a.precedes b) (hbc : b.precedes c) :
    a.precedes c := by
  simp only [precedes, beq_iff_eq] at *
  exact Std.TransCmp.lt_trans hab hbc

theorem precedes_or_precedes {a b : Event α} (h : a.seq ≠ b.seq) :
    a.precedes b = true ∨ b.precedes a = true := by
  simp only [precedes, beq_iff_eq]
  rcases hc : a.compare b with _ | _ | _
  · exact Or.inl rfl
  · rw [Event.compare, Ordering.then_eq_eq] at hc
    exact absurd (Nat.compare_eq_eq.mp hc.2) h
  · right
    rw [show b.compare a = (a.compare b).swap from Std.OrientedCmp.eq_swap, hc]
    rfl

theorem time_le_of_precedes {a b : Event α} (ha : Arithmetic.isFinite a.time = true)
    (hb : Arithmetic.isFinite b.time = true) (h : a.precedes b) : a.time ≤ b.time := by
  refine LawfulTime.le_of_compareTotal ha hb ?_
  simp only [precedes, beq_iff_eq, Event.compare, Ordering.then_eq_lt] at h
  rcases h with h | ⟨h, -⟩
  · rw [h]
    rfl
  · rw [h]
    rfl

theorem seq_lt_of_precedes {a b : Event α} (h : a.precedes b) (htime : a.time = b.time) :
    a.seq < b.seq := by
  simp only [precedes, beq_iff_eq, Event.compare, htime, Std.ReflCmp.compare_self,
    Ordering.eq_then] at h
  exact Nat.compare_eq_lt.mp h

end Lawful

theorem insert_perm (e : Event α) : ∀ es : List (Event α), (e.insert es).Perm (e :: es)
  | [] => .refl _
  | x :: xs => by
      rw [insert]
      split
      · exact .refl _
      · exact ((insert_perm e xs).cons x).trans (.swap e x xs)

theorem mem_insert {e x : Event α} {es : List (Event α)} :
    x ∈ e.insert es ↔ x = e ∨ x ∈ es := by
  rw [(insert_perm e es).mem_iff, List.mem_cons]

theorem insert_sorted [LawfulTime α] {e : Event α} : ∀ {es : List (Event α)},
    es.Pairwise (fun a b => a.precedes b = true) → (∀ x ∈ es, x.seq ≠ e.seq) →
    (e.insert es).Pairwise fun a b => a.precedes b = true
  | [], _, _ => List.pairwise_singleton _ _
  | x :: xs, hs, hne => by
      obtain ⟨hx, hxs⟩ := List.pairwise_cons.mp hs
      rw [insert]
      split
      · next h =>
        refine List.pairwise_cons.mpr ⟨?_, hs⟩
        intro y hy
        rcases List.mem_cons.mp hy with rfl | hy
        · exact h
        · exact precedes_trans h (hx y hy)
      · next h =>
        refine List.pairwise_cons.mpr ⟨?_, ?_⟩
        · intro y hy
          rcases mem_insert.mp hy with rfl | hy
          · exact (precedes_or_precedes (hne x List.mem_cons_self).symm).resolve_left h
          · exact hx y hy
        · exact insert_sorted hxs fun y hy => hne y (List.mem_cons_of_mem _ hy)

end Event

/-! ## The invariant -/

namespace Scheduler

/-- The clock is at a finite time that is not negative, and every pending event is finite
and not in the past. The events are in order, and their numbers are used up. -/
structure Orderly (s : Scheduler α) : Prop where
  now_finite : Arithmetic.isFinite s.now = true
  now_nonneg : 0 ≤ s.now
  time_finite : ∀ e ∈ s.pending, Arithmetic.isFinite e.time = true
  now_le : ∀ e ∈ s.pending, s.now ≤ e.time
  sorted : s.pending.Pairwise fun a b => a.precedes b = true
  seq_lt : ∀ e ∈ s.pending, e.seq < s.nextSeq

/-- What an accepted wake-up leaves behind. -/
structure Accepted (s : Scheduler α) (agent : AgentId) (time : α) (e : Event α)
    (s' : Scheduler α) : Prop where
  event : e = ⟨time, s.nextSeq, agent⟩
  scheduler : s' = { s with pending := e.insert s.pending, nextSeq := s.nextSeq + 1 }
  finite : Arithmetic.isFinite time = true
  now_le : s.now ≤ time

namespace Accepted

variable {s s' : Scheduler α} {agent : AgentId} {time : α} {e : Event α}

theorem now_eq (h : s.Accepted agent time e s') : s'.now = s.now := by
  obtain ⟨-, rfl, -, -⟩ := h
  rfl

theorem perm_pending (h : s.Accepted agent time e s') : s'.pending.Perm (e :: s.pending) := by
  obtain ⟨-, rfl, -, -⟩ := h
  exact Event.insert_perm e s.pending

theorem mem_pending (h : s.Accepted agent time e s') {x : Event α} :
    x ∈ s'.pending ↔ x = e ∨ x ∈ s.pending := by
  rw [h.perm_pending.mem_iff, List.mem_cons]

theorem length_pending (h : s.Accepted agent time e s') :
    s'.pending.length = s.pending.length + 1 :=
  h.perm_pending.length_eq

end Accepted

/-- **A request for a time is accepted exactly when the time is finite and not before the
present.** -/
theorem scheduleAt_eq_ok_iff {s : Scheduler α} {agent : AgentId} {time : α} {e : Event α}
    {s' : Scheduler α} :
    s.scheduleAt agent time = .ok (e, s') ↔ s.Accepted agent time e s' := by
  unfold scheduleAt enqueue
  constructor
  · intro h
    split at h
    · next hle =>
      split at h
      · next hfin =>
        cases h
        exact ⟨rfl, rfl, hfin, hle⟩
      · cases h
    · cases h
  · rintro ⟨rfl, rfl, hfin, hle⟩
    rw [if_pos hle, if_pos hfin]

theorem schedule_eq_ok_iff {s : Scheduler α} {agent : AgentId} {delay : α} {e : Event α}
    {s' : Scheduler α} :
    s.schedule agent delay = .ok (e, s') ↔ Arithmetic.isFinite delay = true ∧ 0 ≤ delay ∧
      s.Accepted agent (s.now + delay) e s' := by
  unfold schedule
  split
  · next h =>
    rw [scheduleAt_eq_ok_iff]
    exact ⟨fun ha => ⟨h.2, h.1, ha⟩, fun ha => ha.2.2⟩
  · next h =>
    constructor
    · intro hc
      cases hc
    · rintro ⟨hfin, h0, -⟩
      exact absurd ⟨h0, hfin⟩ h

/-- **A request for a delay is refused only for the delay**: because the delay itself is no
delay, or because it leads beyond the finite times. -/
theorem schedule_eq_error [LawfulTime α] {s : Scheduler α} (hs : s.Orderly)
    {agent : AgentId} {delay : α} {cause : SimulationError α}
    (h : s.schedule agent delay = .error cause) :
    cause = .invalidDelay delay ∧ ¬ (Arithmetic.isFinite delay = true ∧ 0 ≤ delay) ∨
      cause = .invalidDelay (s.now + delay) ∧ Arithmetic.isFinite delay = true ∧ 0 ≤ delay ∧
        ¬ Arithmetic.isFinite (s.now + delay) = true := by
  unfold schedule at h
  split at h
  · next hd =>
    have hle := LawfulTime.le_add hs.now_finite hd.2 hs.now_nonneg hd.1
    rw [scheduleAt, if_pos hle] at h
    split at h
    · cases h
    · next hinf =>
      cases h
      exact Or.inr ⟨rfl, hd.2, hd.1, hinf⟩
  · next hd =>
    cases h
    exact Or.inl ⟨rfl, fun hc => hd ⟨hc.2, hc.1⟩⟩

theorem invalidDelay_of_schedule [LawfulTime α] {s : Scheduler α} (hs : s.Orderly)
    {agent : AgentId} {delay : α} {cause : SimulationError α}
    (h : s.schedule agent delay = .error cause) : ∃ d, cause = .invalidDelay d := by
  rcases schedule_eq_error hs h with ⟨hcause, -⟩ | ⟨hcause, -⟩
  · exact ⟨_, hcause⟩
  · exact ⟨_, hcause⟩

/-- **A request for a delay is accepted exactly when the delay is finite and not negative
and leads to a finite time.** -/
theorem schedule_accepted_iff [LawfulTime α] {s : Scheduler α} (hs : s.Orderly)
    {agent : AgentId} {delay : α} :
    (∃ e s', s.schedule agent delay = .ok (e, s')) ↔ Arithmetic.isFinite delay = true ∧
      0 ≤ delay ∧ Arithmetic.isFinite (s.now + delay) = true := by
  constructor
  · rintro ⟨e, s', h⟩
    obtain ⟨hfin, h0, ha⟩ := schedule_eq_ok_iff.mp h
    exact ⟨hfin, h0, ha.finite⟩
  · rintro ⟨hfin, h0, hsum⟩
    exact ⟨_, _, schedule_eq_ok_iff.mpr ⟨hfin, h0, rfl, rfl, hsum,
      LawfulTime.le_add hs.now_finite hfin hs.now_nonneg h0⟩⟩

theorem schedule_zero [LawfulTime α] {s : Scheduler α} (hs : IsTime s.now) (agent : AgentId) :
    ∃ e s', s.schedule agent 0 = .ok (e, s') ∧ s.Accepted agent s.now e s' := by
  obtain ⟨e, s', ha⟩ : ∃ e s', s.Accepted agent s.now e s' :=
    ⟨_, _, rfl, rfl, hs.finite, hs.le_refl⟩
  have hsum : s.Accepted agent (s.now + 0) e s' := by
    rw [hs.add_zero]
    exact ha
  exact ⟨e, s', schedule_eq_ok_iff.mpr
    ⟨LawfulTime.isFinite_zero, IsTime.zero.le_refl, hsum⟩, ha⟩

theorem scheduleAt_accepted_iff {s : Scheduler α} {agent : AgentId} {time : α} :
    (∃ e s', s.scheduleAt agent time = .ok (e, s')) ↔
      Arithmetic.isFinite time = true ∧ s.now ≤ time := by
  constructor
  · rintro ⟨e, s', h⟩
    have ha := scheduleAt_eq_ok_iff.mp h
    exact ⟨ha.finite, ha.now_le⟩
  · rintro ⟨hfin, hle⟩
    exact ⟨_, _, scheduleAt_eq_ok_iff.mpr ⟨rfl, rfl, hfin, hle⟩⟩

theorem empty_orderly [LawfulTime α] : (empty : Scheduler α).Orderly where
  now_finite := LawfulTime.isFinite_zero
  now_nonneg := LawfulTime.le_refl LawfulTime.isFinite_zero
  time_finite := by simp [empty]
  now_le := by simp [empty]
  sorted := List.Pairwise.nil
  seq_lt := by simp [empty]

theorem Accepted.orderly [LawfulTime α] {s s' : Scheduler α} {agent : AgentId} {time : α}
    {e : Event α} (h : s.Accepted agent time e s') (hs : s.Orderly) : s'.Orderly := by
  obtain ⟨rfl, rfl, hfin, hle⟩ := h
  refine ⟨hs.now_finite, hs.now_nonneg, ?_, ?_, ?_, ?_⟩
  · intro x hx
    rcases Event.mem_insert.mp hx with rfl | hx
    · exact hfin
    · exact hs.time_finite x hx
  · intro x hx
    rcases Event.mem_insert.mp hx with rfl | hx
    · exact hle
    · exact hs.now_le x hx
  · exact Event.insert_sorted hs.sorted fun x hx => Nat.ne_of_lt (hs.seq_lt x hx)
  · intro x hx
    rcases Event.mem_insert.mp hx with rfl | hx
    · exact Nat.lt_succ_self _
    · exact Nat.lt_succ_of_lt (hs.seq_lt x hx)

/-! ## Dispatching -/

/-- What taking the next event leaves behind. -/
structure Dispatched (s : Scheduler α) (e : Event α) (s' : Scheduler α) : Prop where
  pending : s.pending = e :: s'.pending
  now : s'.now = e.time
  nextSeq : s'.nextSeq = s.nextSeq
  dispatched : s'.dispatched = s.dispatched + 1

/-- **Taking the next event never fails.** -/
theorem next_cases {s : Scheduler α} (hs : s.Orderly) :
    (s.pending = [] ∧ s.next = .ok none) ∨
      ∃ e s', s.next = .ok (some (e, s')) ∧ s.Dispatched e s' := by
  unfold next
  cases hp : s.pending with
  | nil => exact Or.inl ⟨rfl, rfl⟩
  | cons e rest =>
      have hle : s.clock.now ≤ e.time := hs.now_le e (by rw [hp]; exact List.mem_cons_self)
      refine Or.inr ⟨e, { s with
        clock := { s.clock with now := e.time }, pending := rest,
        dispatched := s.dispatched + 1 }, ?_, hp, rfl, rfl, rfl⟩
      simp only [Clock.advanceTo, if_pos hle]

theorem dispatched_of_next {s s' : Scheduler α} {e : Event α} (hs : s.Orderly)
    (h : s.next = .ok (some (e, s'))) : s.Dispatched e s' := by
  rcases next_cases hs with ⟨-, hn⟩ | ⟨e', s'', hn, hd⟩
  · rw [hn] at h
    cases h
  · rw [hn] at h
    cases h
    exact hd

theorem pending_of_next {s : Scheduler α} (hs : s.Orderly) (h : s.next = .ok none) :
    s.pending = [] := by
  rcases next_cases hs with ⟨hp, -⟩ | ⟨e, s', hn, -⟩
  · exact hp
  · rw [hn] at h
    cases h

omit [Arithmetic α] in
theorem Dispatched.mem_pending {s s' : Scheduler α} {e x : Event α} (h : s.Dispatched e s') :
    x ∈ s.pending ↔ x = e ∨ x ∈ s'.pending := by
  rw [h.pending, List.mem_cons]

theorem Dispatched.precedes {s s' : Scheduler α} {e : Event α} (h : s.Dispatched e s')
    (hs : s.Orderly) : ∀ x ∈ s'.pending, e.precedes x = true := by
  have := hs.sorted
  rw [h.pending] at this
  exact (List.pairwise_cons.mp this).1

theorem Dispatched.orderly [LawfulTime α] {s s' : Scheduler α} {e : Event α}
    (h : s.Dispatched e s') (hs : s.Orderly) : s'.Orderly := by
  have he : e ∈ s.pending := h.mem_pending.mpr (Or.inl rfl)
  have hmem : ∀ x ∈ s'.pending, x ∈ s.pending := by
    intro x hx
    exact h.mem_pending.mpr (Or.inr hx)
  refine ⟨?_, ?_, ?_, ?_, ?_, ?_⟩
  · rw [h.now]
    exact hs.time_finite e he
  · rw [h.now]
    exact LawfulTime.le_trans hs.now_nonneg (hs.now_le e he)
  · intro x hx
    exact hs.time_finite x (hmem x hx)
  · -- the first event of the queue is numerically not later than the others
    intro x hx
    rw [h.now]
    exact Event.time_le_of_precedes (hs.time_finite e he) (hs.time_finite x (hmem x hx))
      (h.precedes hs x hx)
  · have := hs.sorted
    rw [h.pending] at this
    exact (List.pairwise_cons.mp this).2
  · intro x hx
    rw [h.nextSeq]
    exact hs.seq_lt x (hmem x hx)

end Scheduler

end Queueing
