import Queueing.Proofs.Scheduler.History

/-!
# Events at the same time

Which of two pending events is dispatched first is settled when both are pending, whatever is
requested later: it is the one that precedes the other in the queue (`InTurn.reaches`). Of two
events at the same time this is the one that was scheduled first, with a single exception. The
times of the queue are in their total order, in which the two zeros differ, and a request for
the zero with a sign is accepted while the clock shows zero. Such an event overtakes all those
at the other zero (`ties_in_turn`).
-/

namespace Queueing

variable {α : Type} [Arithmetic α]

namespace Ledger

/-! ## Which of two events leaves first -/

/-- The first event was dispatched at a point when the second one was not yet. -/
def LeavesFirst (a b : Event α) (l : Ledger α) : Prop :=
  ∃ before after, l.dispatched = before ++ a :: after ∧ b ∉ before

omit [Arithmetic α] in
theorem LeavesFirst.asymm {a b : Event α} {l : Ledger α} (hne : a ≠ b) (h : LeavesFirst a b l) :
    ¬ LeavesFirst b a l := by
  obtain ⟨before, after, hl, hb⟩ := h
  rintro ⟨before', after', hl', ha⟩
  rw [hl, List.append_eq_append_iff] at hl'
  rcases hl' with ⟨between, rfl, htail⟩ | ⟨between, rfl, htail⟩
  · cases between with
    | nil => exact hne (List.cons.inj htail).1
    | cons x between =>
        rw [(List.cons.inj htail).1] at ha
        simp at ha
  · cases between with
    | nil => exact hne (List.cons.inj htail).1.symm
    | cons x between =>
        rw [(List.cons.inj htail).1] at hb
        simp at hb

theorem Balanced.nodup {l : Ledger α} (hl : l.Balanced) :
    (l.dispatched ++ l.scheduler.pending).Nodup := by
  refine hl.conserved.nodup_iff.mp (List.Nodup.of_map Event.seq ?_)
  rw [hl.numbered]
  exact List.nodup_range

theorem Balanced.not_dispatched {l : Ledger α} (hl : l.Balanced) {e : Event α}
    (h : e ∈ l.scheduler.pending) : e ∉ l.dispatched := by
  intro hd
  exact List.disjoint_of_nodup_append hl.nodup hd h

/-- The first one of two events has its turn before the second one: both are pending, or it has
left first. -/
inductive InTurn (a b : Event α) (l : Ledger α) : Prop where
  | waiting (ha : a ∈ l.scheduler.pending) (hb : b ∈ l.scheduler.pending)
  | left (h : LeavesFirst a b l)

section Turns

variable {a b : Event α} {l l' : Ledger α}

theorem InTurn.accept (h : InTurn a b l) {agent : AgentId} {time : α} {e : Event α}
    {s : Scheduler α} (hs : l.scheduler.Accepted agent time e s) :
    InTurn a b ⟨s, l.accepted ++ [e], l.dispatched⟩ := by
  cases h with
  | waiting ha hb =>
      exact .waiting (hs.mem_pending.mpr (Or.inr ha)) (hs.mem_pending.mpr (Or.inr hb))
  | left h => exact .left h

theorem InTurn.dispatch [LawfulTime α] (h : InTurn a b l) (hl : l.Balanced)
    (hab : a.precedes b = true) {e : Event α} {s : Scheduler α}
    (hs : l.scheduler.Dispatched e s) : InTurn a b ⟨s, l.accepted, l.dispatched ++ [e]⟩ := by
  cases h with
  | waiting ha hb =>
      rcases hs.mem_pending.mp ha with rfl | ha'
      · exact .left ⟨l.dispatched, [], rfl, hl.not_dispatched hb⟩
      rcases hs.mem_pending.mp hb with rfl | hb'
      · -- the least of the pending events would be preceded by another one
        have hba := hs.precedes hl.orderly a ha'
        have hloop := Event.precedes_trans hab hba
        simp [Event.precedes, Std.ReflCmp.compare_self] at hloop
      · exact .waiting ha' hb'
  | left h =>
      obtain ⟨before, after, hd, hb⟩ := h
      refine .left ⟨before, after ++ [e], ?_, hb⟩
      rw [hd, List.append_assoc, List.cons_append]

theorem InTurn.move [LawfulTime α] (h : InTurn a b l) (hl : l.Balanced)
    (hab : a.precedes b = true) (hmove : Move l l') : InTurn a b l' := by
  cases hmove with
  | schedule _ _ hs => exact h.accept (Scheduler.schedule_eq_ok_iff.mp hs).2.2
  | scheduleAt _ _ hs => exact h.accept (Scheduler.scheduleAt_eq_ok_iff.mp hs)
  | refused _ => exact h
  | refusedAt _ => exact h
  | next hs => exact h.dispatch hl hab (Scheduler.dispatched_of_next hl.orderly hs)
  | idle _ => exact h

/-- **What has its turn first keeps it**, whatever is requested later. -/
theorem InTurn.reaches [LawfulTime α] (h : InTurn a b l) (hl : l.Balanced)
    (hab : a.precedes b = true) (hreach : Reaches l l') : InTurn a b l' := by
  induction hreach with
  | refl => exact h
  | tail hbefore hmove ih => exact ih.move (hl.reaches hbefore) hab hmove

theorem leavesFirst_of_precedes [LawfulTime α] (hl : l.Balanced) (hreach : Reaches l l')
    (ha : a ∈ l.scheduler.pending) (hb : b ∈ l.scheduler.pending) (hab : a.precedes b = true)
    (hleft : a ∈ l'.dispatched ∨ b ∈ l'.dispatched) : LeavesFirst a b l' := by
  cases (InTurn.waiting ha hb).reaches hl hab hreach with
  | waiting ha' hb' =>
      have hl' := hl.reaches hreach
      rcases hleft with hleft | hleft
      · exact absurd hleft (hl'.not_dispatched ha')
      · exact absurd hleft (hl'.not_dispatched hb')
  | left h => exact h

theorem Balanced.seq_lt (hl : l.Balanced) (h : [a, b].Sublist l.accepted) : a.seq < b.seq := by
  have hseqs := h.map Event.seq
  rw [hl.numbered] at hseqs
  have hsorted := List.pairwise_lt_range.sublist hseqs
  simpa using hsorted

end Turns

end Ledger

/-! ## Equal times -/

namespace Event

theorem precedes_of_seq_lt [LawfulTime α] {a b : Event α} (htime : a.time = b.time)
    (h : a.seq < b.seq) : a.precedes b = true := by
  simp only [precedes, beq_iff_eq, Event.compare, htime, Std.ReflCmp.compare_self,
    Ordering.eq_then]
  exact Nat.compare_eq_lt.mpr h

end Event

namespace Binary64

theorem eq_zero_or_of_isZero {x : Binary64} (h : x.isZero = true) : x = 0 ∨ x = negativeZero := by
  rw [isZero_iff, toNat_magnitude] at h
  rcases x with ⟨bits⟩
  have hlt := bits.toNat_lt
  change bits.toNat % 2 ^ 63 = 0 at h
  rcases (show bits.toNat = 0 ∨ bits.toNat = 2 ^ 63 by omega) with h0 | h63
  · exact Or.inl (congrArg Binary64.mk (UInt64.toNat_inj.mp h0))
  · exact Or.inr (congrArg Binary64.mk (UInt64.toNat_inj.mp h63))

theorem eq_or_zeros_of_beq {x y : Binary64} (h : (x == y) = true) :
    x = y ∨ x = 0 ∧ y = negativeZero ∨ x = negativeZero ∧ y = 0 := by
  change x.beq y = true at h
  simp only [Binary64.beq, Bool.and_eq_true, Bool.or_eq_true, beq_iff_eq] at h
  obtain ⟨-, hbits | ⟨hx, hy⟩⟩ := h
  · exact Or.inl (congrArg Binary64.mk hbits)
  · rcases eq_zero_or_of_isZero hx with rfl | rfl
    · rcases eq_zero_or_of_isZero hy with rfl | rfl
      · exact Or.inl rfl
      · exact Or.inr (Or.inl ⟨rfl, rfl⟩)
    · rcases eq_zero_or_of_isZero hy with rfl | rfl
      · exact Or.inr (Or.inr ⟨rfl, rfl⟩)
      · exact Or.inl rfl

end Binary64

/-- **Of two events at the same time, the one with the lower number comes first**, unless it is
at zero and the other one at the zero with a sign. -/
theorem Event.precedes_of_tie {a b : Event Binary64} (htie : (a.time == b.time) = true)
    (h : a.seq < b.seq) :
    ¬ (a.time = 0 ∧ b.time = Binary64.negativeZero) ∧ a.precedes b = true ∨
      (a.time = 0 ∧ b.time = Binary64.negativeZero) ∧ b.precedes a = true := by
  rcases Binary64.eq_or_zeros_of_beq htie with heq | ⟨hx, hy⟩ | ⟨hx, hy⟩
  · refine Or.inl ⟨?_, precedes_of_seq_lt heq h⟩
    rintro ⟨hx, hy⟩
    rw [hx, hy] at heq
    cases heq
  · refine Or.inr ⟨⟨hx, hy⟩, ?_⟩
    simp only [precedes, Event.compare, hx, hy]
    rfl
  · refine Or.inl ⟨?_, ?_⟩
    · rintro ⟨hx', -⟩
      rw [hx] at hx'
      cases hx'
    · simp only [precedes, Event.compare, hx, hy]
      rfl

namespace Ledger

/-- **Events at the same time are dispatched in the order in which they were scheduled**, but
for one exception: an event at the zero with a sign overtakes the events at zero. Whenever two
events at numerically equal times are pending, whatever led there and whatever follows, this
tells which of them leaves first. -/
theorem ties_in_turn {l l' : Ledger Binary64} (h : Reaches fresh l) (h' : Reaches l l')
    {a b : Event Binary64} (ha : a ∈ l.scheduler.pending) (hb : b ∈ l.scheduler.pending)
    (hscheduled : [a, b].Sublist l.accepted) (htie : (a.time == b.time) = true)
    (hleft : a ∈ l'.dispatched ∨ b ∈ l'.dispatched) :
    (LeavesFirst a b l' ↔ ¬ (a.time = 0 ∧ b.time = Binary64.negativeZero)) ∧
      (LeavesFirst b a l' ↔ a.time = 0 ∧ b.time = Binary64.negativeZero) := by
  have hl := fresh_balanced.reaches h
  have hseq := hl.seq_lt hscheduled
  have hne : a ≠ b := by
    rintro rfl
    exact Nat.lt_irrefl _ hseq
  rcases Event.precedes_of_tie htie hseq with ⟨hzeros, hab⟩ | ⟨hzeros, hba⟩
  · have hfirst := leavesFirst_of_precedes hl h' ha hb hab hleft
    exact ⟨iff_of_true hfirst hzeros, iff_of_false (hfirst.asymm hne) hzeros⟩
  · have hfirst := leavesFirst_of_precedes hl h' hb ha hba hleft.symm
    exact ⟨iff_of_false (hfirst.asymm hne.symm) (not_not_intro hzeros), iff_of_true hfirst hzeros⟩

def twoAtZero : Ledger Binary64 where
  scheduler := ⟨Clock.zero, [⟨0, 0, ⟨0⟩⟩, ⟨0, 1, ⟨1⟩⟩], 2, 0⟩
  accepted := [⟨0, 0, ⟨0⟩⟩, ⟨0, 1, ⟨1⟩⟩]
  dispatched := []

/-- The first of them leaves with the next dispatch. -/
theorem ties_in_turn_present :
    (Reaches fresh twoAtZero ∧ Reaches twoAtZero
      ⟨⟨⟨0, 0⟩, [⟨0, 1, ⟨1⟩⟩], 2, 1⟩, twoAtZero.accepted, [⟨0, 0, ⟨0⟩⟩]⟩) ∧
    LeavesFirst ⟨0, 0, ⟨0⟩⟩ ⟨0, 1, ⟨1⟩⟩
      ⟨⟨⟨0, 0⟩, [⟨0, 1, ⟨1⟩⟩], 2, 1⟩, twoAtZero.accepted, [⟨0, 0, ⟨0⟩⟩]⟩ := by
  have h : Reaches fresh twoAtZero :=
    .head (.schedule ⟨0⟩ 0 rfl) (.head (.schedule ⟨1⟩ 0 rfl) .refl)
  have h' : Reaches twoAtZero
      ⟨⟨⟨0, 0⟩, [⟨0, 1, ⟨1⟩⟩], 2, 1⟩, twoAtZero.accepted, [⟨0, 0, ⟨0⟩⟩]⟩ :=
    .head (.next rfl) .refl
  have hturns := ties_in_turn (a := ⟨0, 0, ⟨0⟩⟩) (b := ⟨0, 1, ⟨1⟩⟩) h h' (by simp [twoAtZero])
    (by simp [twoAtZero]) (List.Sublist.refl _) (by decide) (Or.inl (by simp))
  exact ⟨⟨h, h'⟩, hturns.1.mpr (by decide)⟩

/-- The queue of `signedZero` before the dispatch, with the second request in front. -/
def twoZeros : Ledger Binary64 where
  scheduler := ⟨Clock.zero, [⟨-0, 1, ⟨1⟩⟩, ⟨0, 0, ⟨0⟩⟩], 2, 0⟩
  accepted := signedZero.accepted
  dispatched := []

/-- **Not all events at the same time are dispatched in the order in which they were scheduled**:
of the two zeros, which are numerically equal, the one with a sign leaves first. -/
theorem zeros_out_of_turn :
    (Reaches fresh twoZeros ∧ Reaches twoZeros signedZero) ∧
      ((0 : Binary64) == -0) = true ∧
      (⟨0, 0, ⟨0⟩⟩ ∈ twoZeros.scheduler.pending ∧ ⟨-0, 1, ⟨1⟩⟩ ∈ twoZeros.scheduler.pending) ∧
      [⟨0, 0, ⟨0⟩⟩, ⟨-0, 1, ⟨1⟩⟩].Sublist twoZeros.accepted ∧
      LeavesFirst ⟨-0, 1, ⟨1⟩⟩ ⟨0, 0, ⟨0⟩⟩ signedZero ∧
        ¬ LeavesFirst ⟨0, 0, ⟨0⟩⟩ ⟨-0, 1, ⟨1⟩⟩ signedZero := by
  have hfirst : LeavesFirst ⟨-0, 1, ⟨1⟩⟩ ⟨0, 0, ⟨0⟩⟩ signedZero :=
    ⟨[], [], rfl, List.not_mem_nil⟩
  refine ⟨⟨?_, .head (.next rfl) .refl⟩, by decide, ⟨?_, ?_⟩, .refl _, hfirst,
    hfirst.asymm (by decide)⟩
  · exact .head (.schedule ⟨0⟩ 0 rfl) (.head (.scheduleAt ⟨1⟩ (-0) rfl) .refl)
  · simp [twoZeros]
  · simp [twoZeros]

end Ledger

end Queueing
