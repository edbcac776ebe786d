import Queueing.Proofs.Channel.History

/-!
# Consumers that suspend

A consumer that asks in vain is suspended. It makes no call until it is woken by a record that is
put, and then it collects this record before anything else. Any number of producers and of such
consumers may call in any order (`Obeyed`). Then a channel reserves no second record for a
consumer, hands over the very record that woke it, and gives every consumer its records in the
order in which they were put, whether they were taken or collected (`obeyed_served`).
-/

namespace Queueing

namespace Channel

variable {ρ : Type}

/-! ## The protocol -/

/-- Where a consumer stands: it may call, is suspended, or was woken by a record. -/
inductive Stance (ρ : Type) where
  | free
  | suspended
  | woken (record : ρ)
deriving DecidableEq

def Stance.promised? : Stance ρ → Option ρ
  | woken r => some r
  | free | suspended => none

def Exchange.stance (w : AgentId) : Stance ρ → Exchange ρ → Stance ρ
  | st, put r (some v) => if v = w then .woken r else st
  | st, get v none => if v = w then .suspended else st
  | st, collect v _ => if v = w then .free else st
  | st, put _ none | st, get _ (some _) => st

def History.stance (h : History ρ) (w : AgentId) : Stance ρ :=
  h.trace.foldl (Exchange.stance w) .free

def Call.consumer? : Call ρ → Option AgentId
  | put _ => none
  | get w | collect w => some w

/-- Whether a call may be made: a consumer that is suspended makes none, and one that was woken
collects. -/
def Call.Permitted (h : History ρ) : Call ρ → Prop
  | put _ => True
  | get w => h.stance w = .free
  | collect w => h.stance w ≠ .suspended

/-- After a history, each of these calls is made where it may be made. -/
def Obeyed : History ρ → List (Call ρ) → Prop
  | _, [] => True
  | h, call :: calls => call.Permitted h ∧ Obeyed (h.call call) calls

instance [DecidableEq ρ] (h : History ρ) : ∀ call : Call ρ, Decidable (call.Permitted h)
  | .put _ => inferInstanceAs (Decidable True)
  | .get w => inferInstanceAs (Decidable (h.stance w = .free))
  | .collect w => inferInstanceAs (Decidable (h.stance w ≠ .suspended))

instance decidableObeyed [DecidableEq ρ] : ∀ (h : History ρ) (calls : List (Call ρ)),
    Decidable (Obeyed h calls)
  | _, [] => inferInstanceAs (Decidable True)
  | h, call :: calls =>
    have := decidableObeyed (h.call call) calls
    inferInstanceAs (Decidable (_ ∧ _))

theorem obeyed_append {h : History ρ} {xs ys : List (Call ρ)} :
    Obeyed h (xs ++ ys) ↔ Obeyed h xs ∧ Obeyed (xs.foldl History.call h) ys := by
  induction xs generalizing h with
  | nil => exact (iff_of_eq (true_and _)).symm
  | cons x xs ih =>
      rw [List.cons_append, Obeyed, Obeyed, ih, List.foldl_cons, and_assoc]

/-! ## What consumers see -/

namespace History

def receivedBy (h : History ρ) (w : AgentId) : List ρ :=
  (h.returned.filter (·.1 = w)).map Prod.snd

def assignedTo (h : History ρ) (w : AgentId) : List ρ :=
  (h.assigned.filter (·.1 = w)).map Prod.snd

def reservedFor (h : History ρ) (w : AgentId) : List ρ :=
  (h.channel.reserved.filter (·.1 = w)).map Prod.snd

end History

/-- What consumers that suspend see of a channel. -/
structure Served (calls : List (Call ρ)) : Prop where
  /-- At most one record is reserved for a consumer. -/
  reserved_le : ∀ w, ((history calls).reservedFor w).length ≤ 1
  /-- Nothing is reserved for a consumer in line. -/
  apart : ∀ w ∈ (history calls).channel.waiters, (history calls).reservedFor w = []
  /-- What a consumer collects first after it was woken is the record that woke it. -/
  collected : ∀ {pre r mid w post}, calls = pre ++ .put r :: (mid ++ .collect w :: post) →
    ((history pre).channel.send r).1 = some w → .collect w ∉ mid →
      ((history (pre ++ .put r :: mid)).channel.collect w).1 = some r
  /-- A consumer receives all that is assigned to it, but for what is still reserved. -/
  received_eq : ∀ w, (history calls).receivedBy w ++ (history calls).reservedFor w =
    (history calls).assignedTo w
  /-- A consumer receives records in the order in which they were put. -/
  received_sublist : ∀ w, ((history calls).receivedBy w).Sublist (history calls).puts
  /-- The only consumer of a channel receives the records that were put first; the next one may
  be reserved for it, and the others are in the buffer. -/
  received_first : ∀ w, (∀ call ∈ calls, ∀ v, call.consumer? = some v → v = w) →
    (history calls).returned.map Prod.snd ++
      ((history calls).reservedFor w ++ (history calls).channel.buffer.toList) =
        (history calls).puts

/-! ## What permitted calls keep -/

namespace History

/-- What a call does to a history. -/
inductive Called (h : History ρ) : Call ρ → History ρ → Prop where
  | put {r : ρ} {woken : Option AgentId} {c : Channel ρ} (hs : h.channel.Sent r woken c) :
      Called h (.put r) (h.add (.put r woken) c)
  | get {w : AgentId} {answer : Option ρ} {c : Channel ρ}
      (hr : h.channel.Received w answer c) : Called h (.get w) (h.add (.get w answer) c)
  | collect {w : AgentId} {answer : Option ρ} {c : Channel ρ}
      (hc : h.channel.Collected w answer c) : Called h (.collect w) (h.add (.collect w answer) c)

theorem call_called (h : History ρ) (call : Call ρ) : h.Called call (h.call call) := by
  cases call with
  | put r => exact .put (send_sent _ _)
  | get w => exact .get (receive_received _ _)
  | collect w => exact .collect (collect_collected _ _)

theorem stance_add (h : History ρ) (x : Exchange ρ) (c : Channel ρ) (w : AgentId) :
    (h.add x c).stance w = x.stance w (h.stance w) := by
  rw [stance, add, List.foldl_append]
  rfl

/-- Consumers stand where the channel has them. -/
structure Attended (h : History ρ) : Prop where
  kept : h.Kept
  waiting_iff : ∀ w, w ∈ h.channel.waiters ↔ h.stance w = .suspended
  reserved_eq : ∀ w, h.channel.reserved.filter (·.1 = w) =
    ((h.stance w).promised?.map (w, ·)).toList
  received_eq : ∀ w, h.returned.filter (·.1 = w) ++ h.channel.reserved.filter (·.1 = w) =
    h.assigned.filter (·.1 = w)

theorem empty_attended : (⟨empty, []⟩ : History ρ).Attended where
  kept := empty_kept
  waiting_iff _ := ⟨fun hmem => absurd hmem List.not_mem_nil, fun hst => nomatch hst⟩
  reserved_eq _ := rfl
  received_eq _ := rfl

theorem Attended.reserved_eq_nil {h : History ρ} (ha : h.Attended) {w : AgentId}
    (hst : (h.stance w).promised? = none) : h.channel.reserved.filter (·.1 = w) = [] := by
  rw [ha.reserved_eq, hst]
  rfl

theorem Attended.put {h : History ρ} (ha : h.Attended) {r : ρ} {woken : Option AgentId}
    {c : Channel ρ} (hs : h.channel.Sent r woken c) : (h.add (.put r woken) c).Attended := by
  have hkept := ha.kept.put hs
  cases hs with
  | @handed v ws hw =>
      have hnodup := ha.kept.nodup
      rw [hw] at hnodup
      have hnot : v ∉ ws := (List.nodup_cons.mp hnodup).1
      have hnone : h.channel.reserved.filter (·.1 = v) = [] := by
        refine ha.reserved_eq_nil ?_
        rw [(ha.waiting_iff v).mp (hw ▸ List.mem_cons_self)]
        rfl
      refine ⟨hkept, ?_, ?_, ?_⟩
      · intro w
        have hwaiting := ha.waiting_iff w
        rw [hw, List.mem_cons] at hwaiting
        by_cases hv : v = w
        · subst hv
          simpa [stance_add, Exchange.stance] using hnot
        · simpa [stance_add, Exchange.stance, hv, Ne.symm hv] using hwaiting
      · intro w
        by_cases hv : v = w
        · subst hv
          simp [stance_add, Exchange.stance, Stance.promised?, hnone]
        · simpa [stance_add, Exchange.stance, hv] using ha.reserved_eq w
      · intro w
        simp [← ha.received_eq w]
  | stored hw =>
      refine ⟨hkept, ?_, ?_, ?_⟩
      · intro w
        rw [stance_add]
        exact ha.waiting_iff w
      · intro w
        rw [stance_add]
        exact ha.reserved_eq w
      · intro w
        simpa using ha.received_eq w

theorem Attended.get {h : History ρ} (ha : h.Attended) {v : AgentId} {answer : Option ρ}
    {c : Channel ρ} (hr : h.channel.Received v answer c) (hfree : h.stance v = .free) :
    (h.add (.get v answer) c).Attended := by
  have hkept := ha.kept.get hr
  have hnone : h.channel.reserved.filter (·.1 = v) = [] := by
    refine ha.reserved_eq_nil ?_
    rw [hfree]
    rfl
  cases hr with
  | @taken r buffer hb =>
      refine ⟨hkept, ?_, ?_, ?_⟩
      · intro w
        rw [stance_add]
        exact ha.waiting_iff w
      · intro w
        rw [stance_add]
        exact ha.reserved_eq w
      · intro w
        have hreceived := ha.received_eq w
        by_cases hv : v = w
        · subst hv
          rw [hnone, List.append_nil] at hreceived
          simp [hnone, hreceived]
        · simpa [hv] using hreceived
  | known hempty hmem =>
      rw [ha.waiting_iff, hfree] at hmem
      cases hmem
  | registered hempty hmem =>
      refine ⟨hkept, ?_, ?_, ?_⟩
      · intro w
        have hwaiting := ha.waiting_iff w
        by_cases hv : v = w
        · subst hv
          simp [stance_add, Exchange.stance]
        · simpa [stance_add, Exchange.stance, hv, Ne.symm hv] using hwaiting
      · intro w
        by_cases hv : v = w
        · subst hv
          simpa [stance_add, Exchange.stance, Stance.promised?] using hnone
        · simpa [stance_add, Exchange.stance, hv] using ha.reserved_eq w
      · intro w
        simpa using ha.received_eq w

theorem Attended.collect {h : History ρ} (ha : h.Attended) {v : AgentId} {answer : Option ρ}
    {c : Channel ρ} (hc : h.channel.Collected v answer c) (hst : h.stance v ≠ .suspended) :
    (h.add (.collect v answer) c).Attended := by
  have hkept := ha.kept.collect hc
  have hnot : v ∉ h.channel.waiters := (ha.waiting_iff v).not.mpr hst
  have hwaiting : ∀ c' : Channel ρ, c'.waiters = h.channel.waiters → ∀ w,
      w ∈ c'.waiters ↔ (h.add (.collect v answer) c').stance w = .suspended := by
    intro c' hw w
    by_cases hv : v = w
    · subst hv
      simpa [stance_add, Exchange.stance, hw] using hnot
    · simpa [stance_add, Exchange.stance, hw, hv] using ha.waiting_iff w
  cases hc with
  | nothing hnone =>
      refine ⟨hkept, hwaiting _ rfl, ?_, ?_⟩
      · intro w
        by_cases hv : v = w
        · subst hv
          simpa [stance_add, Exchange.stance, Stance.promised?] using hnone
        · simpa [stance_add, Exchange.stance, hv] using ha.reserved_eq w
      · intro w
        simpa using ha.received_eq w
  | @oldest pre post r hsplit hpre =>
      have hnil : pre.filter (·.1 = v) = [] := by simpa using hpre
      refine ⟨hkept, hwaiting _ rfl, ?_, ?_⟩
      · intro w
        have hreserved := ha.reserved_eq w
        rw [hsplit] at hreserved
        by_cases hv : v = w
        · -- a consumer has one record reserved at most, so none is left
          subst hv
          cases hs : (h.stance v).promised? with
          | none => simp [hs] at hreserved
          | some r' =>
              have hrest : post.filter (·.1 = v) = [] := by
                rw [hs] at hreserved
                simpa [hnil] using congrArg List.tail hreserved
              simp [stance_add, Exchange.stance, Stance.promised?, hnil, hrest]
        · simpa [stance_add, Exchange.stance, hv] using hreserved
      · intro w
        have hreceived := ha.received_eq w
        rw [hsplit] at hreceived
        by_cases hv : v = w
        · subst hv
          simpa [hnil] using hreceived
        · simpa [hv] using hreceived

theorem Attended.call {h h' : History ρ} (ha : h.Attended) {call : Call ρ}
    (hc : h.Called call h') (hp : call.Permitted h) : h'.Attended := by
  cases hc with
  | put hs => exact ha.put hs
  | get hr => exact ha.get hr hp
  | collect hc => exact ha.collect hc hp

theorem Attended.calls {calls : List (Call ρ)} : ∀ {h : History ρ}, h.Attended →
    Obeyed h calls → (calls.foldl History.call h).Attended := by
  induction calls with
  | nil => exact fun ha _ => ha
  | cons call calls ih => exact fun ha hobeyed => ih (ha.call (call_called _ _) hobeyed.1) hobeyed.2

/-! ## Waking up -/

theorem Attended.collect_eq {h : History ρ} (ha : h.Attended) (w : AgentId) :
    (h.channel.collect w).1 = (h.stance w).promised? := by
  rw [(h.channel.collect_collected w).answer_eq, ha.reserved_eq]
  cases (h.stance w).promised? <;> rfl

theorem Attended.stance_call {h h' : History ρ} (ha : h.Attended) {call : Call ρ}
    (hc : h.Called call h') (hp : call.Permitted h) {w : AgentId} (hne : call ≠ .collect w)
    {r : ρ} (hst : h.stance w = .woken r) : h'.stance w = .woken r := by
  rw [← hst]
  cases hc with
  | put hs =>
      cases hs with
      | @handed v ws hw =>
          have hv : v ≠ w := by
            rintro rfl
            have hline := (ha.waiting_iff v).mp (hw ▸ List.mem_cons_self)
            cases hst.symm.trans hline
          rw [stance_add, Exchange.stance, if_neg hv]
      | stored hw => exact stance_add _ _ _ _
  | @get v answer c hr =>
      have hv : v ≠ w := by
        rintro rfl
        cases hst.symm.trans hp
      rw [stance_add]
      cases answer with
      | none => rw [Exchange.stance, if_neg hv]
      | some r' => rfl
  | @collect v answer c hc =>
      have hv : v ≠ w := by
        rintro rfl
        exact hne rfl
      rw [stance_add, Exchange.stance, if_neg hv]

theorem Attended.stance_calls {w : AgentId} {r : ρ} {calls : List (Call ρ)} :
    ∀ {h : History ρ}, h.Attended → Obeyed h calls → .collect w ∉ calls →
      h.stance w = .woken r → (calls.foldl History.call h).stance w = .woken r := by
  induction calls with
  | nil => exact fun _ _ _ hst => hst
  | cons call calls ih =>
      intro h ha hobeyed hmem hst
      rw [List.mem_cons, not_or] at hmem
      have hc := h.call_called call
      exact ih (ha.call hc hobeyed.1) hobeyed.2 hmem.2
        (ha.stance_call hc hobeyed.1 (Ne.symm hmem.1) hst)

/-! ## A single consumer -/

/-- Nobody but this consumer is in line, or was given a record. -/
structure Sole (h : History ρ) (w : AgentId) : Prop where
  waiting : ∀ v ∈ h.channel.waiters, v = w
  assigned : ∀ x ∈ h.assigned, x.1 = w
  returned : ∀ x ∈ h.returned, x.1 = w

theorem empty_sole (w : AgentId) : (⟨empty, []⟩ : History ρ).Sole w where
  waiting _ hv := absurd hv List.not_mem_nil
  assigned _ hx := absurd hx List.not_mem_nil
  returned _ hx := absurd hx List.not_mem_nil

theorem Sole.call {h h' : History ρ} {w : AgentId} (hs : h.Sole w) {call : Call ρ}
    (hc : h.Called call h') (hw : ∀ v, call.consumer? = some v → v = w) : h'.Sole w := by
  have hsnoc : ∀ {xs : List (AgentId × ρ)} {r : ρ}, (∀ x ∈ xs, x.1 = w) →
      ∀ x ∈ xs ++ [(w, r)], x.1 = w := by
    intro xs r hxs x hx
    rcases List.mem_append.mp hx with hx | hx
    · exact hxs x hx
    · rw [List.mem_singleton.mp hx]
  cases hc with
  | put hsent =>
      cases hsent with
      | @handed v ws hline =>
          obtain rfl : v = w := hs.waiting v (hline ▸ List.mem_cons_self)
          refine ⟨fun u hu => hs.waiting u (hline ▸ List.mem_cons_of_mem v hu), ?_, ?_⟩
          · simpa using hsnoc hs.assigned
          · simpa using hs.returned
      | stored hline =>
          exact ⟨hs.waiting, by simpa using hs.assigned, by simpa using hs.returned⟩
  | @get v answer c hreceived =>
      obtain rfl : v = w := hw v rfl
      cases hreceived with
      | taken hb =>
          exact ⟨hs.waiting, by simpa using hsnoc hs.assigned, by simpa using hsnoc hs.returned⟩
      | known hempty hmem =>
          exact ⟨hs.waiting, by simpa using hs.assigned, by simpa using hs.returned⟩
      | registered hempty hmem =>
          refine ⟨?_, by simpa using hs.assigned, by simpa using hs.returned⟩
          intro u hu
          rcases List.mem_append.mp hu with hu | hu
          · exact hs.waiting u hu
          · exact List.mem_singleton.mp hu
  | @collect v answer c hcollected =>
      obtain rfl : v = w := hw v rfl
      cases hcollected with
      | nothing hnone =>
          exact ⟨hs.waiting, by simpa using hs.assigned, by simpa using hs.returned⟩
      | oldest hsplit hpre =>
          exact ⟨hs.waiting, by simpa using hs.assigned, by simpa using hsnoc hs.returned⟩

theorem Sole.calls {w : AgentId} {calls : List (Call ρ)} : ∀ {h : History ρ}, h.Sole w →
    (∀ call ∈ calls, ∀ v, call.consumer? = some v → v = w) →
      (calls.foldl History.call h).Sole w := by
  induction calls with
  | nil => exact fun hs _ => hs
  | cons call calls ih =>
      intro h hs hw
      rw [List.forall_mem_cons] at hw
      exact ih (hs.call (h.call_called call) hw.1) hw.2

/-! ## What is received -/

namespace Attended

variable {h : History ρ}

theorem receivedBy_append (ha : h.Attended) (w : AgentId) :
    h.receivedBy w ++ h.reservedFor w = h.assignedTo w := by
  rw [receivedBy, reservedFor, assignedTo, ← List.map_append, ha.received_eq]

theorem reservedFor_eq (ha : h.Attended) (w : AgentId) :
    h.reservedFor w = (h.stance w).promised?.toList := by
  rw [reservedFor, ha.reserved_eq]
  cases (h.stance w).promised? <;> rfl

/-- Records are assigned in the order in which they were put. -/
theorem assigned_prefix (ha : h.Attended) : h.assigned.map Prod.snd <+: h.puts :=
  ⟨_, ha.kept.assigned_eq⟩

theorem receivedBy_sublist (ha : h.Attended) (w : AgentId) :
    (h.receivedBy w).Sublist h.puts := by
  have hassigned : (h.receivedBy w).Sublist (h.assignedTo w) := by
    rw [← ha.receivedBy_append]
    exact List.sublist_append_left _ _
  have hall : (h.assignedTo w).Sublist (h.assigned.map Prod.snd) := List.filter_sublist.map _
  exact (hassigned.trans hall).trans ha.assigned_prefix.sublist

theorem returned_append (ha : h.Attended) {w : AgentId} (hs : h.Sole w) :
    h.returned.map Prod.snd ++ (h.reservedFor w ++ h.channel.buffer.toList) = h.puts := by
  have hreturned : h.receivedBy w = h.returned.map Prod.snd := by
    rw [receivedBy, List.filter_eq_self.mpr fun x hx => decide_eq_true (hs.returned x hx)]
  have hassigned : h.assignedTo w = h.assigned.map Prod.snd := by
    rw [assignedTo, List.filter_eq_self.mpr fun x hx => decide_eq_true (hs.assigned x hx)]
  rw [← List.append_assoc, ← hreturned, ha.receivedBy_append, hassigned]
  exact ha.kept.assigned_eq

end Attended

end History

theorem served_of_obeyed {calls : List (Call ρ)} (h : Obeyed ⟨empty, []⟩ calls) :
    Served calls := by
  have ha : (history calls).Attended := History.empty_attended.calls h
  refine ⟨?_, ?_, ?_, ha.receivedBy_append, ha.receivedBy_sublist, ?_⟩
  · intro w
    rw [ha.reservedFor_eq]
    cases ((history calls).stance w).promised? with
    | none => exact Nat.zero_le 1
    | some r => exact Nat.le_refl 1
  · intro w hw
    rw [ha.reservedFor_eq, (ha.waiting_iff w).mp hw]
    rfl
  · rintro pre r mid w post rfl hwoken hmem
    obtain ⟨hpre, -, hrest⟩ := obeyed_append.mp h
    obtain ⟨hmid, -⟩ := obeyed_append.mp hrest
    have hbefore : (history pre).Attended := History.empty_attended.calls hpre
    have hput : ((history pre).call (.put r)).Attended :=
      hbefore.call (History.call_called _ _) trivial
    have hst : ((history pre).call (.put r)).stance w = .woken r := by
      rw [History.call, History.stance_add, hwoken, Exchange.stance, if_pos rfl]
    have hsplit : history (pre ++ .put r :: mid) =
        mid.foldl History.call ((history pre).call (.put r)) := List.foldl_append
    rw [hsplit, (hput.calls hmid).collect_eq, hput.stance_calls hmid hmem hst]
    rfl
  · intro w hw
    exact ha.returned_append ((History.empty_sole w).calls hw)

/-- **Consumers that suspend are served in order**, at any time, however many there are and in
whatever order they call. -/
theorem obeyed_served {calls : List (Call ρ)} (h : Obeyed ⟨empty, []⟩ calls) :
    ∀ pre, pre <+: calls → Served pre := by
  rintro pre ⟨post, rfl⟩
  exact served_of_obeyed (obeyed_append.mp h).1

/-- Two consumers are woken and collect in the other order; one takes a record from the buffer
before the other one has collected. -/
def overtaking : List (Call Nat) :=
  [.get ⟨1⟩, .get ⟨2⟩, .put 10, .put 20, .put 30, .collect ⟨2⟩, .get ⟨2⟩, .collect ⟨1⟩,
    .get ⟨1⟩]

theorem obeyed_served_overtaking : Obeyed ⟨empty, []⟩ overtaking ∧
    (history overtaking).returned = [(⟨2⟩, 20), (⟨2⟩, 30), (⟨1⟩, 10)] ∧ Served overtaking := by
  have hobeyed : Obeyed ⟨empty, []⟩ overtaking := by decide
  exact ⟨hobeyed, by decide, obeyed_served hobeyed overtaking List.prefix_rfl⟩

end Channel

end Queueing
