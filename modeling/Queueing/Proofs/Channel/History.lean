import Mathlib.Data.List.Induction
import Mathlib.Data.List.Perm.Basic
import Mathlib.Data.List.Nodup
import Queueing.Proofs.Channel.Basic

/-!
# Histories of a channel

A history is any sequence of calls by any agents on a fresh channel, together with the
answers they got. All accounts of it are read off the calls and answers: who was given which
record and when, who collected it, and who stood in line. The main statement is
`history_faithful`: the accounts agree with each other and with what the channel holds.
-/

namespace Queueing

namespace Channel

/-- A call on a channel. -/
inductive Call (ρ : Type) where
  | put (record : ρ)
  | get (consumer : AgentId)
  | collect (consumer : AgentId)

/-- A call with its answer: the consumer that a record wakes, or the record returned. -/
inductive Exchange (ρ : Type) where
  | put (record : ρ) (woken : Option AgentId)
  | get (consumer : AgentId) (answer : Option ρ)
  | collect (consumer : AgentId) (answer : Option ρ)

/-- A channel and the calls that led to it, the earliest first. -/
structure History (ρ : Type) where
  channel : Channel ρ
  trace : List (Exchange ρ)

variable {ρ : Type}

def History.add (h : History ρ) (x : Exchange ρ) (c : Channel ρ) : History ρ :=
  ⟨c, h.trace ++ [x]⟩

def History.call (h : History ρ) : Call ρ → History ρ
  | .put r => h.add (.put r (h.channel.send r).1) (h.channel.send r).2
  | .get w => h.add (.get w (h.channel.receive w).1) (h.channel.receive w).2
  | .collect w => h.add (.collect w (h.channel.collect w).1) (h.channel.collect w).2

def history (calls : List (Call ρ)) : History ρ := calls.foldl History.call ⟨empty, []⟩

theorem history_snoc (calls : List (Call ρ)) (call : Call ρ) :
    history (calls ++ [call]) = (history calls).call call := by
  rw [history, List.foldl_append]
  rfl

/-! ## Accounts -/

namespace Exchange

@[simp] def put? : Exchange ρ → Option ρ
  | put r _ => some r
  | get _ _ | collect _ _ => none

/-- The record that was handed to a waiting consumer when it was put. -/
@[simp] def handed? : Exchange ρ → Option (AgentId × ρ)
  | put r woken => woken.map (·, r)
  | get _ _ | collect _ _ => none

@[simp] def taken? : Exchange ρ → Option (AgentId × ρ)
  | get w answer => answer.map (w, ·)
  | put _ _ | collect _ _ => none

@[simp] def collected? : Exchange ρ → Option (AgentId × ρ)
  | collect w answer => answer.map (w, ·)
  | put _ _ | get _ _ => none

/-- A record is assigned when it is handed to a consumer or taken by one. -/
@[simp] def assigned? (x : Exchange ρ) : Option (AgentId × ρ) := x.handed?.or x.taken?

@[simp] def returned? (x : Exchange ρ) : Option (AgentId × ρ) := x.taken?.or x.collected?

/-- The consumers in line after a call: one that asked in vain stands at the end of it, unless
it is in line already, and one that is woken leaves it. -/
def line : List AgentId → Exchange ρ → List AgentId
  | ws, get w none => if w ∈ ws then ws else ws ++ [w]
  | ws, put _ (some w) => ws.erase w
  | ws, put _ none | ws, get _ (some _) | ws, collect _ _ => ws

end Exchange

namespace History

def puts (h : History ρ) : List ρ := h.trace.filterMap Exchange.put?
def handed (h : History ρ) : List (AgentId × ρ) := h.trace.filterMap Exchange.handed?
def taken (h : History ρ) : List (AgentId × ρ) := h.trace.filterMap Exchange.taken?
def collected (h : History ρ) : List (AgentId × ρ) := h.trace.filterMap Exchange.collected?
def assigned (h : History ρ) : List (AgentId × ρ) := h.trace.filterMap Exchange.assigned?
def returned (h : History ρ) : List (AgentId × ρ) := h.trace.filterMap Exchange.returned?

/-- The consumers in line, the one that has stood in it longest first. -/
def line (trace : List (Exchange ρ)) : List AgentId := trace.foldl Exchange.line []

end History

/-- The account of a history. -/
structure Faithful (calls : List (Call ρ)) : Prop where
  /-- Waiting consumers and buffered records never meet. -/
  apart : (history calls).channel.waiters = [] ∨ (history calls).channel.buffer.toList = []
  nodup : (history calls).channel.waiters.Nodup
  /-- Records are assigned in the order in which they were put. -/
  assigned_eq : (history calls).assigned.map Prod.snd ++
    (history calls).channel.buffer.toList = (history calls).puts
  /-- Whoever stands in line is registered as a waiter. -/
  line_eq : History.line (history calls).trace = (history calls).channel.waiters
  /-- Putting a record wakes the consumer that has stood in line longest. -/
  woken_eq : ∀ {pre r woken post}, (history calls).trace = pre ++ .put r woken :: post →
    woken = (History.line pre).head?
  /-- Every consumer collects what was handed to it, in this order; the rest is reserved. -/
  handed_eq : ∀ w, (history calls).handed.filter (·.1 = w) =
    (history calls).collected.filter (·.1 = w) ++
      (history calls).channel.reserved.filter (·.1 = w)
  /-- Whoever has records reserved collects the oldest of them next. -/
  collect_eq : ∀ w, ((history calls).channel.collect w).1 =
    (((history calls).channel.reserved.filter (·.1 = w)).map Prod.snd).head?
  /-- A record that was handed to a consumer reaches nobody else. -/
  exclusive : (history calls).puts.Nodup → ∀ {w r}, (w, r) ∈ (history calls).handed →
    ∀ v, (v, r) ∉ (history calls).taken ∧ ((v, r) ∈ (history calls).collected → v = w)
  /-- No record is lost, and none is returned twice. -/
  conserved : (history calls).puts.Perm ((history calls).returned.map Prod.snd ++
    (history calls).channel.reserved.map Prod.snd ++ (history calls).channel.buffer.toList)
  once : (history calls).puts.Nodup → ((history calls).returned.map Prod.snd).Nodup
  put_eq : (history calls).channel.put = (history calls).puts.length
  taken_eq : (history calls).channel.taken = (history calls).returned.length
  count_eq : (history calls).channel.put = (history calls).channel.taken +
    (history calls).channel.inFlight + (history calls).channel.size
  /-- The peak is the greatest length that the buffer ever had. -/
  size_le_peak : ∀ {pre}, pre <+: calls →
    (history pre).channel.size ≤ (history calls).channel.peak
  peak_attained : ∃ pre, pre <+: calls ∧
    (history pre).channel.size = (history calls).channel.peak

/-! ## What every call keeps -/

theorem filterMap_snoc {β γ : Type} (f : β → Option γ) (xs : List β) (x : β) :
    (xs ++ [x]).filterMap f = xs.filterMap f ++ (f x).toList := by
  rw [List.filterMap_append, List.filterMap_cons]
  cases f x <;> rfl

theorem split_snoc {β : Type} {xs pre post : List β} {x y : β}
    (h : xs ++ [x] = pre ++ y :: post) : xs = pre ∧ x = y ∨ ∃ post', xs = pre ++ y :: post' := by
  rcases List.eq_nil_or_concat post with rfl | ⟨post', z, rfl⟩
  · exact Or.inl (by simpa using List.append_inj' h rfl)
  · rw [List.concat_eq_append, ← List.cons_append, ← List.append_assoc] at h
    exact Or.inr ⟨post', (List.append_inj' h rfl).1⟩

namespace History

section Logs

variable (h : History ρ) (x : Exchange ρ) (c : Channel ρ)

@[simp] theorem channel_add : (h.add x c).channel = c := rfl

@[simp] theorem puts_add : (h.add x c).puts = h.puts ++ x.put?.toList := filterMap_snoc ..

@[simp] theorem handed_add : (h.add x c).handed = h.handed ++ x.handed?.toList :=
  filterMap_snoc ..

@[simp] theorem collected_add : (h.add x c).collected = h.collected ++ x.collected?.toList :=
  filterMap_snoc ..

@[simp] theorem assigned_add : (h.add x c).assigned = h.assigned ++ x.assigned?.toList :=
  filterMap_snoc ..

@[simp] theorem returned_add : (h.add x c).returned = h.returned ++ x.returned?.toList :=
  filterMap_snoc ..

@[simp] theorem line_add : line (h.add x c).trace = x.line (line h.trace) := by
  rw [line, add, List.foldl_append]
  rfl

end Logs

/-- The accounts that carry each other through the calls of a history. -/
structure Kept (h : History ρ) : Prop where
  apart : h.channel.waiters = [] ∨ h.channel.buffer.toList = []
  nodup : h.channel.waiters.Nodup
  assigned_eq : h.assigned.map Prod.snd ++ h.channel.buffer.toList = h.puts
  line_eq : line h.trace = h.channel.waiters
  woken_eq : ∀ {pre r woken post}, h.trace = pre ++ .put r woken :: post →
    woken = (line pre).head?
  handed_eq : ∀ w, h.handed.filter (·.1 = w) =
    h.collected.filter (·.1 = w) ++ h.channel.reserved.filter (·.1 = w)
  conserved : h.puts.Perm (h.returned.map Prod.snd ++ h.channel.reserved.map Prod.snd ++
    h.channel.buffer.toList)
  put_eq : h.channel.put = h.puts.length
  taken_eq : h.channel.taken = h.returned.length

theorem empty_kept : (⟨empty, []⟩ : History ρ).Kept where
  apart := Or.inl rfl
  nodup := List.nodup_nil
  assigned_eq := rfl
  line_eq := rfl
  woken_eq h := by simp at h
  handed_eq _ := rfl
  conserved := .refl _
  put_eq := rfl
  taken_eq := rfl

theorem Kept.woken_snoc {h : History ρ} (hk : h.Kept) {x : Exchange ρ}
    (hx : ∀ r woken, x = .put r woken → woken = (line h.trace).head?) {pre post : List (Exchange ρ)}
    {r : ρ} {woken : Option AgentId} {c : Channel ρ}
    (hsplit : (h.add x c).trace = pre ++ .put r woken :: post) : woken = (line pre).head? := by
  rcases split_snoc hsplit with ⟨rfl, hput⟩ | ⟨post', hsplit'⟩
  · exact hx r woken hput
  · exact hk.woken_eq hsplit'

/-- A call that is answered in vain moves no record, and changes at most the line. -/
theorem Kept.vain {h : History ρ} (hk : h.Kept) {v : AgentId} {x : Exchange ρ}
    (hx : x = .get v none ∨ x = .collect v none) {ws : List AgentId}
    (hapart : ws = [] ∨ h.channel.buffer.toList = []) (hnodup : ws.Nodup)
    (hline : x.line h.channel.waiters = ws) :
    (h.add x { h.channel with waiters := ws }).Kept := by
  have hputs : ∀ c, (h.add x c).puts = h.puts := by rcases hx with rfl | rfl <;> simp
  have hassigned : ∀ c, (h.add x c).assigned = h.assigned := by
    rcases hx with rfl | rfl <;> simp
  have hhanded : ∀ c, (h.add x c).handed = h.handed := by rcases hx with rfl | rfl <;> simp
  have hcollected : ∀ c, (h.add x c).collected = h.collected := by
    rcases hx with rfl | rfl <;> simp
  have hreturned : ∀ c, (h.add x c).returned = h.returned := by
    rcases hx with rfl | rfl <;> simp
  refine ⟨hapart, hnodup, ?_, ?_, ?_, ?_, ?_, ?_, ?_⟩
  · rw [hassigned, hputs]
    exact hk.assigned_eq
  · rw [line_add, hk.line_eq]
    exact hline
  · refine hk.woken_snoc ?_
    rintro r woken rfl
    rcases hx with hx | hx <;> cases hx
  · intro u
    rw [hhanded, hcollected]
    exact hk.handed_eq u
  · rw [hputs, hreturned]
    exact hk.conserved
  · rw [hputs]
    exact hk.put_eq
  · rw [hreturned]
    exact hk.taken_eq

theorem Kept.put {h : History ρ} (hk : h.Kept) {r : ρ} {woken : Option AgentId}
    {c : Channel ρ} (hs : h.channel.Sent r woken c) : (h.add (.put r woken) c).Kept := by
  cases hs with
  | @handed w ws hw =>
      -- somebody waits, so there is nothing in the buffer that is due before the record
      have hbuffer : h.channel.buffer.toList = [] :=
        hk.apart.resolve_left (by simp [hw])
      have hassigned := hk.assigned_eq
      have hconserved := hk.conserved
      rw [hbuffer, List.append_nil] at hassigned hconserved
      refine ⟨Or.inr hbuffer, ?_, ?_, ?_, ?_, ?_, ?_, ?_, ?_⟩
      · have hnodup := hk.nodup
        rw [hw] at hnodup
        exact (List.nodup_cons.mp hnodup).2
      · simp [hbuffer, hassigned]
      · rw [line_add, hk.line_eq, hw]
        exact List.erase_cons_head w ws
      · refine hk.woken_snoc ?_
        intro r' woken' hx
        cases hx
        rw [hk.line_eq, hw]
        rfl
      · intro v
        simp [hk.handed_eq v]
      · simpa [hbuffer] using hconserved.append_right [r]
      · simp [hk.put_eq]
      · simpa using hk.taken_eq
  | stored hw =>
      refine ⟨Or.inl hw, hk.nodup, ?_, ?_, ?_, ?_, ?_, ?_, ?_⟩
      · simp [← hk.assigned_eq]
      · rw [line_add, hk.line_eq]
        rfl
      · refine hk.woken_snoc ?_
        intro r' woken' hx
        cases hx
        rw [hk.line_eq, hw]
        rfl
      · intro v
        simpa using hk.handed_eq v
      · simpa using hk.conserved.append_right [r]
      · simp [hk.put_eq]
      · simpa using hk.taken_eq

theorem Kept.get {h : History ρ} (hk : h.Kept) {v : AgentId} {answer : Option ρ}
    {c : Channel ρ} (hr : h.channel.Received v answer c) : (h.add (.get v answer) c).Kept := by
  cases hr with
  | @taken r buffer hb =>
      have hw : h.channel.waiters = [] := hk.apart.resolve_right (by simp [hb])
      refine ⟨Or.inl hw, hk.nodup, ?_, ?_, ?_, ?_, ?_, ?_, ?_⟩
      · simp [← hk.assigned_eq, hb]
      · rw [line_add, hk.line_eq]
        rfl
      · refine hk.woken_snoc ?_
        intro r' woken hx
        cases hx
      · intro u
        simpa using hk.handed_eq u
      · have hconserved := hk.conserved
        rw [hb, List.append_assoc] at hconserved
        simpa using hconserved.trans (List.perm_middle.append_left _)
      · simpa using hk.put_eq
      · simp [hk.taken_eq]
  | known hempty hmem =>
      exact hk.vain (Or.inl rfl) (Or.inr hempty) hk.nodup (if_pos hmem)
  | registered hempty hmem =>
      have hnodup : (h.channel.waiters ++ [v]).Nodup := by
        rw [← List.concat_eq_append]
        exact hk.nodup.concat hmem
      exact hk.vain (Or.inl rfl) (Or.inr hempty) hnodup (if_neg hmem)

theorem Kept.collect {h : History ρ} (hk : h.Kept) {v : AgentId} {answer : Option ρ}
    {c : Channel ρ} (hc : h.channel.Collected v answer c) :
    (h.add (.collect v answer) c).Kept := by
  cases hc with
  | nothing hnone => exact hk.vain (Or.inr rfl) hk.apart hk.nodup rfl
  | @oldest pre post r hsplit hpre =>
      refine ⟨hk.apart, hk.nodup, ?_, ?_, ?_, ?_, ?_, ?_, ?_⟩
      · simpa using hk.assigned_eq
      · rw [line_add, hk.line_eq]
        rfl
      · refine hk.woken_snoc ?_
        intro r' woken hx
        cases hx
      · intro u
        have hhanded := hk.handed_eq u
        rw [hsplit] at hhanded
        by_cases hu : v = u
        · -- nothing that is reserved for the consumer comes before the record
          subst hu
          have hnil : pre.filter (·.1 = v) = [] := by simpa using hpre
          simpa [hnil] using hhanded
        · simpa [hu] using hhanded
      · have hconserved := hk.conserved
        rw [hsplit] at hconserved
        simpa using hconserved.trans
          (by simpa using List.perm_middle.append_left (h.returned.map Prod.snd))
      · simpa using hk.put_eq
      · simp [hk.taken_eq]

theorem Kept.call {h : History ρ} (hk : h.Kept) (call : Call ρ) : (h.call call).Kept := by
  cases call with
  | put r => exact hk.put (send_sent _ _)
  | get v => exact hk.get (receive_received _ _)
  | collect v => exact hk.collect (collect_collected _ _)

end History

theorem history_kept (calls : List (Call ρ)) : (history calls).Kept := by
  induction calls using List.reverseRecOn with
  | nil => exact History.empty_kept
  | append_singleton calls call ih =>
      rw [history_snoc]
      exact ih.call call

/-! ## Consequences -/

/-- Handing over and taking are the two ways to be assigned, and no call does both. -/
theorem History.assigned_perm (h : History ρ) : h.assigned.Perm (h.handed ++ h.taken) := by
  obtain ⟨c, trace⟩ := h
  induction trace with
  | nil => exact .refl _
  | cons x trace ih =>
      have ih : (trace.filterMap Exchange.assigned?).Perm
        (trace.filterMap Exchange.handed? ++ trace.filterMap Exchange.taken?) := ih
      simp only [assigned, handed, taken, List.filterMap_cons]
      rcases x with ⟨r, _ | w⟩ | ⟨w, _ | r⟩ | ⟨w, _ | r⟩
      · exact ih
      · exact ih.cons _
      · exact ih
      · exact (ih.cons _).trans List.perm_middle.symm
      · exact ih
      · exact ih

theorem History.Kept.collected_subset {h : History ρ} (hk : h.Kept) {x : AgentId × ρ}
    (hx : x ∈ h.collected) : x ∈ h.handed := by
  have hmem : x ∈ h.handed.filter (·.1 = x.1) := by
    rw [hk.handed_eq]
    exact List.mem_append_left _ (List.mem_filter.mpr ⟨hx, decide_eq_true rfl⟩)
  exact (List.mem_filter.mp hmem).1

theorem History.Kept.exclusive {h : History ρ} (hk : h.Kept) (hnodup : h.puts.Nodup)
    {w : AgentId} {r : ρ} (hw : (w, r) ∈ h.handed) (v : AgentId) :
    (v, r) ∉ h.taken ∧ ((v, r) ∈ h.collected → v = w) := by
  -- what was assigned was put, so nothing was assigned twice
  have hassigned : (h.handed.map Prod.snd ++ h.taken.map Prod.snd).Nodup := by
    rw [← hk.assigned_eq] at hnodup
    rw [← List.map_append]
    exact (h.assigned_perm.map Prod.snd).nodup_iff.mp hnodup.of_append_left
  obtain ⟨hhanded, -, hdisjoint⟩ := List.nodup_append.mp hassigned
  constructor
  · intro hv
    exact hdisjoint r (List.mem_map_of_mem hw) r (List.mem_map_of_mem hv) rfl
  · intro hv
    have := List.inj_on_of_nodup_map hhanded (hk.collected_subset hv) hw rfl
    exact congrArg Prod.fst this

theorem Sent.peak_eq {c c' : Channel ρ} {r : ρ} {woken : Option AgentId}
    (h : c.Sent r woken c') (hle : c.size ≤ c.peak) : c'.peak = max c.peak c'.size := by
  cases h with
  | handed hw => exact (Nat.max_eq_left hle).symm
  | stored hw => rfl

theorem Received.peak_eq {c c' : Channel ρ} {v : AgentId} {answer : Option ρ}
    (h : c.Received v answer c') (hle : c.size ≤ c.peak) : c'.peak = max c.peak c'.size := by
  cases h with
  | @taken r buffer hb =>
      have hsize : c.size = buffer.size + 1 := by
        rw [size, ← Fifo.length_toList, hb, List.length_cons, Fifo.length_toList]
      exact (Nat.max_eq_left (show buffer.size ≤ c.peak by omega)).symm
  | known hempty hmem => exact (Nat.max_eq_left hle).symm
  | registered hempty hmem => exact (Nat.max_eq_left hle).symm

theorem Collected.peak_eq {c c' : Channel ρ} {v : AgentId} {answer : Option ρ}
    (h : c.Collected v answer c') (hle : c.size ≤ c.peak) : c'.peak = max c.peak c'.size := by
  cases h with
  | nothing hnone => exact (Nat.max_eq_left hle).symm
  | oldest hsplit hpre => exact (Nat.max_eq_left hle).symm

theorem History.peak_call {h : History ρ} (hle : h.channel.size ≤ h.channel.peak)
    (call : Call ρ) :
    (h.call call).channel.peak = max h.channel.peak (h.call call).channel.size := by
  cases call with
  | put r => exact (send_sent _ _).peak_eq hle
  | get v => exact (receive_received _ _).peak_eq hle
  | collect v => exact (collect_collected _ _).peak_eq hle

theorem size_le_peak {pre calls : List (Call ρ)} (hpre : pre <+: calls) :
    (history pre).channel.size ≤ (history calls).channel.peak := by
  induction calls using List.reverseRecOn generalizing pre with
  | nil =>
      rw [List.prefix_nil.mp hpre]
      exact Nat.le_refl _
  | append_singleton calls call ih =>
      rw [history_snoc, History.peak_call (ih calls.prefix_refl)]
      rcases List.prefix_concat_iff.mp hpre with rfl | hpre
      · rw [history_snoc]
        exact Nat.le_max_right _ _
      · exact Nat.le_trans (ih hpre) (Nat.le_max_left _ _)

theorem peak_attained (calls : List (Call ρ)) : ∃ pre, pre <+: calls ∧
    (history pre).channel.size = (history calls).channel.peak := by
  induction calls using List.reverseRecOn with
  | nil => exact ⟨[], List.prefix_rfl, rfl⟩
  | append_singleton calls call ih =>
      rw [history_snoc, History.peak_call (size_le_peak calls.prefix_refl)]
      rcases Nat.le_total (history calls).channel.peak
        ((history calls).call call).channel.size with hle | hle
      · refine ⟨calls ++ [call], List.prefix_rfl, ?_⟩
        rw [history_snoc, Nat.max_eq_right hle]
      · obtain ⟨pre, hpre, hsize⟩ := ih
        refine ⟨pre, hpre.trans (List.prefix_append _ _), ?_⟩
        rw [hsize, Nat.max_eq_left hle]

/-- **Every history of a channel is faithful**: whoever calls, in whatever order. -/
theorem history_faithful (calls : List (Call ρ)) : Faithful calls := by
  have hk := history_kept calls
  refine ⟨hk.apart, hk.nodup, hk.assigned_eq, hk.line_eq, hk.woken_eq, hk.handed_eq,
    fun w => (collect_collected _ w).answer_eq,
    fun hnodup _ _ hw v => hk.exclusive hnodup hw v, hk.conserved, ?_, hk.put_eq, hk.taken_eq,
    ?_, size_le_peak, peak_attained calls⟩
  · intro hnodup
    exact (hk.conserved.nodup_iff.mp hnodup).of_append_left.of_append_left
  · have hlength := hk.conserved.length_eq
    rw [← hk.put_eq, List.length_append, List.length_append, List.length_map, List.length_map,
      ← hk.taken_eq, Fifo.length_toList] at hlength
    exact hlength

end Channel

end Queueing
