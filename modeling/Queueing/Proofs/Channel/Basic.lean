import Queueing.Simulation.Channel

/-!
# What a call on a channel does

One relation for each of the three calls says everything that the call can do, guards
included. Proofs about channels go by cases on these relations and unfold no call.
-/

namespace Queueing

variable {ρ : Type}

namespace Fifo

theorem size_push (r : ρ) (q : Fifo ρ) : (q.push r).size = q.size + 1 := rfl

theorem pop?_eq_none {q : Fifo ρ} (h : q.pop? = none) : q.toList = [] := by
  have hview := q.map_pop?
  rw [h] at hview
  cases hq : q.toList with
  | nil => rfl
  | cons r rest =>
      rw [hq] at hview
      cases hview

theorem pop?_eq_some {q q' : Fifo ρ} {r : ρ} (h : q.pop? = some (r, q')) :
    q.toList = r :: q'.toList := by
  have hview := q.map_pop?
  rw [h] at hview
  cases hq : q.toList with
  | nil =>
      rw [hq] at hview
      cases hview
  | cons x rest =>
      rw [hq] at hview
      cases hview
      rfl

end Fifo

namespace Channel

/-- What putting a record does: it is handed to the consumer that waits longest, or stored
because nobody waits. -/
inductive Sent (c : Channel ρ) (r : ρ) : Option AgentId → Channel ρ → Prop where
  | handed {w : AgentId} {ws : List AgentId} (h : c.waiters = w :: ws) :
      Sent c r (some w) { c with
        waiters := ws, reserved := c.reserved ++ [(w, r)], put := c.put + 1 }
  | stored (h : c.waiters = []) :
      Sent c r none { c with
        buffer := c.buffer.push r, put := c.put + 1, peak := max c.peak (c.buffer.size + 1) }

theorem send_sent (c : Channel ρ) (r : ρ) : c.Sent r (c.send r).1 (c.send r).2 := by
  unfold send
  split
  · next w ws h => exact .handed h
  · next h => exact .stored h

/-- What asking for a record does: the oldest one of the buffer is taken, or there is none and
the consumer is among those that wait. -/
inductive Received (c : Channel ρ) (consumer : AgentId) : Option ρ → Channel ρ → Prop where
  | taken {r : ρ} {buffer : Fifo ρ} (h : c.buffer.toList = r :: buffer.toList) :
      Received c consumer (some r) { c with buffer, taken := c.taken + 1 }
  | known (hempty : c.buffer.toList = []) (h : consumer ∈ c.waiters) : Received c consumer none c
  | registered (hempty : c.buffer.toList = []) (h : consumer ∉ c.waiters) :
      Received c consumer none { c with waiters := c.waiters ++ [consumer] }

theorem receive_received (c : Channel ρ) (consumer : AgentId) :
    c.Received consumer (c.receive consumer).1 (c.receive consumer).2 := by
  unfold receive
  split
  · next r buffer h => exact .taken (Fifo.pop?_eq_some h)
  · next h =>
    split
    · next hmem => exact .known (Fifo.pop?_eq_none h) hmem
    · next hmem => exact .registered (Fifo.pop?_eq_none h) hmem

/-- What collecting does: the oldest record that is reserved for the consumer leaves, if there
is one. -/
inductive Collected (c : Channel ρ) (consumer : AgentId) : Option ρ → Channel ρ → Prop where
  | nothing (h : ∀ x ∈ c.reserved, x.1 ≠ consumer) : Collected c consumer none c
  | oldest {pre post : List (AgentId × ρ)} {r : ρ}
      (h : c.reserved = pre ++ (consumer, r) :: post) (hpre : ∀ x ∈ pre, x.1 ≠ consumer) :
      Collected c consumer (some r) { c with reserved := pre ++ post, taken := c.taken + 1 }

theorem collect_collected (c : Channel ρ) (consumer : AgentId) :
    c.Collected consumer (c.collect consumer).1 (c.collect consumer).2 := by
  unfold collect
  split
  · next h =>
    refine .nothing ?_
    intro x hx hc
    exact List.find?_eq_none.mp h x hx (decide_eq_true hc)
  · next w r h =>
    obtain ⟨hw, pre, post, hsplit, hpre⟩ := List.find?_eq_some_iff_append.mp h
    obtain rfl : w = consumer := of_decide_eq_true hw
    have hpre' : ∀ x ∈ pre, x.1 ≠ w := by
      intro x hx
      simpa using hpre x hx
    have herase : c.reserved.eraseP (fun x => decide (x.1 = w)) = pre ++ post := by
      rw [hsplit, List.eraseP_append_right _ fun x hx => by simpa using hpre x hx,
        List.eraseP_cons_of_pos (p := fun x : AgentId × ρ => decide (x.1 = w)) hw]
    rw [herase]
    exact .oldest hsplit hpre'

/-- **A consumer collects the oldest record that is reserved for it**, and nothing only if there
is none. -/
theorem Collected.answer_eq {c c' : Channel ρ} {consumer : AgentId} {answer : Option ρ}
    (h : c.Collected consumer answer c') :
    answer = ((c.reserved.filter (·.1 = consumer)).map Prod.snd).head? := by
  cases h with
  | nothing hnone =>
      rw [List.filter_eq_nil_iff.mpr fun x hx => by simpa using hnone x hx]
      rfl
  | @oldest pre post r hsplit hpre =>
      have hnil : pre.filter (·.1 = consumer) = [] := by simpa using hpre
      rw [hsplit, List.filter_append, hnil, List.nil_append,
        List.filter_cons_of_pos (p := fun x : AgentId × ρ => decide (x.1 = consumer))
          (decide_eq_true rfl)]
      rfl

end Channel

end Queueing
