import Mathlib.Data.List.Perm.Basic
import Queueing.Proofs.Channel.Basic

/-!
# What a call moves through a channel

Reservations and the buffer grow at their ends only, so the records that a call brought into a
channel can be read off the channel before and after it. Every call keeps those that were there,
but for the ones it returns, and counts the ones it brought.
-/

namespace Queueing

namespace Channel

variable {ρ : Type} {c c' : Channel ρ} {r : ρ} {o : Option ρ} {woken : Option AgentId}
  {id : AgentId}

/-- The records in a channel, whether they are reserved or in the buffer. -/
def held (c : Channel ρ) : List ρ := c.reserved.map Prod.snd ++ c.buffer.toList

/-- The records that have come into a channel: both lists of records grow at their end. -/
def gained (c c' : Channel ρ) : List ρ :=
  (c'.reserved.drop c.inFlight).map Prod.snd ++ c'.buffer.toList.drop c.size

/-- What every call does in which the records `out` leave the channel. -/
structure Moves (c : Channel ρ) (out : List ρ) (c' : Channel ρ) : Prop where
  apart : c.waiters = [] ∨ c.buffer.toList = [] → c'.waiters = [] ∨ c'.buffer.toList = []
  put_eq : c'.put = c.put + (c.gained c').length
  perm : (out ++ c'.held).Perm (c.held ++ c.gained c')

theorem gained_of_le (hr : c'.inFlight ≤ c.inFlight) (hb : c'.size ≤ c.size) :
    c.gained c' = [] := by
  have hsize : c'.buffer.toList.length ≤ c.size := by
    rw [Fifo.length_toList]
    exact hb
  rw [gained, List.drop_eq_nil_of_le hr, List.drop_eq_nil_of_le hsize]
  rfl

theorem gained_self (c : Channel ρ) : c.gained c = [] :=
  gained_of_le (Nat.le_refl _) (Nat.le_refl _)

theorem Moves.of_not_gained {out : List ρ} (hgained : c.gained c' = [])
    (hapart : c.waiters = [] ∨ c.buffer.toList = [] → c'.waiters = [] ∨ c'.buffer.toList = [])
    (hput : c'.put = c.put) (hperm : (out ++ c'.held).Perm c.held) : c.Moves out c' := by
  refine ⟨hapart, ?_, ?_⟩
  · rw [hgained, hput]
    rfl
  · rw [hgained, List.append_nil]
    exact hperm

theorem Moves.refl (c : Channel ρ) : c.Moves [] c :=
  .of_not_gained c.gained_self (fun h => h) rfl (.refl _)

theorem Sent.gained_eq (h : c.Sent r woken c') : c.gained c' = [r] := by
  cases h with
  | handed _ => simp [gained, inFlight, size, ← Fifo.length_toList]
  | stored _ => simp [gained, inFlight, size, ← Fifo.length_toList]

theorem Sent.moves (h : c.Sent r woken c') : c.Moves [] c' := by
  have hgained := h.gained_eq
  cases h with
  | handed hw =>
      refine ⟨fun h => Or.inr (h.resolve_left (by simp [hw])), by rw [hgained]; rfl, ?_⟩
      have hbuffer : ([r] ++ c.buffer.toList).Perm (c.buffer.toList ++ [r]) :=
        List.perm_append_comm
      rw [hgained]
      simpa [held] using hbuffer.append_left (c.reserved.map Prod.snd)
  | stored hw =>
      refine ⟨fun _ => Or.inl hw, by rw [hgained]; rfl, ?_⟩
      rw [hgained]
      simp [held]

theorem Received.gained_eq (h : c.Received id o c') : c.gained c' = [] := by
  cases h with
  | taken hb =>
      refine gained_of_le (Nat.le_refl _) ?_
      rw [size, size, ← Fifo.length_toList, ← Fifo.length_toList, hb]
      exact Nat.le_succ _
  | known _ _ => exact c.gained_self
  | registered _ _ => exact gained_of_le (Nat.le_refl _) (Nat.le_refl _)

theorem Received.moves (h : c.Received id o c') : c.Moves o.toList c' := by
  have hgained := h.gained_eq
  cases h with
  | taken hb =>
      refine .of_not_gained hgained ?_ rfl ?_
      · intro happart
        exact Or.inl (happart.resolve_right (by simp [hb]))
      · rw [held, held, hb, Option.toList_some, List.singleton_append]
        exact List.perm_middle.symm
  | known _ _ => exact .refl c
  | registered hempty _ => exact .of_not_gained hgained (fun _ => Or.inr hempty) rfl (.refl _)

theorem Collected.gained_eq (h : c.Collected id o c') : c.gained c' = [] := by
  cases h with
  | nothing _ => exact c.gained_self
  | oldest hsplit _ =>
      refine gained_of_le ?_ (Nat.le_refl _)
      rw [inFlight, inFlight, hsplit, List.length_append, List.length_append, List.length_cons]
      omega

theorem Collected.moves (h : c.Collected id o c') : c.Moves o.toList c' := by
  have hgained := h.gained_eq
  cases h with
  | nothing _ => exact .refl c
  | oldest hsplit _ =>
      refine .of_not_gained hgained (fun h => h) rfl ?_
      rw [held, held, hsplit]
      simpa using List.perm_middle.symm

end Channel

end Queueing
