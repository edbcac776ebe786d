import Queueing.Arithmetic

/-!
# Agents and events

The agents of a trial are numbered in the order in which they are registered. An agent
runs until it has to wait, and its phase says for what.

An event is the wake-up of one agent at one time. Events are ordered by their time, in
the total order of numbers, and then by the number under which they were accepted; the
agent plays no part in the order.
-/

namespace Queueing

/-! ## Agents -/

/-- The number of an agent within its trial. -/
structure AgentId where
  index : Nat
deriving DecidableEq, Repr, Inhabited

def AgentId.text (id : AgentId) : String := "process#" ++ toString id.index

/-- Where an agent is in its life. -/
inductive Phase where
  /-- Registered, and not yet suspended for the first time. -/
  | running
  /-- Suspended until a wake-up of its own comes due. -/
  | awaitingTimer
  /-- Suspended until a customer is handed to it. -/
  | awaitingChannel
  /-- Finished for good. -/
  | done
deriving DecidableEq, Repr, Inhabited

def Phase.name : Phase → String
  | .running => "Running"
  | .awaitingTimer => "AwaitingTimer"
  | .awaitingChannel => "AwaitingChannel"
  | .done => "Done"

/-! ## Events -/

/-- A wake-up: when, under which number it was accepted, and for whom. -/
structure Event (α : Type) where
  time : α
  seq : Nat
  agent : AgentId
deriving DecidableEq, Repr

namespace Event

variable {α : Type} [Arithmetic α]

/-- Order by time, then by number. -/
protected def compare (a b : Event α) : Ordering :=
  (Arithmetic.compareTotal a.time b.time).then (compare a.seq b.seq)

/-- The order as one that might leave two events apart, which it never does. -/
def comparePartial (a b : Event α) : Option Ordering := some (a.compare b)

def precedes (a b : Event α) : Bool := a.compare b == .lt

def coincides (a b : Event α) : Bool := a.compare b == .eq

/-- Put an event into a list, in front of the first event that comes later. -/
def insert (e : Event α) : List (Event α) → List (Event α)
  | [] => [e]
  | x :: xs => if e.precedes x then e :: x :: xs else x :: insert e xs

/-- Sort by the order; events that coincide keep their places. -/
def sort (es : List (Event α)) : List (Event α) :=
  es.mergeSort fun a b => !b.precedes a

end Event

end Queueing
