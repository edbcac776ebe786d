import Queueing.Simulation.Fifo
import Queueing.Simulation.Event

/-!
# The channel

Records are handed from producers to consumers, first in, first out. A producer never
waits. A consumer that finds nothing is noted as a waiter; the next record is then
reserved for the consumer that has waited longest, who collects it when it wakes.
Records in the buffer and waiting consumers never meet.
-/

namespace Queueing

/-- A channel for records of type `ρ`. -/
structure Channel (ρ : Type) where
  /-- Records that wait for a consumer. -/
  buffer : Fifo ρ
  /-- Consumers that wait for a record, the longest waiting first. -/
  waiters : List AgentId
  /-- Records promised to a consumer that has not collected them, the oldest first. -/
  reserved : List (AgentId × ρ)
  /-- How many records were put. -/
  put : Nat
  /-- How many records consumers took. -/
  taken : Nat
  /-- The greatest length of the buffer so far. -/
  peak : Nat
deriving DecidableEq, Repr

namespace Channel

variable {ρ : Type}

def empty : Channel ρ := ⟨Fifo.empty, [], [], 0, 0, 0⟩

/-- Put a record. It is reserved for the longest waiting consumer, which is returned
for the caller to wake, or else goes to the end of the buffer. -/
def send (record : ρ) (c : Channel ρ) : Option AgentId × Channel ρ :=
  match c.waiters with
  | waiter :: waiters =>
    (some waiter,
      { c with waiters, reserved := c.reserved ++ [(waiter, record)], put := c.put + 1 })
  | [] =>
    let buffer := c.buffer.push record
    (none, { c with buffer, put := c.put + 1, peak := max c.peak buffer.size })

/-- Take the oldest record of the buffer; a consumer that finds none is noted as a
waiter, once. -/
def receive (consumer : AgentId) (c : Channel ρ) : Option ρ × Channel ρ :=
  match c.buffer.pop? with
  | some (record, buffer) => (some record, { c with buffer, taken := c.taken + 1 })
  | none =>
    if consumer ∈ c.waiters then (none, c)
    else (none, { c with waiters := c.waiters ++ [consumer] })

def collect (consumer : AgentId) (c : Channel ρ) : Option ρ × Channel ρ :=
  match c.reserved.find? (·.1 = consumer) with
  | none => (none, c)
  | some (_, record) =>
    (some record,
      { c with reserved := c.reserved.eraseP (·.1 = consumer), taken := c.taken + 1 })

def size (c : Channel ρ) : Nat := c.buffer.size

def isEmpty (c : Channel ρ) : Bool := c.buffer.isEmpty

def waiting (c : Channel ρ) : Nat := c.waiters.length

/-- The number of records reserved and not yet collected. -/
def inFlight (c : Channel ρ) : Nat := c.reserved.length

end Channel

end Queueing
