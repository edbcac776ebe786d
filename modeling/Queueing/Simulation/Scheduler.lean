import Queueing.Simulation.Error

/-!
# The scheduler

A virtual clock together with the wake-ups that are still to come, kept in the order of
events. An agent waits by scheduling itself; nothing else makes time pass, and it moves
forward only. The clock may be advanced to the present, which is what happens when a
wake-up without delay comes due. A refused request changes nothing.
-/

namespace Queueing

/-! ## The clock -/

/-- A clock and the time at which it started. -/
structure Clock (α : Type) where
  now : α
  start : α
deriving DecidableEq, Repr

namespace Clock

variable {α : Type} [Arithmetic α]

def zero : Clock α := ⟨0, 0⟩

/-- A clock that starts at a finite time that is not negative. -/
def startingAt (start : α) : Except Precondition (Clock α) :=
  if Arithmetic.isFinite start ∧ 0 ≤ start then .ok ⟨start, start⟩ else .error .startTime

def elapsed (c : Clock α) : α := c.now - c.start

def advanceTo (target : α) (c : Clock α) : Except (SimulationError α) (Clock α) :=
  if c.now ≤ target then .ok { c with now := target } else .error (.timeReversal c.now target)

end Clock

/-! ## Wake-ups -/

/-- The clock, the pending events in order, and two counts: the number that the next
event will get, and how many events have been dispatched. -/
structure Scheduler (α : Type) where
  clock : Clock α
  pending : List (Event α)
  nextSeq : Nat
  dispatched : Nat
deriving DecidableEq, Repr

namespace Scheduler

variable {α : Type} [Arithmetic α]

def empty : Scheduler α := ⟨Clock.zero, [], 0, 0⟩

def now (s : Scheduler α) : α := s.clock.now

/-- Accept a wake-up without looking at its time. -/
def enqueue (agent : AgentId) (time : α) (s : Scheduler α) : Event α × Scheduler α :=
  let event : Event α := ⟨time, s.nextSeq, agent⟩
  (event, { s with pending := event.insert s.pending, nextSeq := s.nextSeq + 1 })

/-- Schedule a wake-up at a time, which must be finite and not before the present. -/
def scheduleAt (agent : AgentId) (time : α) (s : Scheduler α) :
    Except (SimulationError α) (Event α × Scheduler α) :=
  if s.now ≤ time then
    if Arithmetic.isFinite time then .ok (s.enqueue agent time) else .error (.invalidDelay time)
  else .error (.timeReversal s.now time)

/-- Schedule a wake-up after a delay, which must be finite and not negative; the time
it leads to must be finite too. -/
def schedule (agent : AgentId) (delay : α) (s : Scheduler α) :
    Except (SimulationError α) (Event α × Scheduler α) :=
  if 0 ≤ delay ∧ Arithmetic.isFinite delay then s.scheduleAt agent (s.now + delay)
  else .error (.invalidDelay delay)

def isIdle (s : Scheduler α) : Bool := s.pending.isEmpty

def peekTime? (s : Scheduler α) : Option α := s.pending.head?.map (·.time)

def next (s : Scheduler α) : Except (SimulationError α) (Option (Event α × Scheduler α)) :=
  match s.pending with
  | [] => .ok none
  | event :: pending =>
    match s.clock.advanceTo event.time with
    | .error e => .error e
    | .ok clock => .ok (some (event, { s with clock, pending, dispatched := s.dispatched + 1 }))

end Scheduler

end Queueing
