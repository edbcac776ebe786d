import Queueing.Simulation.Scheduler
import Queueing.Simulation.Run

/-!
# Scripted runs of a scheduler

A script says what happens at each event of a run: the first list of actions at the
first event, and so on. It stands for any reaction to events, and running it shows what
a scheduler does under any sequence of requests made while it dispatches.
-/

namespace Queueing

/-- A request made while an event is dispatched. -/
inductive Action (α : Type) where
  | schedule (agent : AgentId) (delay : α)
  | scheduleAt (agent : AgentId) (time : α)
  /-- Abort the run. -/
  | fail (detail : String)
deriving DecidableEq, Repr

/-- The actions of a run, one list for each event. -/
abbrev Script (α : Type) := List (List (Action α))

namespace Scheduler

variable {α : Type} [Arithmetic α]

def perform (s : Scheduler α) : Action α → Except (SimulationError α) (Scheduler α)
  | .schedule agent delay => (s.schedule agent delay).map (·.2)
  | .scheduleAt agent time => (s.scheduleAt agent time).map (·.2)
  | .fail detail => .error (.agentInvariant (.stated detail))

/-- Perform actions up to the first that fails. -/
def performAll : List (Action α) → Scheduler α → Scheduler α × Option (SimulationError α)
  | [], s => (s, none)
  | a :: rest, s =>
    match s.perform a with
    | .error e => (s, some e)
    | .ok s => performAll rest s

def scriptStep : Scheduler α × Script α →
    Step α (Scheduler α × Script α) (SimulationError α)
  | (s, script) =>
    match s.next with
    | .error e => .failed none e (s, script)
    | .ok none => .rest
    | .ok (some (event, s)) =>
      match performAll (script.headD []) s with
      | (s, some e) => .failed (some event) e (s, script.tail)
      | (s, none) => .moved event (s, script.tail)

/-- Run under a script. Every event was pending at first or comes from an action, so
their number bounds the run. -/
def runScript (script : Script α) (s : Scheduler α) :
    Run α (Scheduler α × Script α) (SimulationError α) :=
  Run.of scriptStep (s.pending.length + script.flatten.length) (s, script)

end Scheduler

end Queueing
