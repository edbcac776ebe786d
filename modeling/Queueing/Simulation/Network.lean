import Queueing.Simulation.Agent
import Queueing.Simulation.Run

/-!
# Networks of agents

Any number of sources and servers on one floor. The network is driven by the events of
its scheduler: each one resumes the agent for which it was scheduled.
-/

namespace Queueing

/-- The floor and the agents, numbered by their place. -/
structure Network (α : Type) where
  floor : Floor α
  agents : List (Agent α)
deriving DecidableEq, Repr

namespace Network

variable {α : Type} [Arithmetic α]

/-- Agents on a fresh floor, none of which is scheduled. -/
def ofAgents (agents : List (Agent α)) : Network α := ⟨Floor.empty, agents⟩

/-- Wake every agent at the present time, in the order of their numbers. -/
def spawn (n : Network α) : Except (SimulationError α) (Network α) :=
  (List.range n.agents.length).foldlM (fun n i => do
    let (_, floor) ← n.floor.schedule ⟨i⟩ 0
    pure { n with floor }) n

def resume (id : AgentId) (n : Network α) : Network α × Except (Failure α) Phase :=
  match n.agents[id.index]? with
  | none => (n, .error (.error (.agentInvariant (.unregistered id))))
  | some agent =>
    let turn := agent.resume id n.floor
    (⟨turn.floor, n.agents.set id.index turn.agent⟩, turn.result)

def step (n : Network α) : Step α (Network α) (Failure α) :=
  match n.floor.scheduler.next with
  | .error e => .failed none (.error e) n
  | .ok none => .rest
  | .ok (some (event, scheduler)) =>
    match resume event.agent { n with floor := { n.floor with scheduler } } with
    | (n, .error cause) => .failed (some event) cause n
    | (n, .ok _) => .moved event n

omit [Arithmetic α] in
/-- How many events an agent can still cause by itself: a customer that is yet to be
generated costs at most its arrival, the wake-up of a server, and its departure. A
source that awaits its timer has scheduled the next arrival already. -/
def agentWork : Agent α → Nat
  | .source s =>
    if s.phase = .awaitingTimer then 3 * (s.limit - s.generated) - 1
    else 3 * (s.limit - s.generated)
  | .server _ => 0

/-- A bound on the events that can still be dispatched: those that are pending, one for
each customer in the channel, and those that the sources can still cause. -/
def work (n : Network α) : Nat :=
  n.floor.scheduler.pending.length + n.floor.channel.size + n.floor.channel.inFlight
    + n.agents.foldr (fun a total => agentWork a + total) 0

/-- Dispatch events until none is pending or an agent fails. -/
def run (n : Network α) : Run α (Network α) (Failure α) := Run.of step n.work n

end Network

end Queueing
