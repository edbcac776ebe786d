import Queueing.Simulation.Channel
import Queueing.Simulation.Scheduler
import Queueing.Statistics.Sojourns

/-!
# The floor

Customers enter the system, are served and leave. The agents that see to it share a floor:
the scheduler, the channel through which customers are handed over, and the statistics.
Only one agent acts at a time.
-/

namespace Queueing

/-- A customer's entry into the system. -/
structure Customer (α : Type) where
  /-- Customers are numbered from zero in the order of their arrival. -/
  number : Nat
  arrivedAt : α
deriving DecidableEq, Repr

def Customer.sojourn {α : Type} [Sub α] (departedAt : α) (c : Customer α) : α :=
  departedAt - c.arrivedAt

/-- Everything an agent may touch while it acts. -/
structure Floor (α : Type) where
  scheduler : Scheduler α
  channel : Channel (Customer α)
  sojourns : Sojourns α
deriving DecidableEq, Repr

namespace Floor

variable {α : Type} [Arithmetic α]

def empty : Floor α := ⟨Scheduler.empty, Channel.empty, Sojourns.empty⟩

def now (f : Floor α) : α := f.scheduler.now

def schedule (agent : AgentId) (delay : α) (f : Floor α) :
    Except (SimulationError α) (Event α × Floor α) :=
  match f.scheduler.schedule agent delay with
  | .error e => .error e
  | .ok (event, scheduler) => .ok (event, { f with scheduler })

/-- Put a customer into the channel. A consumer that waited for one is woken at the
present time, after everything that is already scheduled for it. -/
def send (customer : Customer α) (f : Floor α) : Floor α × Except (SimulationError α) Unit :=
  let (woken, channel) := f.channel.send customer
  let f := { f with channel }
  match woken with
  | none => (f, .ok ())
  | some consumer =>
    match f.schedule consumer 0 with
    | .error e => (f, .error e)
    | .ok (_, f) => (f, .ok ())

def receive (consumer : AgentId) (f : Floor α) : Option (Customer α) × Floor α :=
  let (customer, channel) := f.channel.receive consumer
  (customer, { f with channel })

def collect (consumer : AgentId) (f : Floor α) : Option (Customer α) × Floor α :=
  let (customer, channel) := f.channel.collect consumer
  (customer, { f with channel })

def complete (customer : Customer α) (f : Floor α) : Floor α :=
  { f with sojourns := f.sojourns.record (customer.sojourn f.now) }

end Floor

end Queueing
