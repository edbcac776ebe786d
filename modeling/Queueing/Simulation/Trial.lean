import Queueing.Simulation.Network

/-!
# Trials

A trial is a network of one source and one server, each with a random stream of its
own, that starts at time zero and runs until nothing is left to happen. It is reported
by what was observed.
-/

namespace Queueing

/-- The parameters of a trial. -/
structure TrialConfig (α : Type) where
  /-- How many customers arrive. -/
  customers : UInt64
  arrivalRate : α
  serviceRate : α
  /-- The seed from which the streams are derived. -/
  seed : UInt64
deriving DecidableEq, Repr

def defaultSeed : UInt64 := 12345

/-- What was observed in a trial. -/
structure TrialReport (α : Type) where
  result : TrialResult α
  /-- How many customers arrived. -/
  arrivals : Nat
  /-- How many customers completed service. -/
  completed : Nat
  /-- The time of the last event. -/
  finalTime : α
  /-- How many events were dispatched. -/
  events : Nat
  /-- The longest queue, without the customer in service. -/
  peakQueue : Nat
  sojourn : Summary α
deriving DecidableEq, Repr

section

variable {α : Type} [Arithmetic α]

/-- A rate must be finite and strictly positive. -/
def checkRate (name : String) (rate : α) : Except (SimulationError α) Unit :=
  if isRate rate then .ok () else .error (.invalidParameter name (.notRate rate))

/-- A count must be at least one. -/
def checkCount (name : String) (count : UInt64) : Except (SimulationError α) Unit :=
  if count = 0 then .error (.invalidParameter name .belowOne) else .ok ()

namespace TrialConfig

/-- Check the parameters before anything is simulated. The queue need not be stable: a
finite number of customers leaves it after all. -/
def validate (c : TrialConfig α) : Except (SimulationError α) Unit := do
  checkCount "customers" c.customers
  checkRate "arrival_rate" c.arrivalRate
  checkRate "service_rate" c.serviceRate

def source (c : TrialConfig α) : Source α :=
  Source.fresh c.customers.toNat c.arrivalRate (Xorshift.ofSeed (deriveSeed c.seed "arrival" 0))

def server (c : TrialConfig α) : Server α :=
  Server.fresh c.serviceRate (Xorshift.ofSeed (deriveSeed c.seed "service" 0))

def network (c : TrialConfig α) : Network α :=
  Network.ofAgents [.source c.source, .server c.server]

end TrialConfig

def TrialReport.ofFloor (f : Floor α) : TrialReport α where
  result := f.sojourns.result
  arrivals := f.channel.put
  completed := f.sojourns.completed
  finalTime := f.now
  events := f.scheduler.dispatched
  peakQueue := f.channel.peak
  sojourn := f.sojourns.summary

def runTrial (c : TrialConfig α) : Except (Failure α) (TrialReport α) := do
  c.validate.mapError .error
  let network ← c.network.spawn.mapError .error
  let run := network.run
  match run.ending with
  | .failed cause => .error cause
  | .rested | .unfinished => .ok (TrialReport.ofFloor run.state.floor)

end

end Queueing
