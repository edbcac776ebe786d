import Queueing.Forms.Statistics
import Queueing.Simulation.Trial

/-!
# Documents of simulations

The forms of clocks, events, customers, phases, generators and trials.
-/

namespace Queueing

open Json

variable {α : Type} [Form α]

instance : Form (Clock α) where
  shape := .record (.plain "struct SimClock"
    [.required "now" (shapeOf α), .required "start" (shapeOf α)])
  write c := .object [("now", Form.write c.now), ("start", Form.write c.start)]
  ofValue? v := do pure ⟨← field? "now" v, ← field? "start" v⟩

instance : Form AgentId where
  shape := sizeShape
  write id := Value.ofNat id.index
  ofValue? v := v.nat?.map AgentId.mk

instance : Form (Event α) where
  shape := .record (.plain "struct ScheduledEvent"
    [.required "time" (shapeOf α), .required "seq" (shapeOf Nat),
      .required "process" (shapeOf AgentId)])
  write e := .object
    [("time", Form.write e.time), ("seq", Form.write e.seq), ("process", Form.write e.agent)]
  ofValue? v := do pure ⟨← field? "time" v, ← field? "seq" v, ← field? "process" v⟩

instance : Form (Customer α) where
  shape := .record (.plain "struct ArrivalRecord"
    [.required "customer" (shapeOf Nat), .required "arrived_at" (shapeOf α)])
  write c := .object
    [("customer", Form.write c.number), ("arrived_at", Form.write c.arrivedAt)]
  ofValue? v := do pure ⟨← field? "customer" v, ← field? "arrived_at" v⟩

/-- All phases, in the order in which messages list them. -/
def Phase.all : List Phase := [.running, .awaitingTimer, .awaitingChannel, .done]

instance : Form Phase where
  shape := .choice (Phase.all.map fun p => (p.name, none))
  write p := .string p.name
  ofValue? v := do
    let name ← v.string?
    Phase.all.find? (·.name = name)

instance : Form Xorshift where
  shape := .record (.plain "struct RngManager" [.required "state" (shapeOf UInt64)])
  write g := .object [("state", Form.write g.state)]
  ofValue? v := do pure ⟨← field? "state" v⟩

instance : Form (TrialConfig α) where
  shape := .record (.plain "struct TrialConfig"
    [.required "customers" (shapeOf UInt64), .required "arrival_rate" (shapeOf α),
      .required "service_rate" (shapeOf α), .required "rng_seed" (shapeOf UInt64)])
  write c := .object
    [("customers", Form.write c.customers), ("arrival_rate", Form.write c.arrivalRate),
      ("service_rate", Form.write c.serviceRate), ("rng_seed", Form.write c.seed)]
  ofValue? v := do
    pure ⟨← field? "customers" v, ← field? "arrival_rate" v, ← field? "service_rate" v,
      ← field? "rng_seed" v⟩

instance : Form (TrialReport α) where
  shape := .record (.plain "struct TrialReport"
    [.required "result" (shapeOf (TrialResult α)), .required "arrivals" (shapeOf Nat),
      .required "completed" (shapeOf Nat), .required "final_time" (shapeOf α),
      .required "events_dispatched" (shapeOf Nat), .required "peak_queue_length" sizeShape,
      .required "sojourn" (shapeOf (Summary α))])
  write r := .object
    [("result", Form.write r.result), ("arrivals", Form.write r.arrivals),
      ("completed", Form.write r.completed), ("final_time", Form.write r.finalTime),
      ("events_dispatched", Form.write r.events), ("peak_queue_length", Form.write r.peakQueue),
      ("sojourn", Form.write r.sojourn)]
  ofValue? v := do
    pure ⟨← field? "result" v, ← field? "arrivals" v, ← field? "completed" v,
      ← field? "final_time" v, ← field? "events_dispatched" v, ← field? "peak_queue_length" v,
      ← field? "sojourn" v⟩

end Queueing
