import Queueing.Json.Form
import Queueing.Statistics.Aggregate
import Queueing.Statistics.Sojourns

/-!
# Documents of statistics

The forms of summaries, sojourn times, results and aggregates.
-/

namespace Queueing

open Json

variable {α : Type} [Form α]

instance : Form (Summary α) where
  shape := .record (.plain "struct DataSummary"
    [.required "count" (shapeOf Nat), .optional "min" (shapeOf α), .optional "max" (shapeOf α),
      .required "m1" (shapeOf α), .required "m2" (shapeOf α), .required "m3" (shapeOf α),
      .required "m4" (shapeOf α)])
  write s := .object
    [("count", Form.write s.count), ("min", Form.write s.min), ("max", Form.write s.max),
      ("m1", Form.write s.m1), ("m2", Form.write s.m2), ("m3", Form.write s.m3),
      ("m4", Form.write s.m4)]
  ofValue? v := do
    pure ⟨← field? "count" v, ← field? "min" v, ← field? "max" v, ← field? "m1" v,
      ← field? "m2" v, ← field? "m3" v, ← field? "m4" v⟩

instance : Form (Sojourns α) where
  shape := .record (.plain "struct TrialStatistics"
    [.required "sum_sojourn" (shapeOf α), .required "completed" (shapeOf Nat),
      .required "sojourn" (shapeOf (Summary α))])
  write s := .object
    [("sum_sojourn", Form.write s.sum), ("completed", Form.write s.completed),
      ("sojourn", Form.write s.summary)]
  ofValue? v := do
    pure ⟨← field? "sum_sojourn" v, ← field? "completed" v, ← field? "sojourn" v⟩

instance : Form (TrialResult α) where
  shape := .choice [("MeanTimeInSystem", some (shapeOf α)), ("Degenerate", none)]
  write
    | .mean value => .object [("MeanTimeInSystem", Form.write value)]
    | .degenerate => .string "Degenerate"
  ofValue?
    | .string "Degenerate" => some .degenerate
    | v => (field? "MeanTimeInSystem" v).map TrialResult.mean

def Aggregate.record (α : Type) [Form α] : Record :=
  .plain "struct AggregateStatistics"
    [.required "n" sizeShape, .required "mean" (shapeOf α), .required "std_dev" (shapeOf α),
      .required "std_error" (shapeOf α), .required "ci_lower" (shapeOf α),
      .required "ci_upper" (shapeOf α), .required "min" (shapeOf α), .required "max" (shapeOf α)]

def Aggregate.members (a : Aggregate α) : List (String × Value) :=
  [("n", Form.write a.n), ("mean", Form.write a.mean), ("std_dev", Form.write a.stdDev),
    ("std_error", Form.write a.stdError), ("ci_lower", Form.write a.lower),
    ("ci_upper", Form.write a.upper), ("min", Form.write a.min), ("max", Form.write a.max)]

instance : Form (Aggregate α) where
  shape := .record (Aggregate.record α)
  write a := .object a.members
  ofValue? v := do
    pure ⟨← field? "n" v, ← field? "mean" v, ← field? "std_dev" v, ← field? "std_error" v,
      ← field? "ci_lower" v, ← field? "ci_upper" v, ← field? "min" v, ← field? "max" v⟩

end Queueing
