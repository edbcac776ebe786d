import Queueing.CommandLine.Files
import Queueing.CommandLine.Usage
import Queueing.Experiment.Run

/-!
# The program

A run of the program goes from its arguments to what it prints and an exit code. All that
it needs to know about the machine comes from a `Machine`, which can be a real one or a
function.
-/

namespace Queueing.CommandLine

/-- What the program asks of the machine it runs on. -/
structure Machine (m : Type → Type) where
  fileAt : String → m (Except FileError ByteArray)
  /-- A seed that nobody chose. -/
  freshSeed : m UInt64
  processors : m UInt64
  staffing : Staffing := .unlimited

/-- What a run of the program leaves behind. -/
structure Outcome where
  code : UInt32
  output : String
  errors : String
deriving DecidableEq, Repr

/-! ## The configuration -/

namespace Options

def override (o : Options) (c : ExperimentConfig Binary64) : ExperimentConfig Binary64 where
  customers := o.customers.getD c.customers
  arrivalRate := o.arrivalRate.getD c.arrivalRate
  serviceRate := o.serviceRate.getD c.serviceRate
  trials := o.trials.getD c.trials
  seed := o.seed.getD c.seed
  workers := o.workers <|> c.workers

/-- The configuration that the options ask for, given the document that they name, or a
seed to use if they name none. -/
def configure (o : Options) (source : String ⊕ UInt64) :
    Except (SimulationError Binary64) (ExperimentConfig Binary64) :=
  match source with
  | .inl text => (ExperimentConfig.ofText text).map o.override
  | .inr seed => .ok (o.override { ExperimentConfig.default with seed })

end Options

def documentText (path : String) (content : Except FileError ByteArray) :
    Except (SimulationError Binary64) String :=
  let refuse (e : FileError) := .error (.unreadableConfig (path ++ ": " ++ e.message))
  match content with
  | .error e => refuse e
  | .ok bytes =>
    match String.fromUTF8? bytes with
    | some text => .ok text
    | none => refuse .notText

/-! ## Running -/

def reportText (json : Bool) (r : ExperimentReport Binary64) : String :=
  (if json then Json.pretty r else r.line) ++ "\n"

def Outcome.ofReport (json : Bool) : Except (Failure Binary64) (ExperimentReport Binary64) → Outcome
  | .ok r => ⟨0, reportText json r, ""⟩
  | .error e => ⟨1, "", "Error: " ++ e.message ++ "\n"⟩

def Options.source {m : Type → Type} [Monad m] (machine : Machine m) (o : Options) :
    m (Except (SimulationError Binary64) (String ⊕ UInt64)) := do
  match o.config with
  | some path => pure ((documentText path (← machine.fileAt path)).map .inl)
  | none => pure (.ok (.inr (← machine.freshSeed)))

def simulate {m : Type → Type} [Monad m] (machine : Machine m) (o : Options) : m Outcome := do
  let source ← o.source machine
  let processors ← machine.processors
  pure (Outcome.ofReport o.json do
    let config ← (source >>= o.configure).mapError .error
    runExperiment processors config machine.staffing)

def run {m : Type → Type} [Monad m] (machine : Machine m) (args : List String) : m Outcome :=
  match Request.ofArguments args with
  | .error e => pure ⟨2, "", e.text⟩
  | .ok .help => pure ⟨0, helpText, ""⟩
  | .ok .version => pure ⟨0, versionLine, ""⟩
  | .ok (.simulate o) => simulate machine o

end Queueing.CommandLine
