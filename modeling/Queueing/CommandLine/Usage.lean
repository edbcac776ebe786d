import Queueing.CommandLine.Options

/-!
# Help and refusals

What the program says about itself, and about arguments that it does not take.
-/

namespace Queueing.CommandLine

def programName : String := "mm1-sim"

def versionLine : String := programName ++ " 0.1.0\n"

def usageLine : String := "Usage: " ++ programName ++ " [OPTIONS]\n"

def Flag.explanation : Flag → String
  | .setting .config => "JSON experiment config; command-line flags override its values"
  | .setting .customers => "Customers per trial"
  | .setting .arrivalRate => "Arrival rate (lambda)"
  | .setting .serviceRate => "Service rate (mu), must exceed the arrival rate"
  | .setting .trials => "Number of independent trials"
  | .setting .seed =>
    "Random seed for reproducible results. When omitted, a random seed is used"
  | .setting .workers => "Worker threads (defaults to available parallelism)"
  | .json => "Print the full report as JSON instead of a single line"
  | .help => "Print help"
  | .version => "Print version"

/-- What stands for the value of a setting: its name in capitals. -/
def Setting.placeholder (s : Setting) : String :=
  String.ofList (s.name.toList.map fun c => if c = '-' then '_' else c.toUpper)

def Flag.spelling (f : Flag) : String :=
  match f with
  | .setting s => "--" ++ s.name ++ " <" ++ s.placeholder ++ ">"
  | f => "--" ++ f.name

/-- The line of the help for one option; the explanations stand below each other. -/
def Flag.helpLine (f : Flag) : String :=
  let letter := match f.letter? with
    | some c => "-" ++ String.singleton c ++ ", "
    | none => "    "
  let spelled := letter ++ f.spelling
  "  " ++ spelled ++ String.ofList (List.replicate (35 - spelled.length) ' ') ++ f.explanation ++ "\n"

def helpText : String :=
  "M/M/1 queue simulator\n\n" ++ usageLine ++ "\nOptions:\n"
    ++ String.join (Flag.all.map Flag.helpLine)

def UsageError.message : UsageError → String
  | .unexpected arg => "unexpected argument '" ++ arg ++ "' found"
  | .repeated flag => "the argument '" ++ flag.spelling ++ "' cannot be used multiple times"
  | .missingValue s =>
    "a value is required for '" ++ (Flag.setting s).spelling ++ "' but none was supplied"
  | .invalidValue s value =>
    "invalid value '" ++ value ++ "' for '" ++ (Flag.setting s).spelling ++ "'"
  | .needlessValue flag value =>
    "unexpected value '" ++ value ++ "' for '" ++ flag.spelling ++ "' found; no more were expected"

def UsageError.text (e : UsageError) : String :=
  "error: " ++ e.message ++ "\n\n" ++ usageLine ++ "\nFor more information, try '--help'.\n"

end Queueing.CommandLine
