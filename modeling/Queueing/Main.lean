import Queueing.CommandLine.Program

/-!
# The command

The program on a real machine.
-/

namespace Queueing.CommandLine

/-- The refusal of the system to read a file. Some calls negate its number. -/
def refusalOf : IO.Error → FileError
  | .noFileOrDirectory _ number description
  | .permissionDenied _ number description
  | .inappropriateType _ number description
  | .invalidArgument _ number description
  | .resourceExhausted _ number description
  | .noSuchThing _ number description =>
    FileError.ofNumber (min number (0 - number)).toNat description
  | e => .system (toString e) 0

/-- The number of processors that the system lists, at least one. -/
def listedProcessors : IO UInt64 := do
  try
    let text ← IO.FS.readFile "/proc/cpuinfo"
    let count := (text.splitOn "\n").countP (·.startsWith "processor")
    pure (UInt64.ofNat (max 1 count))
  catch _ => pure 1

def realMachine : Machine IO where
  fileAt path := do
    try
      let content ← IO.FS.readBinFile path
      pure (.ok content)
    catch e => pure (.error (refusalOf e))
  freshSeed := do
    let bytes ← IO.getRandomBytes 8
    pure (wordOfBytes bytes.data.toList)
  processors := listedProcessors

end Queueing.CommandLine

def main (args : List String) : IO UInt32 := do
  let outcome ← Queueing.CommandLine.run Queueing.CommandLine.realMachine args
  IO.print outcome.output
  IO.eprint outcome.errors
  pure outcome.code
