import Queueing.Decimal.Numeral

/-!
# Options of the command line

The arguments of the program are options, in any order and each at most once. An option
is given by its name after two dashes, or by its letter after one. The value of an option
is the next argument, or it is attached: after an equals sign to a name, and directly or
after an equals sign to a letter. A value that is an argument of its own must not look
like an option. Names cannot be shortened.

Arguments are read from left to right. The first problem, or the first request for help
or for the version, decides what happens.
-/

namespace Queueing.CommandLine

/-- A setting, which is given with a value. -/
inductive Setting where
  | config
  | customers
  | arrivalRate
  | serviceRate
  | trials
  | seed
  | workers
deriving DecidableEq, Repr

/-- What an option asks for. -/
inductive Flag where
  | setting (s : Setting)
  /-- Print the whole report as a document. -/
  | json
  | help
  | version
deriving DecidableEq, Repr

/-- All options, in the order in which the help lists them. -/
def Flag.all : List Flag :=
  [.setting .config, .setting .customers, .setting .arrivalRate, .setting .serviceRate,
    .setting .trials, .setting .seed, .setting .workers, .json, .help, .version]

def Setting.name : Setting → String
  | .config => "config"
  | .customers => "customers"
  | .arrivalRate => "arrival-rate"
  | .serviceRate => "service-rate"
  | .trials => "trials"
  | .seed => "seed"
  | .workers => "workers"

def Flag.name : Flag → String
  | .setting s => s.name
  | .json => "json"
  | .help => "help"
  | .version => "version"

def Flag.letter? : Flag → Option Char
  | .setting .config => some 'c'
  | .setting .customers => some 'n'
  | .setting .arrivalRate => some 'l'
  | .setting .serviceRate => some 'm'
  | .setting .trials => some 't'
  | .setting .seed => none
  | .setting .workers => some 'w'
  | .json => none
  | .help => some 'h'
  | .version => some 'V'

/-! ## Settings that were given -/

/-- The options that were given, with their values. -/
structure Options where
  /-- The path of a configuration file. -/
  config : Option String
  customers : Option UInt64
  arrivalRate : Option Binary64
  serviceRate : Option Binary64
  trials : Option UInt64
  seed : Option UInt64
  workers : Option UInt64
  json : Bool
deriving DecidableEq, Repr

/-- Why the arguments are refused. -/
inductive UsageError where
  | unexpected (arg : String)
  | repeated (flag : Flag)
  | missingValue (setting : Setting)
  | invalidValue (setting : Setting) (value : String)
  | needlessValue (flag : Flag) (value : String)
deriving DecidableEq, Repr

namespace Options

def empty : Options := ⟨none, none, none, none, none, none, none, false⟩

def has (s : Setting) (o : Options) : Bool :=
  match s with
  | .config => o.config.isSome
  | .customers => o.customers.isSome
  | .arrivalRate => o.arrivalRate.isSome
  | .serviceRate => o.serviceRate.isSome
  | .trials => o.trials.isSome
  | .seed => o.seed.isSome
  | .workers => o.workers.isSome

/-- The count written by a value, which may start with a plus sign. -/
def count? (value : String) : Option UInt64 :=
  match value.toList with
  | '+' :: cs => Decimal.word? cs
  | cs => Decimal.word? cs

/-- The path written by a value, which must not be empty. -/
def path? (value : String) : Option String := if value = "" then none else some value

def put? (s : Setting) (value : String) (o : Options) : Option Options :=
  match s with
  | .config => (path? value).map fun x => { o with config := some x }
  | .customers => (count? value).map fun x => { o with customers := some x }
  | .arrivalRate => (Decimal.real? value).map fun x => { o with arrivalRate := some x }
  | .serviceRate => (Decimal.real? value).map fun x => { o with serviceRate := some x }
  | .trials => (count? value).map fun x => { o with trials := some x }
  | .seed => (count? value).map fun x => { o with seed := some x }
  | .workers => (count? value).map fun x => { o with workers := some x }

/-- Give a setting a value, for the first time. -/
def give (s : Setting) (value : String) (o : Options) : Except UsageError Options :=
  if o.has s then .error (.repeated (.setting s))
  else
    match o.put? s value with
    | some o => .ok o
    | none => .error (.invalidValue s value)

end Options

/-! ## Arguments -/

/-- What a single argument is. -/
inductive Argument where
  /-- Two dashes alone, after which there are no options. -/
  | separator
  | option (flag : Flag) (attached : Option String)
  /-- No option of the program. -/
  | other
deriving DecidableEq, Repr

def splitAtEquals (cs : List Char) : String × Option String :=
  let name := String.ofList (cs.takeWhile (· != '='))
  match cs.dropWhile (· != '=') with
  | [] => (name, none)
  | _ :: value => (name, some (String.ofList value))

def attachedToLetter : List Char → Option String
  | [] => none
  | '=' :: cs => some (String.ofList cs)
  | cs => some (String.ofList cs)

/-- Recognise an argument. What follows the letter of an option without a value does not
matter, since only help and version have such letters. -/
def Argument.ofText (arg : String) : Argument :=
  match arg.toList with
  | ['-', '-'] => .separator
  | '-' :: '-' :: cs =>
    let (name, attached) := splitAtEquals cs
    match Flag.all.find? (·.name = name) with
    | some flag => .option flag attached
    | none => .other
  | '-' :: c :: cs =>
    match Flag.all.find? (·.letter? = some c) with
    | some (.setting s) => .option (.setting s) (attachedToLetter cs)
    | some flag => .option flag none
    | none => .other
  | _ => .other

/-- An argument that cannot be the value of the option before it. A single dash can. -/
def looksLikeOption (arg : String) : Bool :=
  match arg.toList with
  | '-' :: _ :: _ => true
  | _ => false

/-! ## The request -/

/-- What the arguments ask for. -/
inductive Request where
  | simulate (o : Options)
  | help
  | version
deriving DecidableEq, Repr

namespace Request

def after : Options → List String → Except UsageError Request
  | o, [] => .ok (.simulate o)
  | o, arg :: rest =>
    match Argument.ofText arg with
    | .separator =>
      match rest with
      | [] => .ok (.simulate o)
      | extra :: _ => .error (.unexpected extra)
    | .other => .error (.unexpected arg)
    | .option (.setting s) (some value) =>
      match o.give s value with
      | .ok o => after o rest
      | .error e => .error e
    | .option (.setting s) none =>
      match rest with
      | [] => .error (.missingValue s)
      | value :: rest =>
        if looksLikeOption value then .error (.missingValue s)
        else
          match o.give s value with
          | .ok o => after o rest
          | .error e => .error e
    | .option flag (some value) => .error (.needlessValue flag value)
    | .option .json none =>
      if o.json then .error (.repeated .json) else after { o with json := true } rest
    | .option .help none => .ok .help
    | .option .version none => .ok .version

def ofArguments (args : List String) : Except UsageError Request := after .empty args

end Request

end Queueing.CommandLine
