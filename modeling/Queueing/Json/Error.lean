import Queueing.Decimal.Layout
import Queueing.Text.Quoted

/-!
# What is wrong with a document

A document is refused because its text is not JSON (`malformed`), or because it does not
have the shape that was asked for. Only the latter says more.
-/

namespace Queueing.Json

/-- What was found in place of something else. -/
inductive Found where
  | null
  | bool (b : Bool)
  | integer (i : Int)
  | real (x : Binary64)
  | string (s : String)
  | sequence
  | map
  /-- The bare name of a variant that needs a value. -/
  | unitVariant
deriving DecidableEq, Repr

/-- The first problem of a document. -/
inductive ReadError where
  | malformed
  | unknownField (name : String) (expected : List String)
  | missingField (name : String)
  | duplicateField (name : String)
  | unknownVariant (name : String) (expected : List String)
  | invalidType (found : Found) (expected : String)
  | invalidValue (found : Int) (expected : String)
  | invalidLength (length : Nat) (expected : String)
deriving DecidableEq, Repr

/-! ## Wording -/

def Found.text : Found → String
  | .null => "null"
  | .bool b => "boolean \x60" ++ (if b then "true" else "false") ++ "\x60"
  | .integer i => "integer \x60" ++ toString i ++ "\x60"
  | .real x => "floating point \x60" ++ Decimal.Layout.document.text x ++ "\x60"
  | .string s => "string " ++ Text.quote s
  | .sequence => "sequence"
  | .map => "map"
  | .unitVariant => "unit variant"

def setOff (name : String) : String := "\x60" ++ name ++ "\x60"

/-- A choice of names: one, either of two, or one of a list. -/
def choices : List String → String
  | [a] => setOff a
  | [a, b] => setOff a ++ " or " ++ setOff b
  | names => "one of " ++ String.intercalate ", " (names.map setOff)

def elements (n : Nat) : String := if n = 1 then "1 element" else toString n ++ " elements"

def ReadError.message : ReadError → String
  | .malformed => "malformed JSON"
  | .unknownField name expected =>
    "unknown field " ++ setOff name ++ ", expected " ++ choices expected
  | .missingField name => "missing field " ++ setOff name
  | .duplicateField name => "duplicate field " ++ setOff name
  | .unknownVariant name expected =>
    "unknown variant " ++ setOff name ++ ", expected " ++ choices expected
  | .invalidType found expected => "invalid type: " ++ found.text ++ ", expected " ++ expected
  | .invalidValue found expected =>
    "invalid value: integer " ++ setOff (toString found) ++ ", expected " ++ expected
  | .invalidLength length expected =>
    "invalid length " ++ toString length ++ ", expected " ++ expected

end Queueing.Json
