import Queueing.Json.Check
import Queueing.Json.Writer

/-!
# Document forms of types

The form of a type says which documents stand for its values, how a value is written,
and which value a document of the right shape stands for.
-/

namespace Queueing.Json

/-- The documents of a type. -/
class Form (τ : Type) where
  shape : Shape
  /-- The document of a value. -/
  write : τ → Value
  /-- The value of a document that has the shape. -/
  ofValue? : Value → Option τ

def shapeOf (τ : Type) [Form τ] : Shape := @Form.shape τ _

def read (τ : Type) [Form τ] (text : String) : Except ReadError τ :=
  match (shapeOf τ).read text with
  | .error e => .error e
  | .ok v =>
    match Form.ofValue? v with
    | some x => .ok x
    | none => .error .malformed

def field? {τ : Type} [Form τ] (key : String) (v : Value) : Option τ :=
  v.member? key >>= Form.ofValue?

section Writing

variable {τ : Type} [Form τ]

def compact (x : τ) : String := (Form.write x).compact

def pretty (x : τ) : String := (Form.write x).pretty

def digest (x : τ) : String := (Form.write x).digest

end Writing

/-! ## Forms of plain values -/

/-- Every document is a value of its own. -/
instance : Form Value where
  shape := .any
  write v := v
  ofValue? := some

instance : Form Binary64 where
  shape := .real
  write := Value.ofReal
  ofValue? := Value.real?

instance : Form Nat where
  shape := .count "u64"
  write := Value.ofNat
  ofValue? := Value.nat?

instance : Form UInt64 where
  shape := .count "u64"
  write n := Value.ofNat n.toNat
  ofValue? := Value.word?

instance : Form String where
  shape := .text
  write := .string
  ofValue? := Value.string?

instance {τ : Type} [Form τ] : Form (List τ) where
  shape := .list (shapeOf τ)
  write xs := .array (xs.map Form.write)
  ofValue? := Value.array? Form.ofValue?

/-- A value that may be missing is null when it is. As a field it is declared optional. -/
instance {τ : Type} [Form τ] : Form (Option τ) where
  shape := shapeOf τ
  write := Value.ofOption Form.write
  ofValue? := Value.option? Form.ofValue?

/-- A count that stands for a place or a length. -/
def sizeShape : Shape := .count "usize"

end Queueing.Json
