import Queueing.Json.Error
import Queueing.Json.Value

/-!
# Shapes of documents

A shape says which documents stand for the values of a type.

A record can be given as an object, or as an array of its fields in the order of their
declaration. A choice is the name of one of its variants, or an object with the name as
its only key. A tagged choice is an object in which one field names the variant and the
others are its fields.
-/

namespace Queueing.Json

mutual

/-- What a document must look like. -/
inductive Shape where
  /-- Any document. -/
  | any
  /-- A count, under the name that messages give its type. -/
  | count (type : String)
  | real
  | text
  | list (item : Shape)
  | record (r : Record)
  /-- Variants by name; a bare variant has no value. -/
  | choice (variants : List (String × Option Shape))
  /-- A title, the field that names the variant, and the variants by name. -/
  | tagged (title tag : String) (variants : List (String × Record))

/-- The fields of a record, under the title that messages give it. -/
inductive Record where
  /-- In a `lenient` record missing fields take their defaults also in an array; a
  `strict` record refuses fields that it does not know. -/
  | mk (title : String) (lenient strict : Bool) (fields : List Field)

/-- A field, and what it stands for when it is missing. A field that is `nullable` takes
null besides its shape. -/
inductive Field where
  | mk (name : String) (shape : Shape) (nullable : Bool) (default : Option Value)

end

namespace Field

def name : Field → String
  | .mk name _ _ _ => name

def shape : Field → Shape
  | .mk _ shape _ _ => shape

def nullable : Field → Bool
  | .mk _ _ nullable _ => nullable

def default : Field → Option Value
  | .mk _ _ _ default => default

def required (name : String) (shape : Shape) : Field := .mk name shape false none

/-- A field that may be null, which is also what a missing one stands for. -/
def optional (name : String) (shape : Shape) : Field := .mk name shape true (some .null)

def defaulting (name : String) (shape : Shape) (value : Value) : Field :=
  .mk name shape false (some value)

end Field

namespace Record

def title : Record → String
  | .mk title _ _ _ => title

def lenient : Record → Bool
  | .mk _ lenient _ _ => lenient

def strict : Record → Bool
  | .mk _ _ strict _ => strict

def fields : Record → List Field
  | .mk _ _ _ fields => fields

/-- A record whose fields must all be given and that skips what it does not know. -/
def plain (title : String) (fields : List Field) : Record := .mk title false false fields

def expected (r : Record) : String := r.title ++ " with " ++ elements r.fields.length

end Record

end Queueing.Json
