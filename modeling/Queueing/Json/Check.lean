import Queueing.Json.Reading
import Queueing.Json.Shape

/-!
# Checking a text against a shape

Checking the reading of a text against a shape gives the value that writing would give,
with all fields present and in the order of their declaration, or the first problem that
is met from left to right. A part that nobody asks for only has to be JSON.
-/

namespace Queueing.Json

/-! ## Leaves -/

/-- What a message says about a value that was not expected. A numeral beyond the
numbers and a string without characters are problems of their own. -/
def found : Reading → Except ReadError Found
  | .null => .ok .null
  | .bool b => .ok (.bool b)
  | .number n =>
    match n.number? with
    | some (.integer i) => .ok (.integer i)
    | some (.real x) => .ok (.real x)
    | none => .error .malformed
  | .string (some s) => .ok (.string s)
  | .string none => .error .malformed
  | .array _ _ => .ok .sequence
  | .object _ _ => .ok .map
  | .broken => .error .malformed

def refuse {α : Type} (expected : String) (r : Reading) : Except ReadError α :=
  match found r with
  | .error e => .error e
  | .ok f => .error (.invalidType f expected)

def checkCount (type : String) (r : Reading) : Except ReadError Value :=
  match r with
  | .number n =>
    match n.number? with
    | some (.integer i) =>
      if 0 ≤ i then .ok (.number (.integer i)) else .error (.invalidValue i type)
    | _ => refuse type r
  | r => refuse type r

def realOfInt (i : Int) : Binary64 :=
  if i < 0 then -(Binary64.ofNat i.natAbs) else Binary64.ofNat i.natAbs

/-- A real can be given by an integer. -/
def checkReal (r : Reading) : Except ReadError Value :=
  match r with
  | .number n =>
    match n.number? with
    | some (.integer i) => .ok (.number (.real (realOfInt i)))
    | some (.real x) => .ok (.number (.real x))
    | none => .error .malformed
  | r => refuse "f64" r

def checkString (expected : String) (r : Reading) : Except ReadError String :=
  match r with
  | .string (some s) => .ok s
  | r => refuse expected r

def checkKey : Reading → Except ReadError String
  | .string (some s) => .ok s
  | _ => .error .malformed

/-- What is skipped must at least be JSON. -/
def checkSkipped (r : Reading) : Except ReadError Unit :=
  if r.isWhole then .ok () else .error .malformed

def checkClosed (closed : Bool) : Except ReadError Unit :=
  if closed then .ok () else .error .malformed

/-! ## Records -/

def checkField (check : Shape → Reading → Except ReadError Value) (f : Field) (r : Reading) :
    Except ReadError Value :=
  if f.nullable then
    match r with
    | .null => .ok .null
    | r => check f.shape r
  else check f.shape r

/-- The values of the fields that were given, in the order of the text. -/
abbrev Given := List (String × Value)

def checkMember (check : Shape → Reading → Except ReadError Value) (r : Record) (given : Given)
    (member : Reading × Reading) : Except ReadError Given := do
  let key ← checkKey member.1
  match r.fields.find? (·.name = key) with
  | none =>
    if r.strict then throw (.unknownField key (r.fields.map Field.name))
    checkSkipped member.2
    pure given
  | some f =>
    if (given.lookup key).isSome then throw (.duplicateField key)
    let v ← checkField check f member.2
    pure ((key, v) :: given)

/-- A field with the value that was given for it, or else its default. -/
def settle (given : Given) (f : Field) : Except ReadError (String × Value) :=
  match given.lookup f.name, f.default with
  | some v, _ => .ok (f.name, v)
  | none, some v => .ok (f.name, v)
  | none, none => .error (.missingField f.name)

def checkMembers (check : Shape → Reading → Except ReadError Value) (r : Record)
    (members : List (Reading × Reading)) (closed : Bool) : Except ReadError Value := do
  let given ← members.foldlM (checkMember check r) []
  checkClosed closed
  (r.fields.mapM (settle given)).map .object

/-- What to say about a record that is given by too many elements: how many there are,
and how many there should be. -/
abbrev Surplus := Nat → Nat → ReadError

/-- The fields of a record given by elements, in order; `position` counts those that
went before. The elements that are left over are returned. -/
def checkElements (check : Shape → Reading → Except ReadError Value) (r : Record)
    (position : Nat) : List Field → List Reading → Bool →
      Except ReadError (List (String × Value) × List Reading)
  | [], items, _ => .ok ([], items)
  | f :: fields, item :: items, closed => do
    let v ← checkField check f item
    let (rest, surplus) ← checkElements check r (position + 1) fields items closed
    pure ((f.name, v) :: rest, surplus)
  | f :: fields, [], closed => do
    checkClosed closed
    match r.lenient, f.default with
    | true, some v =>
      let (rest, surplus) ← checkElements check r position fields [] closed
      pure ((f.name, v) :: rest, surplus)
    | _, _ => throw (.invalidLength position r.expected)

def checkSequence (surplus : Surplus) (check : Shape → Reading → Except ReadError Value)
    (r : Record) (items : List Reading) (closed : Bool) : Except ReadError Value := do
  let (members, rest) ← checkElements check r 0 r.fields items closed
  if rest ≠ [] then throw (surplus items.length r.fields.length)
  checkClosed closed
  pure (.object members)

/-- Elements after the last field make the text of an array malformed. -/
def Surplus.text : Surplus := fun _ _ => .malformed

def Surplus.counted : Surplus := fun n m => .invalidLength n (elements m ++ " in sequence")

/-! ## Choices -/

/-- A choice given by the bare name of a variant. -/
def checkName (variants : List (String × Option Shape)) (name : String) :
    Except ReadError Value :=
  match variants.lookup name with
  | none => .error (.unknownVariant name (variants.map (·.1)))
  | some none => .ok (.string name)
  | some (some _) => .error (.invalidType .unitVariant "newtype variant")

/-- A choice given by an object with one member. -/
def checkVariant (check : Shape → Reading → Except ReadError Value)
    (variants : List (String × Option Shape)) (members : List (Reading × Reading))
    (closed : Bool) : Except ReadError Value :=
  match members with
  | [] => .error .malformed
  | (key, item) :: rest => do
    let name ← checkKey key
    match variants.lookup name with
    | none => throw (.unknownVariant name (variants.map (·.1)))
    | some none =>
      match item with
      | .null => pure ()
      | item => refuse "unit" item
      checkClosed (closed && rest.isEmpty)
      pure (.string name)
    | some (some shape) =>
      let v ← check shape item
      checkClosed (closed && rest.isEmpty)
      pure (.object [(name, v)])

/-! ## Tagged choices -/

def checkTag (variants : List (String × Record)) (r : Reading) : Except ReadError (String × Record) := do
  let name ← checkString "variant identifier" r
  match variants.lookup name with
  | none => throw (.unknownVariant name (variants.map (·.1)))
  | some record => pure (name, record)

/-- One member of a tagged choice: the tag, or a field to be looked at later. -/
def checkTagMember (any : Reading → Except ReadError Value) (tag : String)
    (variants : List (String × Record))
    (state : Option (String × Record) × List (Reading × Reading))
    (member : Reading × Reading) :
    Except ReadError (Option (String × Record) × List (Reading × Reading)) := do
  let (chosen, others) := state
  let key ← checkKey member.1
  if key = tag then
    if chosen.isSome then throw (.duplicateField tag)
    pure (some (← checkTag variants member.2), others)
  else
    let _ ← any member.2
    pure (chosen, others ++ [member])

/-- The value of a tagged choice: the tag goes first. -/
def withTag (tag name : String) : Value → Value
  | .object members => .object ((tag, .string name) :: members)
  | v => v

/-- A tagged choice given by an object. The whole object is read before its fields are
looked at. -/
def checkTagged (check : Shape → Reading → Except ReadError Value) (tag : String)
    (variants : List (String × Record)) (members : List (Reading × Reading)) (closed : Bool) :
    Except ReadError Value := do
  let (chosen, others) ← members.foldlM (checkTagMember (check .any) tag variants) (none, [])
  checkClosed closed
  match chosen with
  | none => throw (.missingField tag)
  | some (name, record) => (checkMembers check record others true).map (withTag tag name)

/-- A tagged choice given by an array, with the tag as its first element. -/
def checkTaggedSequence (check : Shape → Reading → Except ReadError Value) (tag : String)
    (variants : List (String × Record)) (items : List Reading) (closed : Bool) :
    Except ReadError Value :=
  match items with
  | [] => do
    checkClosed closed
    throw (.missingField tag)
  | first :: others => do
    let (name, record) ← checkTag variants first
    let _ ← others.mapM (check .any)
    checkClosed closed
    (checkSequence .counted check record others true).map (withTag tag name)

/-! ## Checking -/

/-- Check a value against a shape. At most `depth` arrays and objects may be nested. -/
def check : Nat → Shape → Reading → Except ReadError Value
  | depth, shape, r =>
    match shape, r with
    | .count type, r => checkCount type r
    | .real, r => checkReal r
    | .text, r => (checkString "a string" r).map .string
    | .any, .null => .ok .null
    | .any, .bool b => .ok (.bool b)
    | .any, .number n =>
      match n.number? with
      | some n => .ok (.number n)
      | none => .error .malformed
    | .any, .string (some s) => .ok (.string s)
    | .any, .array items closed =>
      match depth with
      | 0 => .error .malformed
      | depth + 1 => do
        let values ← items.mapM (check depth .any)
        checkClosed closed
        pure (.array values)
    | .any, .object members closed =>
      match depth with
      | 0 => .error .malformed
      | depth + 1 => do
        let values ← members.mapM fun m => do
          pure (← checkKey m.1, ← check depth .any m.2)
        checkClosed closed
        pure (.object (Value.sortMembers values))
    | .any, _ => .error .malformed
    | .list item, .array items closed =>
      match depth with
      | 0 => .error .malformed
      | depth + 1 => do
        let values ← items.mapM (check depth item)
        checkClosed closed
        pure (.array values)
    | .list _, r => refuse "a sequence" r
    | .record record, .array items closed =>
      match depth with
      | 0 => .error .malformed
      | depth + 1 => checkSequence .text (check depth) record items closed
    | .record record, .object members closed =>
      match depth with
      | 0 => .error .malformed
      | depth + 1 => checkMembers (check depth) record members closed
    | .record record, r => refuse record.title r
    | .choice variants, .string (some name) => checkName variants name
    | .choice variants, .object members closed =>
      match depth with
      | 0 => .error .malformed
      | depth + 1 => checkVariant (check depth) variants members closed
    | .choice _, _ => .error .malformed
    | .tagged _ tag variants, .array items closed =>
      match depth with
      | 0 => .error .malformed
      | depth + 1 => checkTaggedSequence (check depth) tag variants items closed
    | .tagged _ tag variants, .object members closed =>
      match depth with
      | 0 => .error .malformed
      | depth + 1 => checkTagged (check depth) tag variants members closed
    | .tagged title _ _, r => refuse title r

def maxDepth : Nat := 127

/-- Read a text of a shape. Only blanks may follow the value. -/
def Shape.read (shape : Shape) (text : String) : Except ReadError Value :=
  let (r, ends) := Reading.ofText text
  match check maxDepth shape r with
  | .error e => .error e
  | .ok v => if ends then .ok v else .error .malformed

end Queueing.Json
