import Queueing.Binary64.Basic

/-!
# JSON values

The tree of a JSON document. Numbers keep apart integers and reals, since a field for a
count refuses a real. The *canonical* form of a value has the members of every object
sorted by key, so that it does not depend on the order in which members were given.
-/

namespace Queueing.Json

/-- A number of a document: an integer of at most 64 bits, or a real. -/
inductive Number where
  | integer (i : Int)
  | real (x : Binary64)
deriving DecidableEq, Repr

/-- A JSON value. -/
inductive Value where
  | null
  | bool (b : Bool)
  | number (n : Number)
  | string (s : String)
  | array (items : List Value)
  | object (members : List (String × Value))
deriving Repr

namespace Value

instance : Inhabited Value := ⟨.null⟩

def ofNat (n : Nat) : Value := .number (.integer n)

/-- A real; infinities and NaNs have no numeral and become null. -/
def ofReal (x : Binary64) : Value := if x.isFinite then .number (.real x) else .null

def ofOption {α : Type} (f : α → Value) : Option α → Value
  | some a => f a
  | none => .null

/-! ## Canonical form -/

/-- Put a member into a list sorted by key; it gives way to a member with this key. -/
def insertMember (key : String) (value : Value) : List (String × Value) → List (String × Value)
  | [] => [(key, value)]
  | (k, v) :: rest =>
    if key < k then (key, value) :: (k, v) :: rest
    else if key = k then (k, v) :: rest
    else (k, v) :: insertMember key value rest

/-- Members sorted by key; of members with equal keys the last one counts. Members that
are sorted already are found so in one pass. -/
def sortMembers (members : List (String × Value)) : List (String × Value) :=
  members.foldr (fun m sorted => insertMember m.1 m.2 sorted) []

mutual

def canonical : Value → Value
  | .array items => .array (canonicalItems items)
  | .object members => .object (sortMembers (canonicalMembers members))
  | v => v

def canonicalItems : List Value → List Value
  | [] => []
  | v :: rest => canonical v :: canonicalItems rest

def canonicalMembers : List (String × Value) → List (String × Value)
  | [] => []
  | (k, v) :: rest => (k, canonical v) :: canonicalMembers rest

end

/-! ## Access -/

def member? (key : String) : Value → Option Value
  | .object members => members.lookup key
  | _ => none

def nat? : Value → Option Nat
  | .number (.integer i) => if 0 ≤ i then some i.toNat else none
  | _ => none

def word? (v : Value) : Option UInt64 := v.nat?.map UInt64.ofNat

def real? : Value → Option Binary64
  | .number (.real x) => some x
  | _ => none

def string? : Value → Option String
  | .string s => some s
  | _ => none

def array? {α : Type} (f : Value → Option α) : Value → Option (List α)
  | .array items => items.mapM f
  | _ => none

def option? {α : Type} (f : Value → Option α) : Value → Option (Option α)
  | .null => some none
  | v => (f v).map some

end Value

end Queueing.Json
