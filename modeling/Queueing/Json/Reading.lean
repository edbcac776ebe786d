import Queueing.Json.Numeral

/-!
# Reading a text as far as it goes

A text is read from left to right into a tree. Where the text stops being JSON the tree
breaks off: a value is `broken`, and an array or object that holds it, or that is not
closed properly, is marked as open. A tree thus tells which problem of a text comes
first, and a part that is never looked at causes no problem of its own.

Two things are left to the reader of the tree: whether a numeral lies in the range of
numbers, and whether the escapes of a string make up characters.
-/

namespace Queueing.Json

/-- What was found where a value should stand. -/
inductive Reading where
  | null
  | bool (b : Bool)
  | number (n : Numeral)
  /-- A string, or nothing if its escapes hold half of a surrogate pair. -/
  | string (s : Option String)
  /-- The items, and whether all of them are whole and the array is closed. -/
  | array (items : List Reading) (closed : Bool)
  /-- The members, and whether all of them are whole and the object is closed. -/
  | object (members : List (Reading × Reading)) (closed : Bool)
  /-- No value. -/
  | broken
deriving Repr

namespace Reading

instance : Inhabited Reading := ⟨.broken⟩

def isWhole : Reading → Bool
  | .array _ closed => closed
  | .object _ closed => closed
  | .broken => false
  | _ => true

/-! ## Blanks -/

def isBlank (c : Char) : Bool := c == ' ' || c == '\t' || c == '\n' || c == '\r'

def skipBlanks (cs : List Char) : List Char := cs.dropWhile isBlank

/-! ## Strings -/

/-- A piece of a string: a character, or the 16-bit unit of a numeric escape. -/
inductive Piece where
  | char (c : Char)
  | unit (n : Nat)
deriving DecidableEq, Repr

def hexValue? (c : Char) : Option Nat :=
  if c.isDigit then some (c.toNat - '0'.toNat)
  else if 'a' ≤ c ∧ c ≤ 'f' then some (c.toNat - 'a'.toNat + 10)
  else if 'A' ≤ c ∧ c ≤ 'F' then some (c.toNat - 'A'.toNat + 10)
  else none

def shortEscape? (c : Char) : Option Char :=
  match c with
  | '"' => some '"'
  | '\\' => some '\\'
  | '/' => some '/'
  | 'b' => some '\x08'
  | 'f' => some '\x0c'
  | 'n' => some '\n'
  | 'r' => some '\r'
  | 't' => some '\t'
  | _ => none

/-- The pieces of a string after its opening quote, and what follows the closing one. -/
def pieces? : List Char → Option (List Piece × List Char)
  | [] => none
  | '"' :: cs => some ([], cs)
  | '\\' :: 'u' :: a :: b :: c :: d :: cs => do
    let unit := ((← hexValue? a) * 16 + (← hexValue? b)) * 256
      + ((← hexValue? c) * 16 + (← hexValue? d))
    let (pieces, rest) ← pieces? cs
    pure (.unit unit :: pieces, rest)
  | '\\' :: c :: cs => do
    let c ← shortEscape? c
    let (pieces, rest) ← pieces? cs
    pure (.char c :: pieces, rest)
  | c :: cs =>
    if c = '\\' ∨ c.toNat < 0x20 then none
    else do
      let (pieces, rest) ← pieces? cs
      pure (.char c :: pieces, rest)

def isHighSurrogate (n : Nat) : Bool := 0xD800 ≤ n && n < 0xDC00
def isLowSurrogate (n : Nat) : Bool := 0xDC00 ≤ n && n < 0xE000

/-- The characters made up by pieces: a high surrogate needs the low one that follows. -/
def assemble? : List Piece → Option (List Char)
  | [] => some []
  | .char c :: rest => (assemble? rest).map (c :: ·)
  | .unit high :: .unit low :: rest =>
    if isHighSurrogate high then
      if isLowSurrogate low then
        let c := Char.ofNat (0x10000 + (high - 0xD800) * 0x400 + (low - 0xDC00))
        (assemble? rest).map (c :: ·)
      else none
    else if isLowSurrogate high then none
    else (assemble? (.unit low :: rest)).map (Char.ofNat high :: ·)
  | .unit n :: rest =>
    if isHighSurrogate n || isLowSurrogate n then none
    else (assemble? rest).map (Char.ofNat n :: ·)

def ofString (cs : List Char) : Reading × Option (List Char) :=
  match pieces? cs with
  | none => (.broken, none)
  | some (pieces, rest) => (.string ((assemble? pieces).map String.ofList), some rest)

/-! ## Numerals -/

/-- The fraction of a numeral, if there is one: a point needs a digit after it. -/
def fraction? : List Char → Option (Option (List Char) × List Char)
  | '.' :: cs =>
    match Decimal.spanDigits cs with
    | ([], _) => none
    | (digits, rest) => some (some digits, rest)
  | cs => some (none, cs)

def exponent? : List Char → Option (Option Int × List Char)
  | [] => some (none, [])
  | c :: cs =>
    if c = 'e' ∨ c = 'E' then
      let (negative, cs) := Decimal.spanSign cs
      match Decimal.spanDigits cs with
      | ([], _) => none
      | (digits, rest) =>
        let e : Int := Decimal.digitsValue digits
        some (some (if negative then -e else e), rest)
    else some (none, c :: cs)

/-- A numeral. Its whole part is a single zero or starts with another digit. -/
def numeral? (cs : List Char) : Option (Numeral × List Char) := do
  let (negative, cs) := match cs with
    | '-' :: cs => (true, cs)
    | cs => (false, cs)
  let (whole, cs) := Decimal.spanDigits cs
  if whole = [] ∨ whole.head? = some '0' ∧ whole ≠ ['0'] then none
  let (fraction, cs) ← fraction? cs
  let (exponent, cs) ← exponent? cs
  pure (⟨negative, whole, fraction, exponent⟩, cs)

/-! ## Values -/

def ofScalar (cs : List Char) : Reading × Option (List Char) :=
  match cs with
  | 'n' :: 'u' :: 'l' :: 'l' :: cs => (.null, some cs)
  | 't' :: 'r' :: 'u' :: 'e' :: cs => (.bool true, some cs)
  | 'f' :: 'a' :: 'l' :: 's' :: 'e' :: cs => (.bool false, some cs)
  | '"' :: cs => ofString cs
  | cs =>
    match numeral? cs with
    | some (n, rest) => (.number n, some rest)
    | none => (.broken, none)

mutual

/-- A value, and the text that follows it if nothing was wrong so far. -/
def value : Nat → List Char → Reading × Option (List Char)
  | 0, _ => (.broken, none)
  | fuel + 1, cs =>
    match skipBlanks cs with
    | '[' :: cs =>
      match skipBlanks cs with
      | ']' :: rest => (.array [] true, some rest)
      | cs =>
        let (found, rest) := items fuel cs
        (.array found rest.isSome, rest)
    | '\x7b' :: cs =>
      match skipBlanks cs with
      | '\x7d' :: rest => (.object [] true, some rest)
      | cs =>
        let (found, rest) := members fuel cs
        (.object found rest.isSome, rest)
    | cs => ofScalar cs

/-- Items of an array, from one that must stand here to the closing bracket. -/
def items : Nat → List Char → List Reading × Option (List Char)
  | 0, _ => ([.broken], none)
  | fuel + 1, cs =>
    match value fuel cs with
    | (item, none) => ([item], none)
    | (item, some cs) =>
      match skipBlanks cs with
      | ']' :: rest => ([item], some rest)
      | ',' :: cs =>
        let (found, rest) := items fuel cs
        (item :: found, rest)
      | _ => ([item], none)

/-- Members of an object, from one that must stand here to the closing brace. A member
whose key is no string, or whose colon is missing, breaks off. -/
def members : Nat → List Char → List (Reading × Reading) × Option (List Char)
  | 0, _ => ([(.broken, .broken)], none)
  | fuel + 1, cs =>
    match value fuel cs with
    | (.string key, some cs) =>
      match skipBlanks cs with
      | ':' :: cs =>
        match value fuel cs with
        | (item, none) => ([(.string key, item)], none)
        | (item, some cs) =>
          match skipBlanks cs with
          | '\x7d' :: rest => ([(.string key, item)], some rest)
          | ',' :: cs =>
            let (found, rest) := members fuel cs
            ((.string key, item) :: found, rest)
          | _ => ([(.string key, item)], none)
      | _ => ([(.string key, .broken)], none)
    | (key, _) => ([(key, .broken)], none)

end

/-- The value at the start of a text, and whether only blanks follow it. A bracket takes
one character of the text and two steps of fuel, and nothing else takes more. -/
def ofText (text : String) : Reading × Bool :=
  let cs := text.toList
  match value (2 * cs.length + 1) cs with
  | (found, none) => (found, false)
  | (found, some rest) => (found, (skipBlanks rest).isEmpty)

end Reading

end Queueing.Json
