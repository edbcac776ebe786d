import Queueing.Binary64.Basic

/-!
# Numerals

Texts that name numbers: unsigned 64-bit words, and decimal numerals, which are read
to the nearest binary64 number. A decimal numeral has digits before or after a point
or on both sides, and an exponent may follow; the words `inf`, `infinity` and `nan`
are read in any case. Only the ten ASCII digits are digits.
-/

namespace Queueing.Decimal

def digitValue (c : Char) : Nat := c.toNat - '0'.toNat

def digitsValue (cs : List Char) : Nat := cs.foldl (fun n c => 10 * n + digitValue c) 0

def spanDigits (cs : List Char) : List Char × List Char :=
  (cs.takeWhile Char.isDigit, cs.dropWhile Char.isDigit)

/-- The sign at the front of a text, if there is one: true for a minus. -/
def spanSign : List Char → Bool × List Char
  | '-' :: cs => (true, cs)
  | '+' :: cs => (false, cs)
  | cs => (false, cs)

/-- The least number that does not fit into 64 bits. -/
def wordLimit : Nat := 0x10000000000000000

/-- Digits, all the way to the end, for a number that fits into 64 bits. -/
def word? (cs : List Char) : Option UInt64 :=
  if cs ≠ [] ∧ cs.all Char.isDigit ∧ digitsValue cs < wordLimit then
    some (UInt64.ofNat (digitsValue cs))
  else none

/-- An exponent part, up to the end; an empty text stands for exponent zero. -/
def exponent? : List Char → Option Int
  | [] => some 0
  | c :: cs =>
    if c = 'e' ∨ c = 'E' then
      let (negative, digits) := spanSign cs
      if digits ≠ [] ∧ digits.all Char.isDigit then
        let n : Int := digitsValue digits
        some (if negative then -n else n)
      else none
    else none

def magnitude? (cs : List Char) : Option Binary64 :=
  let (whole, rest) := spanDigits cs
  let (fraction, rest) := match rest with
    | '.' :: rest => spanDigits rest
    | rest => ([], rest)
  if whole = [] ∧ fraction = [] then
    let name := String.ofList (cs.map Char.toLower)
    if name = "inf" ∨ name = "infinity" then some Binary64.infinity
    else if name = "nan" then some Binary64.nan
    else none
  else
    (exponent? rest).map fun e =>
      Binary64.ofDecimal (digitsValue (whole ++ fraction)) (e - fraction.length)

def real? (text : String) : Option Binary64 :=
  let (negative, cs) := spanSign text.toList
  (magnitude? cs).map fun x => if negative then -x else x

end Queueing.Decimal
