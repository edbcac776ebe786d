import Queueing.Decimal.Shortest

/-!
# Layouts of decimals

A layout says how the shortest decimal of a number is written: where positional
notation ends, what follows a whole number, and how the numbers that are not finite
are spelled. The report line and the messages use `Layout.plain`, documents use
`Layout.document`.
-/

namespace Queueing.Decimal

/-- How a number is written. -/
structure Layout where
  /-- The choice between two equally near shortest decimals. -/
  tie : Tie
  /-- Least and greatest place of the decimal point, counted from the first digit,
  for which the digits are written positionally; without bounds they always are. -/
  positional : Option (Int × Int)
  /-- What follows the digits of a whole number. -/
  wholeMark : String
deriving DecidableEq, Repr

/-- Numbers in sentences: always positional, whole numbers without a point. -/
def Layout.plain : Layout := ⟨.up, none, ""⟩

/-- Numbers in documents: positional from `0.00001` up to sixteen places before the
point, and a number is never written like an integer. -/
def Layout.document : Layout := ⟨.even, some (-4, 16), ".0"⟩

def zeros (n : Nat) : String := String.ofList (List.replicate n '0')

/-- The digits with their point after the first `point` of them, filled up with
zeros on either side. -/
def Layout.positionalText (layout : Layout) (digits : String) (point : Int) : String :=
  let size : Int := digits.length
  if point ≤ 0 then "0." ++ zeros (-point).toNat ++ digits
  else if point < size then
    String.ofList (digits.toList.take point.toNat) ++ "."
      ++ String.ofList (digits.toList.drop point.toNat)
  else digits ++ zeros (point - size).toNat ++ layout.wholeMark

/-- One digit, a point if more follow, and a signed exponent. -/
def scientificText (digits : String) (point : Int) : String :=
  let first := String.ofList (digits.toList.take 1)
  let others := String.ofList (digits.toList.drop 1)
  let fraction := if others = "" then "" else "." ++ others
  let exponent := point - 1
  first ++ fraction ++ "e" ++ (if exponent < 0 then "-" else "+") ++ toString exponent.natAbs

def Layout.magnitudeText (layout : Layout) (x : Binary64) : String :=
  let d := shortest layout.tie x
  if d.digits = 0 then "0" ++ layout.wholeMark
  else
    let digits := toString d.digits
    let point := (digits.length : Int) + d.exponent
    match layout.positional with
    | none => layout.positionalText digits point
    | some (least, greatest) =>
      if least ≤ point ∧ point ≤ greatest then layout.positionalText digits point
      else scientificText digits point

/-- The text of a number: a minus sign when the sign bit is set, but never before
`NaN`. -/
def Layout.text (layout : Layout) (x : Binary64) : String :=
  if x.isNaN then "NaN"
  else
    let sign := if x.isNegative then "-" else ""
    if x.isFinite then sign ++ layout.magnitudeText x else sign ++ "inf"

end Queueing.Decimal

namespace Queueing

def Binary64.text (x : Binary64) : String := Decimal.Layout.plain.text x

end Queueing
