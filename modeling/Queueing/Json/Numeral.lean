import Queueing.Decimal.Numeral
import Queueing.Json.Value

/-!
# Numerals of JSON

A numeral without a fraction and an exponent names an integer if it fits into 64 bits,
signed when it is negative. Any other numeral names a real: its digits are gathered into
a significand for as long as that fits into 64 bits, and the significand is then scaled
by a power of ten. Significand, power and scaled value are each rounded to a binary64
number, so that the result can differ in the last places from the nearest number.
-/

namespace Queueing.Json

/-- A numeral as it is spelled; `whole` and `fraction` hold digits. -/
structure Numeral where
  negative : Bool
  whole : List Char
  fraction : Option (List Char)
  exponent : Option Int
deriving DecidableEq, Repr

namespace Numeral

/-- Append digits to a significand for as long as it fits into 64 bits; the digits that
did not fit are returned. -/
def gather (significand : Nat) : List Char → Nat × List Char
  | [] => (significand, [])
  | c :: cs =>
    let next := 10 * significand + Decimal.digitValue c
    if next < Decimal.wordLimit then gather next cs else (significand, c :: cs)

def powerOfTen (k : Nat) : Binary64 := Binary64.ofDecimal 1 k

/-- Scale by a power of ten. Powers beyond the range divide in steps; nothing is
returned when the result lies beyond the largest number. -/
def scale : Nat → Binary64 → Int → Option Binary64
  | steps, x, e =>
    if e.natAbs ≤ 308 then
      if 0 ≤ e then
        let y := x * powerOfTen e.natAbs
        if y.isInfinite then none else some y
      else some (x / powerOfTen e.natAbs)
    else if x.isZero then some x
    else if 0 ≤ e then none
    else
      match steps with
      | 0 => some Binary64.zero
      | steps + 1 => scale steps (x / powerOfTen 308) (e + 308)

/-- The significand and the power of ten of a numeral. Digits of the whole part that do
not fit count for the power, those of the fraction are dropped. -/
def parts (n : Numeral) : Nat × Int :=
  let (significand, surplus) := gather 0 n.whole
  let (significand, taken) := match n.fraction with
    | none => (significand, 0)
    | some digits =>
      let (significand, dropped) := gather significand digits
      (significand, digits.length - dropped.length)
  (significand, (surplus.length : Int) - taken + n.exponent.getD 0)

def real? (n : Numeral) : Option Binary64 :=
  let (significand, e) := n.parts
  (scale (e.natAbs / 308 + 1) (Binary64.ofNat significand) e).map fun x =>
    if n.negative then -x else x

/-- The number that a numeral names; none if it lies beyond the largest number. Minus
zero is a real. -/
def number? (n : Numeral) : Option Number :=
  let i := Decimal.digitsValue n.whole
  if n.fraction = none ∧ n.exponent = none then
    if n.negative then
      if 0 < i ∧ i ≤ Decimal.wordLimit / 2 then some (.integer (-i)) else n.real?.map .real
    else if i < Decimal.wordLimit then some (.integer i)
    else n.real?.map .real
  else n.real?.map .real

end Numeral

end Queueing.Json
