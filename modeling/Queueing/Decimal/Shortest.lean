import Queueing.Binary64.Basic

/-!
# The shortest decimal that reads back

Every finite number is the nearest binary64 number to a whole interval of reals. Of
the decimals in that interval the shortest are those on the coarsest grid of
multiples of a power of ten that meets it, and of these the one nearest to the
number is taken. Everything is decided in exact arithmetic on natural numbers.
-/

namespace Queueing.Decimal

/-- A decimal by its digits and exponent: `digits * 10 ^ exponent`. -/
structure Scientific where
  digits : Nat
  exponent : Int
deriving DecidableEq, Repr

/-- Which of two equally near decimals is taken. -/
inductive Tie where
  /-- The one farther from zero. -/
  | up
  /-- The one whose last digit is even. -/
  | even
deriving DecidableEq, Repr

/-- The least significand of a number that is not subnormal. -/
def hiddenBit : Nat := 0x10000000000000

/-- The fields of a finite number: `(m, q)` for the magnitude `m * 2 ^ q`. -/
def significand (x : Binary64) : Nat × Int :=
  let exponent := (x.magnitude >>> 52).toNat
  let fraction := (x.magnitude &&& 0xFFFFFFFFFFFFF).toNat
  if exponent = 0 then (fraction, -1074) else (fraction + hiddenBit, (exponent : Int) - 1075)

/-- The reals that round to a number, in quarters of its last binary place: the
value lies at `4 * m`, and the ends belong to the interval when `m` is even. -/
structure Interval where
  low : Nat
  value : Nat
  high : Nat
  closed : Bool
deriving DecidableEq, Repr

/-- Half a place to each side, but only a quarter below a power of two, where the
places become finer. -/
def Interval.ofSignificand (m : Nat) (q : Int) : Interval where
  low := if m = hiddenBit ∧ -1074 < q then 4 * m - 1 else 4 * m - 2
  value := 4 * m
  high := 4 * m + 2
  closed := m % 2 == 0

/-- Does the interval, with quarters scaled by `a`, hold the point `p`? -/
def Interval.holds (i : Interval) (a p : Nat) : Bool :=
  if i.closed then i.low * a ≤ p && p ≤ i.high * a else i.low * a < p && p < i.high * a

/-- The multiple of `10 ^ k` in the interval that is nearest to the value
`i.value * 2 ^ (q - 2)`, if there is one: only the two neighbours of the value have to
be tried. -/
def onGrid (tie : Tie) (i : Interval) (q k : Int) : Option Scientific :=
  let a := Nat.pow 2 (q - 2).toNat * Nat.pow 10 (-k).toNat
  let b := Nat.pow 2 (2 - q).toNat * Nat.pow 10 k.toNat
  let d := i.value * a / b
  match i.holds a (d * b), i.holds a ((d + 1) * b) with
  | false, false => none
  | true, false => some ⟨d, k⟩
  | false, true => some ⟨d + 1, k⟩
  | true, true =>
    match compare (i.value * a - d * b) ((d + 1) * b - i.value * a), tie with
    | .lt, _ => some ⟨d, k⟩
    | .gt, _ => some ⟨d + 1, k⟩
    | .eq, .up => some ⟨d + 1, k⟩
    | .eq, .even => if d % 2 = 0 then some ⟨d, k⟩ else some ⟨d + 1, k⟩

/-- An exponent with `m * 2 ^ q < 10 ^ (magnitude10 m q + 1)`, at most one too large:
`0.30103` is a little above the decimal logarithm of two. -/
def magnitude10 (m : Nat) (q : Int) : Int :=
  ((Nat.log2 m : Int) + 1 + q) * 30103 / 100000

/-- The grids from coarse to fine on which a number of seventeen digits can lie. -/
def grids (m : Nat) (q : Int) : List Int :=
  (List.range 19).map fun (i : Nat) => magnitude10 m q + 1 - (i : Int)

/-- The shortest decimal that reads back as the magnitude of a finite number; zero
for the zeros. -/
def shortest (tie : Tie) (x : Binary64) : Scientific :=
  let (m, q) := significand x
  if m = 0 then ⟨0, 0⟩
  else
    ((grids m q).findSome? (onGrid tie (Interval.ofSignificand m q) q)).getD ⟨0, 0⟩

end Queueing.Decimal
