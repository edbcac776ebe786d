/-!
# Binary64 numbers

A binary64 number is kept as its 64-bit pattern, so that the two zeros and every
NaN stay apart. Two orders live side by side. The *numeric* order (`≤`, `<`, `==`)
identifies the zeros and leaves a NaN incomparable, also with itself. The *total*
order (`compareTotal`) ranks all patterns on one line: negative NaNs, negative
infinity, the negative numbers, `-0`, `0`, the positive numbers, infinity, NaNs.

The four operations and the square root round to nearest, ties to even; they go
through `Float`, whose operations are defined in the logic. The logarithm and the
power are those of the platform and are left uninterpreted.
-/

namespace Queueing

/-- A binary64 number, given by its bit pattern: the sign in the top bit, then
eleven bits of exponent and fifty-two of fraction. -/
structure Binary64 where
  bits : UInt64
deriving DecidableEq, Repr

namespace Binary64

def signBit : UInt64 := 0x8000000000000000

/-- The pattern of positive infinity; larger magnitudes are NaNs. -/
def infinityBits : UInt64 := 0x7FF0000000000000

def magnitude (x : Binary64) : UInt64 := x.bits &&& 0x7FFFFFFFFFFFFFFF

def isNegative (x : Binary64) : Bool := signBit ≤ x.bits

def isNaN (x : Binary64) : Bool := infinityBits < x.magnitude

def isInfinite (x : Binary64) : Bool := x.magnitude == infinityBits

def isFinite (x : Binary64) : Bool := x.magnitude < infinityBits

def isZero (x : Binary64) : Bool := x.magnitude == 0

/-! ## Named values -/

def zero : Binary64 := ⟨0⟩
def negativeZero : Binary64 := ⟨signBit⟩
def one : Binary64 := ⟨0x3FF0000000000000⟩
def infinity : Binary64 := ⟨infinityBits⟩
/-- The quiet NaN with a clear sign bit. -/
def nan : Binary64 := ⟨0x7FF8000000000000⟩

instance : Inhabited Binary64 := ⟨zero⟩
instance : Zero Binary64 := ⟨zero⟩
instance : One Binary64 := ⟨one⟩

/-! ## The total order -/

/-- The place of a pattern on the line of all patterns. Negative patterns are
complemented, which reverses their magnitudes and puts them below the others. -/
def rank (x : Binary64) : UInt64 :=
  if x.isNegative then ~~~x.bits else x.bits ||| signBit

def compareTotal (x y : Binary64) : Ordering := compare x.rank y.rank

/-! ## The numeric order -/

/-- Neither is a NaN and `x` is not above `y`; the zeros are equal. -/
protected def le (x y : Binary64) : Bool :=
  !x.isNaN && !y.isNaN && (x.rank ≤ y.rank || x.isZero && y.isZero)

protected def lt (x y : Binary64) : Bool :=
  !x.isNaN && !y.isNaN && x.rank < y.rank && !(x.isZero && y.isZero)

/-- Numeric equality: false on a NaN, true on zeros of either sign. -/
protected def beq (x y : Binary64) : Bool :=
  !x.isNaN && !y.isNaN && (x.bits == y.bits || x.isZero && y.isZero)

instance : LE Binary64 := ⟨fun x y => x.le y = true⟩
instance : LT Binary64 := ⟨fun x y => x.lt y = true⟩
instance : BEq Binary64 := ⟨Binary64.beq⟩
instance : DecidableLE Binary64 := fun x y => inferInstanceAs (Decidable (x.le y = true))
instance : DecidableLT Binary64 := fun x y => inferInstanceAs (Decidable (x.lt y = true))

/-- The lesser number; a NaN gives way to the other operand, and of equal numbers
the second is kept. -/
protected def min (x y : Binary64) : Binary64 :=
  if y.isNaN || x < y then x else y

protected def max (x y : Binary64) : Binary64 :=
  if y.isNaN || y < x then x else y

instance : Min Binary64 := ⟨Binary64.min⟩
instance : Max Binary64 := ⟨Binary64.max⟩

/-! ## Arithmetic -/

def toFloat (x : Binary64) : Float := Float.ofBits x.bits

def ofFloat (x : Float) : Binary64 := ⟨x.toBits⟩

instance : Add Binary64 := ⟨fun x y => ofFloat (x.toFloat + y.toFloat)⟩
instance : Sub Binary64 := ⟨fun x y => ofFloat (x.toFloat - y.toFloat)⟩
instance : Mul Binary64 := ⟨fun x y => ofFloat (x.toFloat * y.toFloat)⟩
instance : Div Binary64 := ⟨fun x y => ofFloat (x.toFloat / y.toFloat)⟩
/-- The negative of a number is the number with the other sign bit. -/
instance : Neg Binary64 := ⟨fun x => ⟨x.bits ^^^ signBit⟩⟩

def sqrt (x : Binary64) : Binary64 := ofFloat x.toFloat.sqrt

/-- The natural logarithm of the platform. -/
def log (x : Binary64) : Binary64 := ofFloat x.toFloat.log

/-- The power function of the platform at exponent `3/2`. -/
def threeHalves (x : Binary64) : Binary64 := ofFloat (Float.pow x.toFloat 1.5)

/-! ## Numbers from numerals -/

/-- The number nearest to `m * 10 ^ e`, ties to even; infinity beyond the range. -/
def ofDecimal (m : Nat) (e : Int) : Binary64 :=
  ofFloat (Float.ofScientific m (decide (e < 0)) e.natAbs)

protected def ofNat (n : Nat) : Binary64 := ofDecimal n 0

instance : NatCast Binary64 := ⟨Binary64.ofNat⟩
instance : OfScientific Binary64 := ⟨fun m s e => ofFloat (OfScientific.ofScientific m s e)⟩

end Binary64

end Queueing
