import Queueing.Binary64.Basic

/-!
# The numbers a simulation calculates with

The simulator and its statistics are written over any type of numbers with the
operations below. The program runs them on `Binary64`; a statement about exact
arithmetic runs the same definitions on a field, and a statement that assumes only
some laws of time runs them on any type that has those laws.
-/

namespace Queueing

/-- The two powers that statistics need beyond the four operations. -/
class Roots (α : Type) where
  sqrt : α → α
  /-- `x` to the power `3/2`. -/
  threeHalves : α → α

/-- Numbers with the operations, the comparisons and the logarithm of a simulation. -/
class Arithmetic (α : Type) extends
    Zero α, One α, NatCast α, Add α, Sub α, Mul α, Div α, Neg α,
    Min α, Max α, LE α, LT α, BEq α, Roots α where
  decidableLE : DecidableLE α
  decidableLT : DecidableLT α
  /-- Neither infinite nor undefined. -/
  isFinite : α → Bool
  /-- A total order that refines the numeric one; events are queued by it. -/
  compareTotal : α → α → Ordering
  /-- The natural logarithm. -/
  log : α → α

attribute [reducible, instance] Arithmetic.decidableLE Arithmetic.decidableLT

/-- A rate is usable when it is finite and strictly positive. -/
def isRate {α : Type} [Arithmetic α] (rate : α) : Bool :=
  Arithmetic.isFinite rate && decide (0 < rate)

/-- Binary64 arithmetic with a logarithm and a power `3/2`. What does not depend on these
two functions can be said of every platform at once. -/
abbrev Binary64.arithmetic (log threeHalves : Binary64 → Binary64) : Arithmetic Binary64 where
  sqrt := Binary64.sqrt
  threeHalves := threeHalves
  decidableLE := inferInstance
  decidableLT := inferInstance
  isFinite := Binary64.isFinite
  compareTotal := Binary64.compareTotal
  log := log

/-- The arithmetic of the platform on which the program runs. -/
instance : Arithmetic Binary64 := Binary64.arithmetic Binary64.log Binary64.threeHalves

end Queueing
