import Queueing.Arithmetic

/-!
# Summaries of samples

A summary holds the count, the extremes and four central moments of a sample, and is
built in one pass, without keeping the samples: each moment is updated from the lower
ones that were updated before it. Two summaries merge into the summary of the union.
`m1` is the mean, and `m2`, `m3`, `m4` are sums of powers of deviations from it.
-/

namespace Queueing

/-- Count, extremes and moments of a sample. -/
structure Summary (α : Type) where
  count : Nat
  min : Option α
  max : Option α
  m1 : α
  m2 : α
  m3 : α
  m4 : α
deriving DecidableEq, BEq, Repr

namespace Summary

variable {α : Type}

/-! ## Building a summary -/

section Building

variable [Zero α] [NatCast α] [Add α] [Sub α] [Mul α] [Div α] [Min α] [Max α]

def empty : Summary α := ⟨0, none, none, 0, 0, 0, 0⟩

def add (y : α) (s : Summary α) : Summary α :=
  let d := y - s.m1
  let d2 := d * d
  let d3 := d * d2
  let count := s.count + 1
  let n : α := (count : Nat)
  let dn := d / n
  let dn2 := dn * dn
  let dn3 := dn2 * dn
  let m1 := s.m1 + dn
  let m2 := s.m2 + d * (d - dn)
  let m3 := s.m3 + (d * (d2 - dn2) - ((3 : Nat) : α) * dn * m2)
  let m4 := s.m4 + (d * (d3 - dn3) - ((6 : Nat) : α) * dn2 * m2 - ((4 : Nat) : α) * dn * m3)
  { count, m1, m2, m3, m4
    min := some (match s.min with | none => y | some m => Min.min m y)
    max := some (match s.max with | none => y | some m => Max.max m y) }

def extend (ys : List α) (s : Summary α) : Summary α := ys.foldl (fun s y => s.add y) s

def ofList (ys : List α) : Summary α := empty.extend ys

def reset (_ : Summary α) : Summary α := empty

/-- The extreme of two parts, either of which may be empty. -/
def mergeExtreme (pick : α → α → α) : Option α → Option α → Option α
  | some x, some y => some (pick x y)
  | x, none => x
  | none, y => y

def merge (s t : Summary α) : Summary α :=
  if t.count = 0 then s
  else if s.count = 0 then t
  else
    let n1 : α := s.count
    let n2 : α := t.count
    let count := s.count + t.count
    let n : α := count
    let d := t.m1 - s.m1
    let dn := d / n
    let dn2 := dn * dn
    let dn3 := dn * dn2
    { count
      min := mergeExtreme Min.min s.min t.min
      max := mergeExtreme Max.max s.max t.max
      m1 := s.m1 + n2 * dn
      m2 := s.m2 + t.m2 + n1 * n2 * d * dn
      m3 := s.m3 + t.m3 + n1 * n2 * (n1 - n2) * d * dn2
        + ((3 : Nat) : α) * (n1 * t.m2 - n2 * s.m2) * dn
      m4 := s.m4 + t.m4 + n1 * n2 * (n1 * n1 - n1 * n2 + n2 * n2) * d * dn3
        + ((6 : Nat) : α) * (n1 * n1 * t.m2 + n2 * n2 * s.m2) * dn2
        + ((4 : Nat) : α) * (n1 * t.m3 - n2 * s.m3) * dn }

end Building

/-! ## Reading a summary -/

def isEmpty (s : Summary α) : Bool := s.count == 0

def mean? (s : Summary α) : Option α := if 0 < s.count then some s.m1 else none

section Spread

variable [NatCast α] [Div α]

/-- The variance of at least two samples, over one less than their number. -/
def variance? (s : Summary α) : Option α :=
  if 1 < s.count then some (s.m2 / ((s.count - 1 : Nat) : α)) else none

def stdDev? [Roots α] (s : Summary α) : Option α := s.variance?.map Roots.sqrt

end Spread

section Shape

variable [Zero α] [One α] [NatCast α] [Add α] [Sub α] [Mul α] [Div α] [BEq α] [Roots α]

/-- The skewness of at least three samples, corrected for the size of the sample;
zero for a sample without spread. -/
def skewness? (s : Summary α) : Option α :=
  if s.count < 3 then none
  else if s.m2 == 0 then some 0
  else
    let n : α := s.count
    let g := Roots.sqrt n * s.m3 / Roots.threeHalves s.m2
    some (Roots.sqrt (n * (n - 1)) * g / (n - ((2 : Nat) : α)))

/-- The excess kurtosis of at least four samples, corrected for the size of the
sample; zero for a sample without spread. -/
def kurtosis? (s : Summary α) : Option α :=
  if s.count < 4 then none
  else if s.m2 == 0 then some 0
  else
    let n : α := s.count
    let g := n * s.m4 / (s.m2 * s.m2) - ((3 : Nat) : α)
    some ((n - 1) / ((n - ((2 : Nat) : α)) * (n - ((3 : Nat) : α)))
      * ((n + 1) * g + ((6 : Nat) : α)))

end Shape

end Summary

end Queueing
