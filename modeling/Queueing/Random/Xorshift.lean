import Queueing.Digest.Sha256
import Queueing.Simulation.Error

/-!
# The random number generator

xorshift64*: a word of state is stirred by three shifts, and the output is the state
times an odd constant. The same seed gives the same numbers, and a generator made from
the current state goes on exactly where the other stands.

An experiment has one seed. Every trial, and every agent of a trial, draws from a
stream of its own, whose seed is a digest of the parent's seed, the name of the stream
and an index. A seed therefore depends on the configuration alone.
-/

namespace Queueing

/-! ## Seeds -/

def wordBytes (w : UInt64) : List UInt8 :=
  [0, 8, 16, 24, 32, 40, 48, 56].map fun (shift : UInt64) => (w >>> shift).toUInt8

def wordOfBytes (bytes : List UInt8) : UInt64 :=
  bytes.foldr (fun b w => w <<< 8 ||| b.toUInt64) 0

/-- What is digested: both numbers take eight bytes and the length of the label goes
before it, so that a message belongs to one parent, label and index. -/
def seedMessage (parent : UInt64) (label : String) (index : UInt64) : List UInt8 :=
  let bytes := label.toUTF8.data.toList
  wordBytes parent ++ wordBytes (UInt64.ofNat bytes.length) ++ bytes ++ wordBytes index

/-- The seed of stream `index` under a label: the first eight bytes of the digest. -/
def deriveSeed (parent : UInt64) (label : String) (index : UInt64) : UInt64 :=
  wordOfBytes ((Sha256.digest (seedMessage parent label index)).take 8)

/-! ## Numbers -/

/-- A generator, which is its current state. -/
structure Xorshift where
  state : UInt64
deriving DecidableEq, Repr, Inhabited

namespace Xorshift

/-- A generator with this seed. The state zero would never change, so seed zero
stands for seed one. -/
def ofSeed (seed : UInt64) : Xorshift := ⟨if seed = 0 then 1 else seed⟩

def stir (x : UInt64) : UInt64 :=
  let x := x ^^^ (x >>> 12)
  let x := x ^^^ (x <<< 25)
  x ^^^ (x >>> 27)

def output (x : UInt64) : UInt64 := x * 0x2545F4914F6CDD1D

def next (g : Xorshift) : UInt64 × Xorshift :=
  let x := stir g.state
  (output x, ⟨x⟩)

def skip (n : Nat) (g : Xorshift) : Xorshift := n.repeat (fun g => g.next.2) g

variable {α : Type} [Arithmetic α]

/-- `2 ^ 53`: how many numbers a generator can give between zero and one. -/
def unitSteps : Nat := 0x20000000000000

/-- A random number in `[0, 1)`: the top fifty-three bits of a word over `unitSteps`. -/
def nextUnit (α : Type) [Arithmetic α] (g : Xorshift) : α × Xorshift :=
  let (word, g) := g.next
  (((word >>> 11).toNat : α) * (1 / ((unitSteps : Nat) : α)), g)

/-- A random number in `(0, 1]`, whose logarithm can always be taken. -/
def nextPositive (α : Type) [Arithmetic α] (g : Xorshift) : α × Xorshift :=
  let (u, g) := g.nextUnit α
  (1 - u, g)

/-- A random time with mean `1 / rate`, by inversion of the exponential
distribution. Nothing is drawn when the rate is not usable. -/
def exponential (rate : α) (g : Xorshift) : Except Precondition (α × Xorshift) :=
  if isRate rate then
    let (u, g) := g.nextPositive α
    .ok (-(Arithmetic.log u) / rate, g)
  else .error .exponentialRate

end Xorshift

end Queueing
