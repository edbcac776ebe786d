import Queueing.Proofs.Network.Account
import Queueing.Simulation.Trial

/-!
# The recursion of a single server

The times of a trial by a recursion that knows no events: a customer arrives when the time
between arrivals has passed, its service begins when it has arrived and its predecessor has
left, and it leaves when its service time has passed. The two streams of random numbers are
read by index.
-/

namespace Queueing

variable {α : Type} [Arithmetic α]

/-! ## Draws by index -/

namespace Xorshift

def draw (rate : α) (g : Xorshift) (i : Nat) : α :=
  -(Arithmetic.log ((g.skip i).nextPositive α).1) / rate

/-- Draws one after the other give the numbers by index. -/
theorem exponential_skip {rate : α} (h : isRate rate = true) (g : Xorshift) (i : Nat) :
    (g.skip i).exponential rate = .ok (g.draw rate i, g.skip (i + 1)) := by
  rw [exponential, if_pos h]
  rfl

end Xorshift

/-! ## Times by recursion -/

namespace TrialConfig

variable (c : TrialConfig α)

omit [Arithmetic α] in
def arrivalStream : Xorshift := Xorshift.ofSeed (deriveSeed c.seed "arrival" 0)

omit [Arithmetic α] in
def serviceStream : Xorshift := Xorshift.ofSeed (deriveSeed c.seed "service" 0)

def interarrival (i : Nat) : α := c.arrivalStream.draw c.arrivalRate i

def serviceTime (i : Nat) : α := c.serviceStream.draw c.serviceRate i

/-- The time of the `i`-th arrival; nobody arrives at `0`. -/
def arrival : Nat → α
  | 0 => 0
  | i + 1 => arrival i + c.interarrival i

def departure : Nat → α
  | 0 => 0
  | i + 1 => max (c.arrival (i + 1)) (departure i) + c.serviceTime i

/-- The customer with this number. Numbers start at zero. -/
def customer (i : Nat) : Customer α := ⟨i, c.arrival (i + 1)⟩

/-- The customers with numbers from `i` to below `j`. -/
def queue (i j : Nat) : List (Customer α) := (List.range' i (j - i)).map c.customer

def served (i : Nat) : Customer α × α := (c.customer i, c.departure (i + 1))

def sojourn (i : Nat) : α := c.departure (i + 1) - c.arrival (i + 1)

theorem queue_self (i : Nat) : c.queue i i = [] := by
  rw [queue, Nat.sub_self]
  rfl

theorem queue_cons {i j : Nat} (h : i < j) :
    c.queue i j = c.customer i :: c.queue (i + 1) j := by
  rw [queue, show j - i = j - (i + 1) + 1 by omega, List.range'_succ]
  rfl

theorem queue_snoc {i j : Nat} (h : i ≤ j) :
    c.queue i (j + 1) = c.queue i j ++ [c.customer j] := by
  rw [queue, show j + 1 - i = j - i + 1 by omega, List.range'_1_concat, List.map_append,
    show i + (j - i) = j by omega]
  rfl

theorem departure_of_le [LawfulTime α] {i : Nat} (h : c.arrival (i + 1) ≤ c.departure i) :
    c.departure (i + 1) = c.departure i + c.serviceTime i := by
  rw [departure, LawfulTime.max_of_le h]

theorem departure_of_ge [LawfulTime α] {i : Nat} (ha : IsTime (c.arrival (i + 1)))
    (hd : IsTime (c.departure i)) (h : c.departure i ≤ c.arrival (i + 1)) :
    c.departure (i + 1) = c.arrival (i + 1) + c.serviceTime i := by
  rw [departure, LawfulTime.max_of_ge ha.nonneg hd.nonneg h]

end TrialConfig

end Queueing
