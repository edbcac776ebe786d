import Queueing.Random.Xorshift
import Queueing.Simulation.Floor

/-!
# Agents

A *source* generates a fixed number of customers with exponentially distributed times
between them, and then is done. A *server* takes the oldest customer, holds it for an
exponentially distributed time, records its time in system, and goes on with the next;
when none is left it waits for good.

An agent is resumed at the point where it was suspended and runs to the next one. What
it did before a failure stays done, but its phase is only changed by a turn that
succeeds.
-/

namespace Queueing

/-- What a turn of an agent leaves behind, and the phase it reached. -/
structure Turn (α σ : Type) where
  agent : σ
  floor : Floor α
  result : Except (Failure α) Phase

/-- A generator of arrivals. -/
structure Source (α : Type) where
  /-- Arrivals per unit of time. -/
  rate : α
  /-- How many customers to generate in all. -/
  limit : Nat
  /-- How many customers were generated so far. -/
  generated : Nat
  rng : Xorshift
  phase : Phase
deriving DecidableEq, Repr

/-- A server of one customer at a time. -/
structure Server (α : Type) where
  /-- Completions per unit of busy time. -/
  rate : α
  rng : Xorshift
  inService : Option (Customer α)
  phase : Phase
deriving DecidableEq, Repr

variable {α : Type} [Arithmetic α]

namespace Source

def name : String := "arrival"

def fresh (limit : Nat) (rate : α) (rng : Xorshift) : Source α := ⟨rate, limit, 0, rng, .running⟩

/-- Wait for the next arrival, or finish after the last one. -/
def awaitNext (id : AgentId) (s : Source α) (f : Floor α) : Turn α (Source α) :=
  if s.limit ≤ s.generated then ⟨{ s with phase := .done }, f, .ok .done⟩
  else
    match s.rng.exponential s.rate with
    | .error broken => ⟨s, f, .error (.precondition broken)⟩
    | .ok (interval, rng) =>
      let s := { s with rng }
      match f.schedule id interval with
      | .error e => ⟨s, f, .error (.error e)⟩
      | .ok (_, f) => ⟨{ s with phase := .awaitingTimer }, f, .ok .awaitingTimer⟩

def resume (id : AgentId) (s : Source α) (f : Floor α) : Turn α (Source α) :=
  match s.phase with
  | .running => s.awaitNext id f
  | .awaitingTimer =>
    match f.send ⟨s.generated, f.now⟩ with
    | (f, .error e) => ⟨s, f, .error (.error e)⟩
    | (f, .ok ()) => { s with generated := s.generated + 1 }.awaitNext id f
  | phase => ⟨s, f, .error (.error (.agentInvariant (.cannotResume name phase)))⟩

end Source

namespace Server

def name : String := "service"

def fresh (rate : α) (rng : Xorshift) : Server α := ⟨rate, rng, none, .running⟩

def serve (id : AgentId) (customer : Customer α) (s : Server α) (f : Floor α) :
    Turn α (Server α) :=
  match s.rng.exponential s.rate with
  | .error broken => ⟨s, f, .error (.precondition broken)⟩
  | .ok (duration, rng) =>
    let s := { s with rng, inService := some customer }
    match f.schedule id duration with
    | .error e => ⟨s, f, .error (.error e)⟩
    | .ok (_, f) => ⟨{ s with phase := .awaitingTimer }, f, .ok .awaitingTimer⟩

def fetch (id : AgentId) (s : Server α) (f : Floor α) : Turn α (Server α) :=
  match f.receive id with
  | (some customer, f) => s.serve id customer f
  | (none, f) => ⟨{ s with phase := .awaitingChannel }, f, .ok .awaitingChannel⟩

def resume (id : AgentId) (s : Server α) (f : Floor α) : Turn α (Server α) :=
  match s.phase with
  | .running => s.fetch id f
  | .awaitingTimer =>
    match s.inService with
    | none => ⟨s, f, .error (.error (.agentInvariant (.cannotResume name .awaitingTimer)))⟩
    | some customer => { s with inService := none }.fetch id (f.complete customer)
  | .awaitingChannel =>
    match f.collect id with
    | (none, f) => ⟨s, f, .error (.error (.agentInvariant .wokenEmptyHanded))⟩
    | (some customer, f) => s.serve id customer f
  | .done => ⟨s, f, .error (.error (.agentInvariant (.cannotResume name .done)))⟩

end Server

/-- An agent of either kind. -/
inductive Agent (α : Type) where
  | source (s : Source α)
  | server (s : Server α)
deriving DecidableEq, Repr

namespace Agent

omit [Arithmetic α] in
def name : Agent α → String
  | .source _ => Source.name
  | .server _ => Server.name

omit [Arithmetic α] in
def phase : Agent α → Phase
  | .source s => s.phase
  | .server s => s.phase

def resume (id : AgentId) (a : Agent α) (f : Floor α) : Turn α (Agent α) :=
  match a with
  | .source s => let t := s.resume id f; ⟨.source t.agent, t.floor, t.result⟩
  | .server s => let t := s.resume id f; ⟨.server t.agent, t.floor, t.result⟩

end Agent

end Queueing
