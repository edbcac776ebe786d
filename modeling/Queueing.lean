import Queueing.Binary64.Basic
import Queueing.Arithmetic
import Queueing.Decimal.Shortest
import Queueing.Decimal.Layout
import Queueing.Decimal.Numeral
import Queueing.Digest.Sha256
import Queueing.Random.Xorshift
import Queueing.Simulation.Error
import Queueing.Simulation.Event
import Queueing.Simulation.Scheduler
import Queueing.Simulation.Run
import Queueing.Simulation.Script
import Queueing.Simulation.Fifo
import Queueing.Simulation.Channel
import Queueing.Simulation.Floor
import Queueing.Simulation.Agent
import Queueing.Simulation.Network
import Queueing.Simulation.Trial
import Queueing.Statistics.Aggregate
import Queueing.Statistics.Summary
import Queueing.Statistics.Sojourns
import Queueing.Json.Value
import Queueing.Json.Writer
import Queueing.Json.Numeral
import Queueing.Json.Reading
import Queueing.Text.Quoted
import Queueing.Json.Error
import Queueing.Json.Shape
import Queueing.Json.Check
import Queueing.Json.Form
import Queueing.Forms.Statistics
import Queueing.Forms.Simulation
import Queueing.Experiment.Config
import Queueing.Experiment.Report
import Queueing.Experiment.Run
import Queueing.CommandLine.Options
import Queueing.CommandLine.Usage
import Queueing.CommandLine.Files
import Queueing.CommandLine.Program
import Queueing.Main
import Queueing.Proofs.Actions
import Queueing.Proofs.Binary64.Order
import Queueing.Proofs.Binary64.Rounding
import Queueing.Proofs.Binary64.Packing
import Queueing.Proofs.Binary64.Addition
import Queueing.Proofs.Binary64.Exact
import Queueing.Proofs.Binary64.Infinity
import Queueing.Proofs.Binary64.Nearest
import Queueing.Proofs.Binary64.Operations
import Queueing.Proofs.Binary64.Signs
import Queueing.Proofs.Binary64.Roots
import Queueing.Proofs.Binary64.Scaling
import Queueing.Proofs.Binary64.Amounts
import Queueing.Proofs.Binary64.Signed
import Queueing.Proofs.Decimal.Shortest
import Queueing.Proofs.Json.Numerals
import Queueing.Proofs.Json.Grammar
import Queueing.Proofs.Json.Exact
import Queueing.Proofs.Json.Documents
import Queueing.Proofs.Json.Canonical
import Queueing.Proofs.Json.Rereading
import Queueing.Proofs.Json.Records
import Queueing.Proofs.Json.Reread
import Queueing.Proofs.Time
import Queueing.Proofs.Run
import Queueing.Proofs.Scheduler.Orderly
import Queueing.Proofs.Scheduler.History
import Queueing.Proofs.Scheduler.Ties
import Queueing.Proofs.Scheduler.EventOrder
import Queueing.Proofs.Overflow
import Queueing.Proofs.Random.Draws
import Queueing.Proofs.Random.Words
import Queueing.Proofs.Random.Units
import Queueing.Proofs.Digest.Collisions
import Queueing.Proofs.Random.Seeds
import Queueing.Proofs.Channel.Basic
import Queueing.Proofs.Channel.Moves
import Queueing.Proofs.Channel.History
import Queueing.Proofs.Channel.Protocol
import Queueing.Proofs.Network.Turns
import Queueing.Proofs.Network.Settled
import Queueing.Proofs.Network.Steps
import Queueing.Proofs.Network.Behaviour
import Queueing.Proofs.Network.Account
import Queueing.Proofs.Network.Conduct
import Queueing.Proofs.Network.Prompt
import Queueing.Proofs.Network.Tally
import Queueing.Proofs.Trial.Recursion
import Queueing.Proofs.Trial.Tracking
import Queueing.Proofs.Trial.Refinement
import Queueing.Proofs.Statistics.Summary
import Queueing.Proofs.Trial.Counters
import Queueing.Proofs.Trial.Outcome
import Queueing.Proofs.Trial.Times
import Queueing.Proofs.Trial.Capacity
import Queueing.Proofs.Trial.Positive
import Queueing.Proofs.Trial.Termination
import Queueing.Proofs.Statistics.Aggregate
import Queueing.Proofs.Statistics.Samples
import Queueing.Proofs.Statistics.Moments
import Queueing.Proofs.Statistics.Assembly
import Queueing.Proofs.Statistics.Rearranged
import Queueing.Proofs.Statistics.Reread
import Queueing.Proofs.Statistics.Shape
import Queueing.Proofs.Statistics.Interval
import Queueing.Proofs.Statistics.Rounding
import Queueing.Proofs.Statistics.Spread
import Queueing.Proofs.Statistics.LittleSpread
import Queueing.Proofs.Statistics.Extremes
import Queueing.Proofs.Text.Parts
import Queueing.Proofs.Experiment.Trials
import Queueing.Proofs.Experiment.Line
import Queueing.Proofs.Experiment.Report
import Queueing.Proofs.Experiment.Workers
import Queueing.Proofs.Experiment.Settings
import Queueing.Proofs.Experiment.Fingerprint
import Queueing.Proofs.Experiment.Digest
import Queueing.Proofs.Experiment.Reread
import Queueing.Proofs.Experiment.Assignments
import Queueing.Proofs.CommandLine.Configuration
