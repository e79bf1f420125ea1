import Barrage.Angle.Basic
import Barrage.Scalar.Bits
import Barrage.Scalar.Nearest
import Barrage.Scalar.Quotient
import Barrage.Except
import Barrage.Formula.Eval
import Barrage.Formula.Parts
import Barrage.Formula.Parse
import Barrage.Formula.Spelling
import Barrage.Formula.Grammar
import Barrage.Pattern.Within
import Barrage.Document.Basic
import Barrage.Document.Closed
import Barrage.Document.Labels
import Barrage.Config.Basic
import Barrage.Config.Toml
import Barrage.Data.Pattern
import Barrage.Data.ReadBack
import Barrage.Step.Lemmas
import Barrage.Step.Forget
import Barrage.Step.BuildLemmas
import Barrage.Step.Kinds
import Barrage.Step.Valid
import Barrage.Step.Path
import Barrage.Step.Counters
import Barrage.Step.Work
import Barrage.Step.Part
import Barrage.Step.Onward
import Barrage.Step.GivenUp
import Barrage.Step.Expansion
import Barrage.Step.Fires
import Barrage.Turn.Lemmas
import Barrage.Turn.Journal
import Barrage.Turn.Readings
import Barrage.Turn.Place
import Barrage.Turn.Notes
import Barrage.Turn.NoteLaws
import Barrage.Turn.Scopes
import Barrage.Turn.Tracked
import Barrage.Turn.Entering
import Barrage.Turn.InScope
import Barrage.Turn.Shots
import Barrage.Turn.Contract
import Barrage.Turn.Blank
import Barrage.Turn.Valid
import Barrage.Turn.Carry
import Barrage.Turn.Acts
import Barrage.Turn.Program
import Barrage.Turn.History
import Barrage.Turn.Recorded
import Barrage.Turn.Faults
import Barrage.Turn.Spending
import Barrage.Runner.Lemmas
import Barrage.Runner.Reach
import Barrage.Runner.Family
import Barrage.Swarm
import Barrage.Swarm.Lemmas
import Barrage.Swarm.Recorded
import Barrage.Swarm.Share
import Barrage.Swarm.History
import Barrage.Swarm.Course
import Barrage.Swarm.Family
import Barrage.Walk.Basic
import Barrage.Walk.Lemmas
import Barrage.Walk.Residue
import Barrage.Walk.Turn
import Barrage.Walk.Built
import Barrage.Host.Foundry
import Barrage.Host.Source
import Barrage.Proofs.Formula.Reading
import Barrage.Proofs.Formula.Arity
import Barrage.Proofs.Document.Dangling
import Barrage.Proofs.Document.Building
import Barrage.Proofs.Data.RoundTrip
import Barrage.Proofs.Reset.Alike
import Barrage.Proofs.Reset.Rebuild
import Barrage.Proofs.Walk.Resume
import Barrage.Proofs.Walk.Calls
import Barrage.Proofs.Walk.Refinement
import Barrage.Step.Cost
import Barrage.Step.Tidy
import Barrage.Turn.Glide
import Barrage.Turn.Leaves
import Barrage.Turn.Passing
import Barrage.Proofs.Yield.Last
import Barrage.Proofs.Yield.Credit
import Barrage.Proofs.Yield.Pace
import Barrage.Proofs.Yield.Progress
import Barrage.Proofs.Yield.Stop
import Barrage.Proofs.Tree.History
import Barrage.Proofs.Tree.Order
import Barrage.Proofs.Tree.Building
import Barrage.Proofs.Tree.Firing
import Barrage.Proofs.Tree.Gliding
import Barrage.Proofs.Tree.Scopes
import Barrage.Proofs.Runner.Lifecycle
import Barrage.Proofs.Runner.Work
import Barrage.Proofs.Runner.LastFired
import Barrage.Proofs.Swarm.Spawns
import Barrage.Proofs.Swarm.Removal
import Barrage.Proofs.Swarm.Isolation
import Barrage.Proofs.Swarm.Outcomes
import Barrage.Decimal.ReadBack
import Barrage.Formula.Written
import Barrage.Proofs.Formula.RoundTrip
import Barrage.Random.Output
import Barrage.Proofs.Random.Period
import Barrage.Formula.Height
import Barrage.Proofs.Formula.Height
import Barrage.Formula.Bytes
import Barrage.Formula.Misspelled
import Barrage.Proofs.Formula.Lexing
