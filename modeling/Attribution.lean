import Attribution.Analysis
import Attribution.Script.Stage
import Attribution.Proofs.PackedSet
import Attribution.Proofs.PackedSet.Canonical
import Attribution.Proofs.Engine.Registry
import Attribution.Proofs.Engine.Sheet
import Attribution.Proofs.Engine.Table
import Attribution.Proofs.Engine.Move
import Attribution.Proofs.Engine.Stack
import Attribution.Proofs.Engine.Team
import Attribution.Proofs.Engine.Barrier
import Attribution.Proofs.Engine.Account
import Attribution.Proofs.Engine.Failure
import Attribution.Proofs.Engine.Ends
import Attribution.Proofs.Engine.Duty
import Attribution.Proofs.Engine.Effect
import Attribution.Proofs.Engine.History
import Attribution.Proofs.Engine.Solo
import Attribution.Proofs.Engine.Sequence
import Attribution.Proofs.Engine.Growth
import Attribution.Proofs.Engine.Waiting
import Attribution.Proofs.Engine.Chase
import Attribution.Proofs.Engine.Deadlock
import Attribution.Proofs.Engine.Room
import Attribution.Proofs.Tree.Layout
import Attribution.Proofs.Tree.Decoding
import Attribution.Proofs.Recipe.Basic
import Attribution.Proofs.Engine.Remains
import Attribution.Proofs.Recipe.Moment
import Attribution.Proofs.Recipe.Advance
import Attribution.Proofs.Recipe.Sound
import Attribution.Proofs.Recipe.Reading
import Attribution.Proofs.Recipe.Course
import Attribution.Proofs.Recipe.Forcing
import Attribution.Proofs.Recipe.Backing
import Attribution.Proofs.Recipe.Equations
import Attribution.Proofs.Reference.Flow
import Attribution.Proofs.Reference.Site
import Attribution.Proofs.Reference.Shape
import Attribution.Proofs.Reference.Constant
import Attribution.Proofs.Reference.Equation
import Attribution.Proofs.Reference.Table
import Attribution.Proofs.Reference.Parts
import Attribution.Proofs.Reference.Reachability
import Attribution.Proofs.Reference.Completion
import Attribution.Proofs.Reference.Escape
import Attribution.Proofs.Reference.Subtree
import Attribution.Proofs.Reference.Liveness
import Attribution.Proofs.Reference.Solution
import Attribution.Proofs.Reference.Cycle
import Attribution.Proofs.Reference.Confined
import Attribution.Proofs.Analysis.Chain
import Attribution.Proofs.Analysis.Wiring
import Attribution.Proofs.Analysis.Reliance
import Attribution.Proofs.Analysis.Invariant
import Attribution.Proofs.Reference.Report
import Attribution.Proofs.Analysis.Audit
import Attribution.Proofs.Analysis.Circle
import Attribution.Proofs.Analysis.Books
import Attribution.Proofs.Analysis.Running
import Attribution.Proofs.Analysis.Entering
import Attribution.Proofs.Analysis.Operation
import Attribution.Proofs.Analysis.Session
import Attribution.Proofs.Analysis.Limit
import Attribution.Proofs.Analysis.Circularity
import Attribution.Proofs.Analysis.Diagnosis
import Attribution.Proofs.Analysis.Blame
import Attribution.Proofs.Analysis.Sparing
import Attribution.Proofs.Analysis.Order
import Attribution.Proofs.Analysis.Shallow
import Attribution.Proofs.Semantics.Execution
import Attribution.Proofs.Semantics.Surroundings
import Attribution.Proofs.Semantics.Statement
import Attribution.Proofs.Semantics.Soundness
import Attribution.Proofs.Semantics.Departure
import Attribution.Proofs.Semantics.Origin
import Attribution.Proofs.Semantics.DeadCode
import Attribution.Proofs.Semantics.Resolution
import Attribution.Proofs.Tree.Location
import Attribution.Proofs.Semantics.Unreachable
import Attribution.Proofs.Analysis.Depth
import Attribution.Proofs.Engine.Numbering
import Attribution.Proofs.Hierarchy
import Attribution.Proofs.Semantics.Arithmetic
import Attribution.Proofs.Engine.Dispatch
