import Stimulus.BitSort
import Stimulus.Failure
import Stimulus.Expr.Basic
import Stimulus.Expr.Text
import Stimulus.Expr.Value
import Stimulus.Hashing.Fingerprint
import Stimulus.Hashing.UniqueTable
import Stimulus.Hashing.ComputedTable
import Stimulus.Diagram.Edge
import Stimulus.Diagram.Manager
import Stimulus.Diagram.Conditional
import Stimulus.Diagram.Reach
import Stimulus.Diagram.Count
import Stimulus.Diagram.Core
import Stimulus.Circuit.Word
import Stimulus.Circuit.Encoding
import Stimulus.Random.ChaCha
import Stimulus.Random.Stream
import Stimulus.Random.Dice
import Stimulus.Scalar
import Stimulus.Decimal
import Stimulus.Distribution
import Stimulus.Settings
import Stimulus.Solver
import Stimulus.Context
import Stimulus.Constraint
import Stimulus.Partition
import Stimulus.Group.PartitionSolver
import Stimulus.Group.CoverageSolver
import Stimulus.Group.Ensemble
import Stimulus.Vector.Instance
import Stimulus.Vector.Solver
import Stimulus.Graphviz
import Stimulus.Generator
import Stimulus.RandObject
import Stimulus.Proofs.Hashing.UniqueTable
import Stimulus.Proofs.Hashing.Listing
import Stimulus.Proofs.Diagram.Meaning
import Stimulus.Proofs.Hashing.ComputedTable
import Stimulus.Proofs.Diagram.Invariant
import Stimulus.Proofs.Diagram.Conditional
import Stimulus.Proofs.Diagram.Run
import Stimulus.Proofs.Diagram.Canonicity
import Stimulus.Proofs.Diagram.Literal
import Stimulus.Proofs.Diagram.Conflicts
import Stimulus.Proofs.Diagram.Recall
import Stimulus.Proofs.Diagram.Twins
import Stimulus.Proofs.Circuit.Number
import Stimulus.Proofs.Circuit.Word
import Stimulus.Proofs.Circuit.Division
import Stimulus.Proofs.Circuit.Shift
import Stimulus.Proofs.Expr.Value
import Stimulus.Proofs.Expr.Plain
import Stimulus.Proofs.Circuit.Operator
import Stimulus.Proofs.Circuit.Encoding
import Stimulus.Proofs.Circuit.Agreement
import Stimulus.Proofs.Table
import Stimulus.Proofs.Outcome
import Stimulus.Proofs.Random.Dice
import Stimulus.Proofs.Diagram.Count
import Stimulus.Proofs.Diagram.Sample
import Stimulus.Proofs.Expr.Locality
import Stimulus.Proofs.Circuit.Capture
import Stimulus.Proofs.Circuit.Usage
import Stimulus.Proofs.Circuit.Slots
import Stimulus.Proofs.Circuit.Environment
import Stimulus.Proofs.Solver
import Stimulus.Proofs.Solver.Run
import Stimulus.Proofs.Solver.Meaning
import Stimulus.Proofs.Distribution
import Stimulus.Proofs.Distribution.Weights
import Stimulus.Proofs.Context
import Stimulus.Proofs.Partition.Components
import Stimulus.Proofs.Partition.Rounds
import Stimulus.Proofs.Group.Problem
import Stimulus.Proofs.Likeness
import Stimulus.Proofs.Group.Frame
import Stimulus.Proofs.Group.PartitionSolver
import Stimulus.Proofs.Group.CoverageSolver
import Stimulus.Proofs.Group.Ensemble
import Stimulus.Proofs.Group.Rounds
import Stimulus.Proofs.Group.Meaning
import Stimulus.Proofs.Group.Workers
import Stimulus.Proofs.Group.Abreast
import Stimulus.Proofs.Group.Assignment
import Stimulus.Proofs.Vector.Solver
import Stimulus.Proofs.Vector.Grouping
import Stimulus.Proofs.Generator.Rebuild
import Stimulus.Proofs.Generator.Solve
import Stimulus.Proofs.Generator.Run
import Stimulus.Proofs.Generator.Soundness
import Stimulus.Proofs.Generator.Completeness
import Stimulus.Proofs.Generator.Frame
import Stimulus.Proofs.Generator.Merge
import Stimulus.Proofs.Generator.Laziness
import Stimulus.Proofs.Generator.Reading
import Stimulus.Proofs.Solver.Enforcement
import Stimulus.Proofs.Group.Sizes
import Stimulus.Proofs.Group.Hits
import Stimulus.Proofs.Group.Analysis
import Stimulus.Proofs.Vector.Length
import Stimulus.Proofs.Generator.Sizes
import Stimulus.Proofs.Generator.Progress
import Stimulus.Proofs.Object.Tree
import Stimulus.Proofs.Object.Frame
import Stimulus.Proofs.Object.Run
import Stimulus.Proofs.Object.Solve
import Stimulus.Proofs.Object.Forest
import Stimulus.Proofs.Object.Inline
import Stimulus.Proofs.Vector.Body
import Stimulus.Proofs.Vector.Instance
import Stimulus.Proofs.Vector.Contents
import Stimulus.Proofs.Vector.Exact
import Stimulus.Proofs.Random.Law
import Stimulus.Proofs.Diagram.Uniform
import Stimulus.Proofs.Diagram.Counter
import Stimulus.Proofs.Expr.Comparison
import Stimulus.Proofs.Constraint
import Stimulus.Proofs.Vector.Instantiable
import Stimulus.Proofs.Generator.Acceptance
import Stimulus.Proofs.Diagram.Support
import Stimulus.Proofs.Diagram.Path
import Stimulus.Proofs.Diagram.Cube
import Stimulus.Proofs.Group.Reading
import Stimulus.Proofs.Graphviz
import Stimulus.Proofs.Circuit.Locality
import Stimulus.Proofs.Hashing.History
