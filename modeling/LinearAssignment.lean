import LinearAssignment.Solution
import LinearAssignment.Proofs.Matching.Path
import LinearAssignment.Proofs.Search.Rounds
import LinearAssignment.Proofs.Search.Reports
import LinearAssignment.Proofs.Search.Tree
import LinearAssignment.Proofs.Run.Phases
import LinearAssignment.Proofs.Problem.Orientation
import LinearAssignment.Proofs.Matching.Pairs
import LinearAssignment.Proofs.Solution.Reported
import LinearAssignment.Proofs.Exact
import LinearAssignment.Proofs.Certificate
import LinearAssignment.Proofs.Search.Slack
import LinearAssignment.Proofs.Run.Certified
import LinearAssignment.Proofs.Problem.Exact
import LinearAssignment.Proofs.Problem.Accepted
import LinearAssignment.Proofs.Problem.Penalty
import LinearAssignment.Proofs.Solution.Soundness
import LinearAssignment.Proofs.Solution.Certified
import LinearAssignment.Proofs.Solution.Optimality
import LinearAssignment.Proofs.Solution.Duality
import LinearAssignment.Proofs.Run.Invariant
import LinearAssignment.Proofs.Arrays
import LinearAssignment.Proofs.Search.Indexed
import LinearAssignment.Proofs.Search.Ended
import LinearAssignment.Proofs.Embedding
import LinearAssignment.Proofs.Matching.Embedding
import LinearAssignment.Proofs.Run.Embedding
import LinearAssignment.Proofs.Run.Affine
import LinearAssignment.Proofs.Run.Cast
import LinearAssignment.Proofs.Solution.Affine
import LinearAssignment.Proofs.Run.FirstRows
import LinearAssignment.Proofs.Solution.FirstRows
import LinearAssignment.Proofs.Matching.Walk
import LinearAssignment.Proofs.Matching.SymmetricDifference
import LinearAssignment.Proofs.Matching.History
import LinearAssignment.Proofs.Search.Steps
import LinearAssignment.Proofs.Run.Trace
import LinearAssignment.Proofs.Solution.Logged
import LinearAssignment.Proofs.Run.Resumed
import LinearAssignment.Proofs.Search.Ties
import LinearAssignment.Proofs.Run.Work
import LinearAssignment.Proofs.Range
import LinearAssignment.Proofs.Run.Direct
import LinearAssignment.Proofs.Search.Sweep
import LinearAssignment.Proofs.Run.Range
import LinearAssignment.Proofs.Run.Recomputed
import LinearAssignment.Proofs.Solution.Range
import LinearAssignment.Proofs.Solution.Work
import LinearAssignment.Proofs.Problem.SameForm
import LinearAssignment.Proofs.Solution.SameForm
import LinearAssignment.Proofs.Solution.Gate
import LinearAssignment.Proofs.Problem.Transpose
import LinearAssignment.Proofs.Run.Consistent
import LinearAssignment.Proofs.Solution.Transpose
import LinearAssignment.Proofs.Widening
import LinearAssignment.Proofs.Matching.Widening
import LinearAssignment.Proofs.Search.Widening
import LinearAssignment.Proofs.Run.Widening
import LinearAssignment.Proofs.Problem.Widening
import LinearAssignment.Proofs.Solution.Widening
import LinearAssignment.Proofs.Problem.StandardForm
import LinearAssignment.Proofs.Solution.DualOptimum
import LinearAssignment.Proofs.Solution.Counters
import LinearAssignment.Proofs.Run.Tied
import LinearAssignment.Proofs.Solution.Tied
import LinearAssignment.Proofs.Assignment
import LinearAssignment.Proofs.Problem.Margin
import LinearAssignment.Proofs.Cells
import LinearAssignment.Proofs.Problem.Validation
import LinearAssignment.Proofs.Solution.Validation
import LinearAssignment.Proofs.Solution.Views
