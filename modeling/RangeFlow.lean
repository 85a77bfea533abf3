import RangeFlow.Codec.Procedure
import RangeFlow.Codec.Report
import RangeFlow.Proofs.Analysis.Acyclic
import RangeFlow.Proofs.Analysis.Budget
import RangeFlow.Proofs.Analysis.Convergence
import RangeFlow.Proofs.Analysis.Edges
import RangeFlow.Proofs.Analysis.Invariant
import RangeFlow.Proofs.Analysis.Overwriting
import RangeFlow.Proofs.Analysis.PostFixedPoint
import RangeFlow.Proofs.Analysis.Returns
import RangeFlow.Proofs.Analysis.Verdicts
import RangeFlow.Proofs.Batch
import RangeFlow.Proofs.Codec.Procedure
import RangeFlow.Proofs.Codec.Report
import RangeFlow.Proofs.Digraph.Recursion
import RangeFlow.Proofs.Digraph.Representation
import RangeFlow.Proofs.Facts.Equivalence
import RangeFlow.Proofs.Facts.Widening
import RangeFlow.Proofs.FlowGraph.InsertionOrder
import RangeFlow.Proofs.FlowGraph.Loops
import RangeFlow.Proofs.FlowGraph.Merging
import RangeFlow.Proofs.FlowGraph.Numbering
import RangeFlow.Proofs.InPlace
import RangeFlow.Proofs.Interval.Checked
import RangeFlow.Proofs.Interval.Corners
import RangeFlow.Proofs.Interval.Lattice
import RangeFlow.Proofs.Interval.Narrowing
import RangeFlow.Proofs.Interval.NoOverflow
import RangeFlow.Proofs.Interval.Operators
import RangeFlow.Proofs.Interval.Wrapped
