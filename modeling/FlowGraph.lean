import FlowGraph.Main
import FlowGraph.Proofs.Busy.Index
import FlowGraph.Proofs.Busy.Paths
import FlowGraph.Proofs.Combination
import FlowGraph.Proofs.Configurations
import FlowGraph.Proofs.GenKill
import FlowGraph.Proofs.Interval.Comparison
import FlowGraph.Proofs.Interval.Cuts
import FlowGraph.Proofs.Interval.Descent
import FlowGraph.Proofs.Interval.Emptiness
import FlowGraph.Proofs.Interval.Remainder
import FlowGraph.Proofs.Interval.Tightness
import FlowGraph.Proofs.Labels
import FlowGraph.Proofs.Procedure.WellFormed
import FlowGraph.Proofs.Ranges.Edges
import FlowGraph.Proofs.Ranges.Separations
import FlowGraph.Proofs.Ranges.Soundness
import FlowGraph.Proofs.Reached
import FlowGraph.Proofs.Rerun
import FlowGraph.Proofs.Solver.Solutions
import FlowGraph.Proofs.Taint.Noninterference
import FlowGraph.Proofs.Termination
import FlowGraph.Proofs.Trails.Paths
