import BrilKit.Bench.Runner
import BrilKit.IndexGraph.Overview
import BrilKit.Main
import BrilKit.Proofs.Block.Names
import BrilKit.Proofs.Block.Normal
import BrilKit.Proofs.Constants.Folding
import BrilKit.Proofs.DataFlow.Sets
import BrilKit.Proofs.DataFlow.Soundness
import BrilKit.Proofs.DeadCode.Meaning
import BrilKit.Proofs.DeadCode.Sustained
import BrilKit.Proofs.FlowGraph.Exact
import BrilKit.Proofs.FlowGraph.SelfEdges
import BrilKit.Proofs.IndexGraph.Dominance
import BrilKit.Proofs.Liveness.Exact
import BrilKit.Proofs.Llvm.Operands
import BrilKit.Proofs.Memory.Pointers
import BrilKit.Proofs.Ssa.Renamed
import BrilKit.Proofs.Ssa.RoundTrip
import BrilKit.Proofs.Ssa.Order
import BrilKit.Proofs.Ssa.Unset
import BrilKit.Proofs.Ssa.Unversioned
import BrilKit.Proofs.Ssa.WellFormed
import BrilKit.Proofs.Text.RoundTrip
import BrilKit.Proofs.Typing.Soundness
import BrilKit.Proofs.ValueNumbering.Meaning
import BrilKit.Proofs.ValueNumbering.Sharing
import BrilKit.Report.Speedup
import BrilKit.Sample.Sizes
import BrilKit.Trace.Liveness
import BrilKit.Trace.Loop
import BrilKit.Trace.Memory
import BrilKit.Trace.Numbering
import BrilKit.Trace.Versions
