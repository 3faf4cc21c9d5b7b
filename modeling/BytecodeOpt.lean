import BytecodeOpt.CallGraph.Drawing
import BytecodeOpt.Event.Statistics
import BytecodeOpt.Proofs.Allocation.ParallelMove
import BytecodeOpt.Proofs.Allocation.Reproducibility
import BytecodeOpt.Proofs.Assembler
import BytecodeOpt.Proofs.CallGraph.InlinedCalls
import BytecodeOpt.Proofs.Compiler.Visits
import BytecodeOpt.Proofs.Lift.Exactness
import BytecodeOpt.Proofs.Member
import BytecodeOpt.Proofs.Outline.Selection
import BytecodeOpt.Proofs.Pass.Branches
import BytecodeOpt.Proofs.Pass.DeadCode.Behaviour
import BytecodeOpt.Proofs.RegisterCode.Lowering
import BytecodeOpt.Proofs.RegisterCode.Peephole
import BytecodeOpt.Proofs.Ssa.Pruning
