import FlowRecovery.Expr.NormalForm
import FlowRecovery.Expr.Pattern
import FlowRecovery.Main
import FlowRecovery.Memory.Printer
import FlowRecovery.Proofs.Word.BitVector
import FlowRecovery.Proofs.Expr.WellFormed
import FlowRecovery.Proofs.Expr.Valuation
import FlowRecovery.Proofs.Expr.SimplifyRules
import FlowRecovery.Proofs.Expr.Simplification
import FlowRecovery.Proofs.Expr.Variables
import FlowRecovery.Proofs.Solver.Enumeration
import FlowRecovery.Proofs.Memory.Concretisation
import FlowRecovery.Proofs.Memory.Refinement
import FlowRecovery.Proofs.Memory.Accesses
import FlowRecovery.Proofs.Simulation.Evaluation
import FlowRecovery.Proofs.Simulation.Step
import FlowRecovery.Proofs.Expr.NormalForm
import FlowRecovery.Proofs.Memory.Constant
import FlowRecovery.Proofs.Microcode.Determinism
import FlowRecovery.Proofs.X86.Operands
import FlowRecovery.Proofs.Memory.ReadOverWrite
import FlowRecovery.Proofs.Simulation.Execution
import FlowRecovery.Proofs.X86.Denotation
import FlowRecovery.Proofs.X86.Emission
import FlowRecovery.Proofs.X86.Flags
import FlowRecovery.Proofs.X86.Strings
import FlowRecovery.Proofs.X86.Lowering
import FlowRecovery.Proofs.X86.Decoding
import FlowRecovery.Proofs.Exploration.Uniform
import FlowRecovery.Proofs.Simulation.Concrete
import FlowRecovery.Proofs.Exploration.SinglePath
import FlowRecovery.Proofs.X86.Recovery
import FlowRecovery.Proofs.Simulation.Records
import FlowRecovery.Proofs.Memory.DefinedAddresses
import FlowRecovery.Proofs.Simulation.Jump
import FlowRecovery.Proofs.Exploration.History
import FlowRecovery.Proofs.Exploration.Accounting
import FlowRecovery.Proofs.Exploration.VisitLimit
import FlowRecovery.Proofs.X86.VisitLimit
import FlowRecovery.Proofs.Exploration.Coverage
import FlowRecovery.Proofs.Microcode.Discovery
import FlowRecovery.Proofs.Exploration.Consistency
import FlowRecovery.Proofs.Simulation.Totality
import FlowRecovery.Proofs.Exploration.Termination
import FlowRecovery.Proofs.X86.Sessions
import FlowRecovery.Proofs.X86.PrefixCode
import FlowRecovery.Proofs.Memory.Overwriting
import FlowRecovery.Proofs.X86.Execution
import FlowRecovery.Proofs.X86.Arithmetic
import FlowRecovery.Proofs.X86.Branches
import FlowRecovery.Proofs.X86.Calls
import FlowRecovery.Proofs.Simulation.ByteCells
import FlowRecovery.Proofs.X86.Stack
import FlowRecovery.Proofs.Simulation.Loop
import FlowRecovery.Proofs.X86.Repetition
import FlowRecovery.Proofs.Memory.Windows
import FlowRecovery.Proofs.Expr.Instantiation
import FlowRecovery.Proofs.Expr.Matching
import FlowRecovery.Proofs.Expr.PatternRewriting
import FlowRecovery.Proofs.Microcode.Successors
import FlowRecovery.Proofs.Text.Splitting
import FlowRecovery.Proofs.Text.Numeral
import FlowRecovery.Proofs.Image.SymbolFile
import FlowRecovery.Proofs.Image.SymbolTable
import FlowRecovery.Proofs.Drawing.Lines
import FlowRecovery.Proofs.Drawing.InstructionGraph
import FlowRecovery.Proofs.Expr.OperatorLaws
import FlowRecovery.Proofs.Expr.TypeSafety
import FlowRecovery.Proofs.Settings.Update
import FlowRecovery.Proofs.Settings.Requests
import FlowRecovery.Proofs.Settings.PropertyText
