import BlockCompiler.Main
import BlockCompiler.Proofs.Frame
import BlockCompiler.Proofs.Steps
import BlockCompiler.Proofs.Tape
import BlockCompiler.Proofs.Derivation
import BlockCompiler.Proofs.ControlFlow
import BlockCompiler.Proofs.Declaration
import BlockCompiler.Proofs.Scoping
import BlockCompiler.Proofs.Checker
import BlockCompiler.Proofs.Flow
import BlockCompiler.Proofs.Agreement
import BlockCompiler.Proofs.Acceptance
import BlockCompiler.Proofs.Evaluation
import BlockCompiler.Proofs.Machine
import BlockCompiler.Proofs.ExprSimulation
import BlockCompiler.Proofs.StmtSimulation
import BlockCompiler.Proofs.Naming
import BlockCompiler.Proofs.Preservation
import BlockCompiler.Proofs.Reachability
import BlockCompiler.Proofs.Invariant
import BlockCompiler.Proofs.Typing
import BlockCompiler.Proofs.Grammar
import BlockCompiler.Proofs.Grammar.Soundness
import BlockCompiler.Proofs.Grammar.Completeness
import BlockCompiler.Proofs.Grammar.Climbing
import BlockCompiler.Proofs.RoundTrip
import BlockCompiler.Proofs.Phases
import BlockCompiler.Proofs.Locals
import BlockCompiler.Proofs.Refusal
import BlockCompiler.Proofs.Moments
import BlockCompiler.Proofs.Register
import BlockCompiler.Proofs.Returns
import BlockCompiler.Proofs.Rollback
import BlockCompiler.Proofs.LongestMatch
import BlockCompiler.Proofs.Scopes
import BlockCompiler.Proofs.ParseFailure
import BlockCompiler.Proofs.Verification
import BlockCompiler.Proofs.Report
import BlockCompiler.Proofs.Lookahead
import BlockCompiler.Proofs.Separation
import BlockCompiler.Proofs.Concatenation
import BlockCompiler.Proofs.Locality
import BlockCompiler.Proofs.Assignments
import BlockCompiler.Proofs.Slots
import BlockCompiler.Proofs.Progress
import BlockCompiler.Proofs.ForwardDeclaration
import BlockCompiler.Proofs.Parts
import BlockCompiler.Proofs.Emissions
import BlockCompiler.Proofs.Spelling
import BlockCompiler.Proofs.ScopeHistory
import BlockCompiler.Proofs.FreshNames
import BlockCompiler.Proofs.UniqueNames
