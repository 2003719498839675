import ScalarLang.Decimal.Text
import ScalarLang.IR.Builder
import ScalarLang.IR.Printer
import ScalarLang.Source
import ScalarLang.Syntax.Program
import ScalarLang.Token.Lexer
import ScalarLang.IR.Pass.Fold
import ScalarLang.IR.Pass.Promote
import ScalarLang.IR.Pass.Simplify
import ScalarLang.IR.Verifier
import ScalarLang.IR.Pass.Dead
import ScalarLang.IR.Pipeline
import ScalarLang.Bytecode.Chunk
import ScalarLang.Bytecode.Lower
import ScalarLang.Codegen
import ScalarLang.Builtin
import ScalarLang.CommandLine
import ScalarLang.Main
import ScalarLang.Proofs.Codegen.Arrangement
import ScalarLang.Proofs.Codegen.Correctness
import ScalarLang.Proofs.Codegen.WellFormed
import ScalarLang.Proofs.IR.Optimisation
import ScalarLang.Proofs.Bytecode.Correctness
import ScalarLang.Proofs.Bytecode.Operands
import ScalarLang.Proofs.Machine.Frames
import ScalarLang.Proofs.Machine.Safety
import ScalarLang.Proofs.Image.Linking
import ScalarLang.Proofs.Conduct
import ScalarLang.Proofs.Machine.Conduct
import ScalarLang.Proofs.Image.Conduct
import ScalarLang.Proofs.Image.Correspondence
import ScalarLang.Proofs.Codegen.Units
import ScalarLang.Proofs.Image.Loading
import ScalarLang.Proofs.Image.Parallel
import ScalarLang.Proofs.Session.Evaluation
import ScalarLang.Proofs.Session.Invariant
import ScalarLang.Proofs.Session.Conduct
import ScalarLang.Proofs.Session.Parallel
import ScalarLang.Proofs.Bytecode.Completeness
import ScalarLang.Proofs.Session.Optimisation
import ScalarLang.Proofs.Session.Forgetting
import ScalarLang.Proofs.Image.Inventory
import ScalarLang.Proofs.Image.Binding
import ScalarLang.Proofs.Image.Acceptance
import ScalarLang.Proofs.Session.Assembly
import ScalarLang.Proofs.Syntax.Grammar
import ScalarLang.Proofs.Syntax.Items
import ScalarLang.Proofs.Syntax.Rendering
import ScalarLang.Proofs.Syntax.Joining
import ScalarLang.Proofs.Syntax.Recovery
import ScalarLang.Proofs.Syntax.Precedence
import ScalarLang.Proofs.Codegen.Scoping
import ScalarLang.Proofs.Codegen.Success
import ScalarLang.Proofs.Machine.Isolation
import ScalarLang.Proofs.Bytecode.Listing
import ScalarLang.Proofs.Token.Tiling
import ScalarLang.Proofs.IR.Fixpoint
import ScalarLang.Proofs.Bytecode.Edges
import ScalarLang.Proofs.Syntax.Positions
import ScalarLang.Proofs.IR.Printing
