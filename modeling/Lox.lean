import Lox.Main
import Lox.Proofs.Syntax.Completeness
import Lox.Proofs.Syntax.Soundness
import Lox.Proofs.Session.Scoping
import Lox.Proofs.Session.Verdict
import Lox.Proofs.Session.Rejection
import Lox.Proofs.Session.Repetition
import Lox.Proofs.Session.Joined
import Lox.Proofs.Run.Moment
import Lox.Proofs.Session.Identity
import Lox.Proofs.Session.Teardown
import Lox.Proofs.Session.Renaming
import Lox.Proofs.Session.CompileErrors
import Lox.Proofs.Session.Termination
import Lox.Proofs.Session.Truncation
import Lox.Proofs.Session.Super
import Lox.Proofs.Token.Stream
import Lox.Proofs.Token.Longest
import Lox.Proofs.Syntax.Progress
import Lox.Proofs.Syntax.Recovery
import Lox.Proofs.Run.Frame
import Lox.Proofs.Syntax.Seam
import Lox.Proofs.Syntax.Seam.Rules
import Lox.Proofs.Alike.Shape
import Lox.Proofs.Syntax.Composition
import Lox.Proofs.Syntax.Foresight
import Lox.Proofs.Syntax.Foresight.Expression
import Lox.Proofs.Syntax.Foresight.Statement
import Lox.Proofs.Syntax.Viable
import Lox.Proofs.Folding.Call
import Lox.Proofs.Folding.Evaluation
import Lox.Proofs.Folding.Scoping
import Lox.Proofs.Folding.Start
import Lox.Proofs.Loop.Clauses
import Lox.Proofs.Loop.Desugar
import Lox.Proofs.Session.Loop
import Lox.Proofs.Run.Fault
import Lox.Proofs.Session.Property
import Lox.Proofs.Session.Construction
import Lox.Proofs.Session.Return
import Lox.Proofs.Heap.Access
import Lox.Proofs.Token.Separated
import Lox.Proofs.Syntax.Surplus
import Lox.Proofs.Session.Growth
