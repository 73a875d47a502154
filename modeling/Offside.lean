import Offside.Main
import Offside.Command.Run
import Offside.Host.Sample
import Offside.Proofs.Expr.Alike
import Offside.Proofs.Expr.Application
import Offside.Proofs.Parse.Frame
import Offside.Proofs.JavaScript.RoundTrip
import Offside.Proofs.JavaScript.Unambiguous
import Offside.Proofs.Parse.Spelling
import Offside.Proofs.Token.Written
import Offside.Proofs.Parse.Lockstep
import Offside.Proofs.Parse.Typing
import Offside.Proofs.Parse.Parameters
import Offside.Proofs.Eval.Rules
import Offside.Proofs.Eval.WellFormed
import Offside.Proofs.Eval.Kinds
import Offside.Proofs.Eval.Parameters
import Offside.Proofs.Parse.InStep
import Offside.Proofs.Parse.Layout
import Offside.Proofs.Parse.LineEnds
import Offside.Proofs.Parse.Height
import Offside.Proofs.Eval.Depth
import Offside.Proofs.Parse.TypeDepth
import Offside.Proofs.Command.FileTree
import Offside.Proofs.Command.Directory
import Offside.Proofs.Command.Journal
import Offside.Proofs.Command.Sources
import Offside.Proofs.Command.Single
import Offside.Proofs.Parse.Precedence
import Offside.Proofs.Parse.Members
import Offside.Proofs.Parse.WrittenTypes
import Offside.Proofs.Parse.Parenthesized
import Offside.Proofs.Parse.Counter
import Offside.Proofs.Token.Comments
import Offside.Proofs.Token.Calls
import Offside.Proofs.Parse.Continuation
import Offside.Proofs.Eval.Counter
import Offside.Proofs.Eval.Frame
import Offside.Proofs.Eval.Printed
import Offside.Proofs.Eval.Identity
import Offside.Proofs.Eval.Limit
import Offside.Proofs.Eval.Pieces
import Offside.Proofs.Parse.Annotated
import Offside.Proofs.Value.Words
import Offside.Proofs.Eval.Reckoning
import Offside.Proofs.Text.Json
import Offside.Proofs.Text.Brackets
import Offside.Proofs.JavaScript.Lines
