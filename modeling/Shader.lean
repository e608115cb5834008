import Shader.Span
import Shader.Stage
import Shader.Token
import Shader.Token.Scan
import Shader.Number.Power
import Shader.Number.Binary32
import Shader.Number.Double
import Shader.Number.Decimal
import Shader.Number.Half
import Shader.Ty.Basic
import Shader.Ty
import Shader.Operator
import Shader.Operator.Rule
import Shader.Swizzle
import Shader.Fault
import Shader.Scalar
import Shader.Literal
import Shader.Value
import Shader.Constant
import Shader.Qualifier
import Shader.Binding
import Shader.Scope
import Shader.Tree
import Shader.Operator.Mark
import Shader.Parse.Cursor
import Shader.Parse.Qualifiers
import Shader.Parse.Expr
import Shader.Parse.Declaration
import Shader.Parse.Statement
import Shader.Parse
import Shader.Outcome
import Shader.Library.Matrix
import Shader.Library.Whole
import Shader.Library.Componentwise
import Shader.Library
import Shader.Fold.Operator
import Shader.Fold.Construct
import Shader.Fold.Access
import Shader.Fold
import Shader.Problem
import Shader.Overloads
import Shader.Prelude.Family
import Shader.Prelude.Prototype
import Shader.Prelude
import Shader.Bind.State
import Shader.Bind.Expr
import Shader.Bind.Declaration
import Shader.Bind
import Shader.Check.Result
import Shader.Check.Constructor
import Shader.Check.Expr
import Shader.Check.Declaration
import Shader.Check
import Shader.Analysis
import Shader.Report
import Shader.CommandLine
import Shader.Main
import Shader.Proofs.Outcome
import Shader.Proofs.Shape
import Shader.Proofs.Library.Componentwise
import Shader.Proofs.Library.Whole
import Shader.Proofs.Fold.Operator
import Shader.Proofs.Fold.Construct
import Shader.Proofs.Fold.Access
import Shader.Proofs.Library
import Shader.Proofs.Tree
import Shader.Proofs.Token
import Shader.Proofs.Fold.Call
import Shader.Proofs.Fold
import Shader.Proofs.Prelude
import Shader.Proofs.Parse.Expr
import Shader.Proofs.Parse
import Shader.Proofs.Bind.Expr
import Shader.Proofs.Bind
import Shader.Proofs.Check.Expr
import Shader.Proofs.Check
import Shader.Proofs.Soundness
import Shader.Proofs.Literal
import Shader.Proofs.Progress
import Shader.Proofs.Numeral
import Shader.Proofs.Number.Rounding
import Shader.Proofs.Number.Decimal
import Shader.Proofs.Scan
import Shader.Proofs.Parse.Reads
import Shader.Proofs.Meaning
import Shader.Proofs.Phrase
import Shader.Proofs.RoundTrip
import Shader.Proofs.Site
import Shader.Proofs.Check.Recorded
import Shader.Proofs.Recheck
import Shader.Proofs.Parse.Instance
import Shader.Proofs.Refold
import Shader.Proofs.Bind.Tells
import Shader.Proofs.Bind.Known
import Shader.Proofs.Check.Covers
import Shader.Proofs.Check.Typed
import Shader.Proofs.Silence
import Shader.Proofs.Const
import Shader.Proofs.Stage
import Shader.Proofs.Entry
import Shader.Proofs.Bind.Given
import Shader.Proofs.Bind.Resolved
import Shader.Proofs.Check.Rule
import Shader.Proofs.Assign
import Shader.Proofs.Bind.Signature
import Shader.Proofs.Direction
import Shader.Proofs.Check.Accepts
import Shader.Proofs.Bracket
import Shader.Proofs.Proper
import Shader.Proofs.WellFormed
import Shader.Proofs.Token.Order
import Shader.Proofs.Parse.Run
import Shader.Proofs.Parse.Extent
import Shader.Proofs.Containment
import Shader.Proofs.Bind.Actions
import Shader.Proofs.Overloads
import Shader.Proofs.Resolver
import Shader.Proofs.Scoping
import Shader.Proofs.Printed
import Shader.Proofs.Reading
import Shader.Proofs.Token.Rule
import Shader.Proofs.Token.Literal
import Shader.Proofs.Token.Piece
import Shader.Proofs.Token.Munch
import Shader.Proofs.Outline
import Shader.Proofs.Parse.Spelled
import Shader.Proofs.Lookahead
import Shader.Proofs.Parse.Laid
import Shader.Proofs.Parse.Finish
import Shader.Proofs.Parse.Position
import Shader.Proofs.Bind.Placed
import Shader.Proofs.Check.Placed
import Shader.Proofs.Spans
import Shader.Proofs.Constructor
import Shader.Proofs.Fold.Lane
import Shader.Proofs.Remainder
import Shader.Proofs.IntLiteral
import Shader.Proofs.Modular
import Shader.Proofs.Truncation
import Shader.Proofs.Fold.Select
import Shader.Proofs.Builtin
import Shader.Proofs.Comparison
import Shader.Proofs.ArraySize
import Shader.Proofs.Assembly
import Shader.Proofs.Product
import Shader.Proofs.Half
import Shader.Proofs.Swizzle
import Shader.Proofs.LiteralReading
import Shader.Proofs.Cofactor
import Shader.Proofs.Journal
import Shader.Proofs.Token.Spaced
import Shader.Proofs.Selection
import Shader.Proofs.Token.Comment
import Shader.Proofs.Lines
