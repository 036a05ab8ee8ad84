import Offside.Scanner.Walk
import Offside.TypeExpr.Basic
import Offside.Binary64.Decimal
import Offside.Binary64.Shortest
import Offside.Expr.Basic
import Offside.Expr.Stamp
import Offside.Expr.Equality
import Offside.Expr.Visit
import Offside.Expr.Outline
import Offside.Program
import Offside.Main
import Offside.Proofs.Scanner.Deliveries
import Offside.Proofs.Cursor.View
import Offside.Proofs.Cursor.Parses
import Offside.Proofs.Cursor.Loops
import Offside.Proofs.Phrase.Type
import Offside.Proofs.Phrase.Expression
import Offside.Proofs.Grammar.Operand
import Offside.Proofs.Grammar.Declaration
import Offside.Proofs.Grammar.Standard
import Offside.Proofs.Program
import Offside.Proofs.Leaves
import Offside.Proofs.Scanner.Laid
import Offside.Proofs.Indentation
import Offside.Proofs.Expr.Bare
import Offside.Proofs.Phrase.Moved
import Offside.Proofs.Scanner.Reads
import Offside.Proofs.Precedence.Tree
import Offside.Proofs.Scanner.Before
import Offside.Proofs.Precedence
import Offside.Proofs.Token.Spelling
import Offside.Proofs.Scanner.Spells
import Offside.Proofs.TypeExpr.Spelling
import Offside.Proofs.Token.Word
import Offside.Proofs.TypeExpr.Reading
import Offside.Proofs.Scanner.Steps
import Offside.Proofs.Scanner.Lines
import Offside.Proofs.Positions
import Offside.Proofs.Text.Integer
import Offside.Proofs.Expr.Spelling
import Offside.Proofs.Expr.Printing
import Offside.Proofs.Printing
import Offside.Proofs.Expr.Alike
import Offside.Proofs.Cursor.Lockstep
import Offside.Proofs.Grammar.Agrees
import Offside.Proofs.Faults
import Offside.Proofs.Phrase.Shifted
import Offside.Proofs.Phrase.Closing
import Offside.Proofs.Scanner.Closing
import Offside.Proofs.Composition
import Offside.Proofs.TypeExpr.Grammar
import Offside.Proofs.Scanner.Passes
import Offside.Proofs.Token.Lines
import Offside.Proofs.Lines
import Offside.Proofs.Text.Places
import Offside.Proofs.Token.Recut
import Offside.Proofs.Segments
import Offside.Proofs.Relayout
import Offside.Proofs.WellFormed
import Offside.Proofs.Arguments
import Offside.Proofs.Rendering
import Offside.Proofs.Scanner.Gaps
import Offside.Proofs.Expr.Canonical
import Offside.Proofs.Expr.Equality
import Offside.Proofs.Spellings
import Offside.Proofs.Respacing
import Offside.Proofs.Calls
import Offside.Proofs.Termination
import Offside.Proofs.MissingBody
import Offside.Proofs.LineBreaks
import Offside.Proofs.Reindentation
import Offside.Proofs.Token.Longest
import Offside.Proofs.Grammar.Unambiguous
import Offside.Proofs.Expr.Stamping
import Offside.Proofs.Iteration
import Offside.Proofs.Literals
import Offside.Proofs.Expr.Visiting
import Offside.Proofs.Floors
import Offside.Proofs.Trace
