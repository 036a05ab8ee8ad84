import Offside.Text.Lines
import Offside.Text.Quoted
/-!
# Faults

A fault says why a text was rejected (`Fault.Cause`) and where (`Span`). `Cause.message` words the
cause. `Fault.report` is the full account: the message and, under it, the lines around the place
with a mark below the offending characters (`Span.render`).
-/

namespace Offside

/-- A place in a file: a line, counted from 1, a column, counted from 0 in characters, and the
number of characters that the place covers. -/
structure Span where
  file : String
  line : Nat
  column : Nat
  length : Nat
  length_pos : 0 < length := by omega
deriving DecidableEq, Repr

namespace Span

/-- The place of the given length, which covers one character at the least. -/
def ofLength (file : String) (line column length : Nat) : Span where
  file := file
  line := line
  column := column
  length := max length 1

/-- One source line under its name, `file#number: text`. -/
def renderLine (file : String) (number : Nat) (text : String) : String :=
  file ++ "#" ++ toString number ++ ": " ++ text ++ "\n"

/-- The mark below a place: as many blanks as the line's name has bytes and the place has columns,
then a caret, and a tilde for each further character. -/
def underline (span : Span) : String :=
  let margin := (span.file ++ "#" ++ toString span.line ++ ": ").utf8ByteSize
  "".pushn ' ' (span.column + margin) ++ "^" ++ "".pushn '~' (span.length - 1) ++ "\n"

/-- The line of a place with the mark below it, between the line before and the line after where
the text has them. A line that the text lacks is shown empty. -/
def render (span : Span) (source : String) : String :=
  let neighbour (number : Nat) :=
    ((Text.line? source number).map (renderLine span.file number)).getD ""
  neighbour (span.line - 1)
    ++ renderLine span.file span.line ((Text.line? source span.line).getD "")
    ++ span.underline
    ++ neighbour (span.line + 1)

end Span

/-- Why a text was rejected. -/
inductive Fault.Cause where
  /-- No token begins with this text. -/
  | unrecognised (text : String)
  /-- A line ends a block but is indented like none of the blocks around it. -/
  | inconsistentIndentation (width : Nat)
  /-- Another token was due. `expected` says which, as the end of the phrase. -/
  | unexpectedToken (expected : String)
  /-- Another token than `token` was due, with a message for the case at hand. -/
  | unexpectedText (token message : String)
  | missingExpression
  /-- A declaration has no body. -/
  | missingBody
  /-- The module path `path` leads to no function. -/
  | missingFunctionName (path : String)
  /-- The number is out of range. -/
  | invalidNumber (token : String)
  /-- The text goes on after its last statement. -/
  | trailingInput (token : String)
deriving DecidableEq, Repr

/-- Which rules a text breaks: those for tokens or those of the grammar. -/
inductive Fault.Phase where
  | lexical
  | grammatical
deriving DecidableEq, Repr

namespace Fault.Cause

def message : Cause → String
  | unrecognised text => "Don't know what to do with " ++ Text.quoted text
  | inconsistentIndentation width =>
    "Inconsistent indentation: dedent to width " ++ toString width ++ " matches no enclosing block"
  | unexpectedToken expected => "Expected token" ++ expected ++ " here:"
  | unexpectedText _ message => message
  | missingExpression => "Expected expression here:"
  | missingBody => "Did you forget to indent? Expected node here:"
  | missingFunctionName path => "Expected method name after " ++ path ++ ", here:"
  | invalidNumber token =>
    "Invalid number " ++ Text.quoted token ++ ", is it above the integer limit?"
  | trailingInput token =>
    "Unexpected " ++ Text.quoted token ++ " after the last complete expression:"

def phase : Cause → Phase
  | unrecognised _ | inconsistentIndentation _ => .lexical
  | _ => .grammatical

end Fault.Cause

/-- Why a text was rejected, and where. -/
structure Fault where
  cause : Fault.Cause
  span : Span
deriving DecidableEq, Repr

namespace Fault

/-- The account of a fault in the text `source`. -/
def report (fault : Fault) (source : String) : String :=
  "Error: " ++ fault.cause.message ++ "\n" ++ fault.span.render source

end Fault

end Offside
