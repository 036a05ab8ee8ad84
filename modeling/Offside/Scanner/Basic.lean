import Offside.Event
import Offside.Fault
import Offside.Layout
import Offside.Token.Pattern
/-!
# The scanner

A scanner walks over a text and delivers its tokens one by one. Between two tokens it skips spaces.
A line break becomes a newline token, followed by the tokens that lead from the layout before it to
the indentation of the next line that is not blank; those tokens wait in `pending` and are
delivered first. At the end of the text every further delivery is the end token.
-/

namespace Offside

/-- What one step of a scanner yields: a token or a fault, and the events on the way. -/
structure Delivery where
  result : Except Fault Token
  events : List Event := []

/-- The state of a walk over a text: what is left of it, where that begins, the blocks that are
open there, and the tokens that are due before it. -/
structure Scanner where
  file : String
  rest : List Char
  line : Nat := 1
  column : Nat := 0
  layout : Layout := {}
  pending : List Token := []

/-- Where a text goes on after a line break: how many lines end on the way to the next line that is
not blank, and the spaces at its beginning. -/
structure LineStart where
  breaks : Nat
  width : Nat
  rest : List Char

/-- Looks for the next line that is not blank, `breaks` line breaks and `width` spaces ahead. The
last line counts even if it is blank. -/
def LineStart.seek (breaks width : Nat) : List Char → LineStart
  | ' ' :: rest => seek breaks (width + 1) rest
  | '\n' :: rest => seek (breaks + 1) 0 rest
  | rest => ⟨breaks, width, rest⟩

/-- The indentation that counts for the layout. Spaces at the end of the text open no block. -/
def LineStart.level (start : LineStart) : Nat :=
  if start.rest.isEmpty then 0 else start.width

namespace Scanner

/-- The name of a text that comes without one. -/
def unknownFile : String := "unknown source"

/-- A scanner at the beginning of a text. -/
def ofText (source : String) (file : Option String) : Scanner where
  file := file.getD unknownFile
  rest := source.toList

/-- Moves past the spaces ahead. -/
def skipSpaces (scanner : Scanner) : Scanner :=
  { scanner with
    rest := scanner.rest.dropWhile (· == ' ')
    column := scanner.column + (scanner.rest.takeWhile (· == ' ')).length }

/-- The fault of the given cause that covers one character of the current line. -/
def fault (scanner : Scanner) (cause : Fault.Cause) (column : Nat) : Fault :=
  ⟨cause, .ofLength scanner.file scanner.line column 1⟩

/-- Delivers the first of the pending tokens. -/
def release (scanner : Scanner) (token : Token) (others : List Token) (events : List Event) :
    Delivery × Scanner :=
  (⟨.ok token, events ++ [.tokenEmitted token]⟩, { scanner with pending := others })

/-- The scanner on a later line, past the spaces at its beginning. -/
def enterLine (scanner : Scanner) (start : LineStart) : Scanner :=
  { scanner with
    rest := start.rest
    line := scanner.line + start.breaks
    column := start.width
    layout := scanner.layout.enter start.level }

/-- A synthetic token for the beginning of the current line. -/
def mark (scanner : Scanner) (kind : Token.Kind) (value : String) : Token :=
  { kind, value, line := scanner.line, column := 0 }

/-- The token for the end of the text, which is here. -/
def endToken (scanner : Scanner) : Token :=
  { kind := .endOfText, value := "", line := scanner.line, column := scanner.column }

/-- Moves to the next line that is not blank, where `rest` is the text after the line break. -/
def breakLine (scanner : Scanner) (rest : List Char) : Delivery × Scanner :=
  let start := LineStart.seek 1 0 rest
  let next := scanner.enterLine start
  let newline := next.mark .newline "\n"
  match scanner.layout.shift start.level with
  | .stay => next.release newline [] []
  | .deeper =>
    let event := .blockOpened next.line scanner.layout.width start.level
    next.release newline [next.mark .indent ""] [event]
  | .back widths =>
    let outdents := widths.map fun _ => next.mark .outdent ""
    let events := widths.map (.blockClosed next.line)
    if next.layout.width = start.level then next.release newline outdents events
    else
      (⟨.error (next.fault (.inconsistentIndentation start.level) start.level), events⟩,
        { next with pending := newline :: outdents })

/-- Cuts a token off the text ahead. -/
def cutToken (scanner : Scanner) : Delivery × Scanner :=
  match Token.cut? scanner.rest with
  | some (kind, value, rest) =>
    let next := { scanner with rest, column := scanner.column + value.length }
    next.release { kind, value, line := scanner.line, column := scanner.column } [] []
  | none =>
    let cause := .unrecognised (String.ofList (scanner.rest.take 6))
    (⟨.error (scanner.fault cause scanner.column), []⟩, scanner)

/-- Delivers the next token. After a fault in the indentation the walk goes on behind it; text that
no pattern accepts is never passed. -/
def next (scanner : Scanner) : Delivery × Scanner :=
  match scanner.pending with
  | token :: others => scanner.release token others []
  | [] =>
    let scanner := scanner.skipSpaces
    match scanner.rest with
    | [] => (⟨.ok scanner.endToken, []⟩, scanner)
    | '\n' :: rest => scanner.breakLine rest
    | _ => scanner.cutToken

end Scanner

end Offside
