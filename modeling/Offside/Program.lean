import Offside.Grammar.Standard
/-!
# Programs

Reading a whole text: `tokenize` answers its tokens, and `parse` the block of its statements. Both
also answer the events on the way.
-/

namespace Offside

/-- The result of reading a text, and the events on the way. -/
structure Reading (ε α : Type) where
  result : Except ε α
  events : List Event

/-- The tokens of a text, the end token last. -/
def tokenize (source : String) (file : Option String) : Reading Fault (List Token) :=
  let stream := Token.Stream.ofText source file
  { result := stream.tokens, events := stream.events }

/-- A cursor on the first token of a text. -/
def Cursor.ofText (source : String) (file : Option String) (log : Array Event) :
    Reading Fault Cursor :=
  let (delivery, stream) := (Token.Stream.ofText source file).next
  let log := log ++ delivery.events
  { result := delivery.result.map fun current =>
      { file := file.getD Scanner.unknownFile, current, stream, log }
    events := log.toList }

/-- The statements of a text by the given grammar. -/
def Grammar.parse (grammar : Grammar) (source : String) (file : Option String) :
    Reading Stop (Block Expr) :=
  let start := Cursor.ofText source file #[.fileOpened (file.getD Scanner.unknownFile)]
  match start.result with
  | .error fault => { result := .error (.fault fault), events := start.events }
  | .ok cursor =>
    match grammar.program.run cursor with
    | .ok block after => { result := .ok block, events := after.log.toList }
    | .error stop after => { result := .error stop, events := after.log.toList }

/-- The statements of a text. -/
def parse (source : String) (file : Option String) : Reading Stop (Block Expr) :=
  Grammar.standard.parse source file

end Offside
