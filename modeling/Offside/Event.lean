import Offside.Token.Basic
/-!
# Events

What reading a text reports about its progress. Events carry data; their words are in
`Event.level`, `Event.message` and `Event.fields`.
-/

namespace Offside

/-- How much detail an event is. -/
inductive Event.Level where
  | trace
  | debug
  | info
deriving DecidableEq, Repr

/-- A step of reading a text. -/
inductive Event where
  /-- The whole text of a file is about to be parsed. -/
  | fileOpened (file : String)
  /-- A token leaves the scanner. -/
  | tokenEmitted (token : Token)
  /-- A line opens a block of width `inner` in one of width `outer`. -/
  | blockOpened (line outer inner : Nat)
  /-- A line closes a block, which brings the text back to width `outer`. -/
  | blockClosed (line outer : Nat)
  /-- A rule of the grammar starts an expression at a token. -/
  | ruleStarted (rule : String) (token : Token)
  /-- A rule of the grammar extends an expression at a token. -/
  | ruleExtended (rule : String) (token : Token)
  /-- A whole text was parsed into so many statements. -/
  | fileParsed (statements : Nat)
deriving DecidableEq, Repr

namespace Event

def level : Event → Level
  | fileOpened _ => .info
  | blockOpened .. | blockClosed .. | fileParsed _ => .debug
  | tokenEmitted _ | ruleStarted .. | ruleExtended .. => .trace

def message : Event → String
  | fileOpened _ => "span parse"
  | tokenEmitted token => "Emitting " ++ toString token
  | blockOpened .. => "Indent"
  | blockClosed .. => "Outdent"
  | ruleStarted .. => "Prefix"
  | ruleExtended .. => "Infix"
  | fileParsed _ => "Parsed"

/-- The values of an event by name. -/
def fields : Event → List (String × String)
  | fileOpened file => [("file", file)]
  | tokenEmitted _ => []
  | blockOpened line outer inner =>
    [("line", toString line), ("from", toString outer), ("to", toString inner)]
  | blockClosed line outer => [("line", toString line), ("to", toString outer)]
  | ruleStarted rule token | ruleExtended rule token =>
    [("rule", rule), ("token", toString token)]
  | fileParsed statements => [("nodes", toString statements)]

end Event

end Offside
