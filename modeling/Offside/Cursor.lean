import Offside.Token.Stream
/-!
# The cursor of a parser

A parser sees one token at a time and moves over a stream of them (`Cursor`). It ends in a value, in
a fault, or because it went on longer than the tokens ahead allow (`Stop`). `ParseM.advance` is the
only step that takes a token from the stream; the other functions look at the current token, demand
something of it, or repeat a step.
-/

namespace Offside

/-- Where a parser stands: the current token, the deliveries after it, and the events so far. What
its loops and nestings are granted on top of the tokens ahead is `spare`. -/
structure Cursor where
  file : String
  current : Token
  stream : Token.Stream
  log : Array Event := #[]
  spare : Nat := 0

/-- Why a parser gave up. -/
inductive Stop where
  | fault (fault : Fault)
  /-- A loop or a nesting took more steps than the tokens ahead allow. -/
  | exhausted
deriving DecidableEq, Repr

/-- Parsers of values: they move a cursor, also where they fail. -/
abbrev ParseM := EStateM Stop Cursor

namespace Cursor

/-- The fault of the given cause at a token. -/
def fault (cursor : Cursor) (token : Token) (cause : Fault.Cause) : Fault :=
  ⟨cause, .ofLength cursor.file token.line token.column token.width⟩

/-- How often a loop may go round and how deep constructs may nest. Each round and each level takes
a token, and there are a few more than tokens. -/
def budget (cursor : Cursor) : Nat :=
  cursor.stream.ahead.length + 8 + cursor.spare

end Cursor

/-- What is demanded of a token: its class, its text, or both. -/
inductive Expected where
  | kind (k : Token.Kind)
  | text (value : String)
  | kindAndText (k : Token.Kind) (value : String)
deriving DecidableEq, Repr

namespace Expected

/-- Whether the token is what is demanded. -/
def accepts (token : Token) : Expected → Bool
  | kind k => token.kind == k
  | text value => token.value == value
  | kindAndText k value => token.kind == k && token.value == value

/-- The demand as the end of a phrase. -/
def phrase : Expected → String
  | kind k => " of type " ++ k.name
  | text value => " with value of '" ++ value ++ "'"
  | kindAndText k value => " of type " ++ k.name ++ " with value of '" ++ value ++ "'"

end Expected

/-- What a round of a loop leads to. -/
inductive Round (σ β : Type) where
  /-- Another round, from the given state. -/
  | again (state : σ)
  /-- The end of the loop, with the given result. -/
  | done (result : β)

namespace ParseM

variable {α β σ : Type}

/-! ## Looking and moving -/

/-- The current token. -/
def peek : ParseM Token :=
  return (← get).current

/-- Notes an event. -/
def note (event : Event) : ParseM Unit :=
  modify fun cursor => { cursor with log := cursor.log.push event }

/-- Moves to the next token. Where the stream delivers a fault instead, the current token stays. -/
def advance : ParseM Unit := do
  let cursor ← get
  let (delivery, stream) := cursor.stream.next
  let log := cursor.log ++ delivery.events
  match delivery.result with
  | .ok current => set { cursor with current, stream, log }
  | .error fault =>
    set { cursor with stream, log }
    throw (.fault fault)

/-- The current token, from which the cursor moves on. -/
def consume : ParseM Token := do
  let token ← peek
  advance
  return token

/-! ## Faults and demands -/

/-- Fails at the given token. -/
def failAt (token : Token) (cause : Fault.Cause) : ParseM α := do
  throw (.fault ((← get).fault token cause))

/-- Fails at the current token. -/
def fail (cause : Fault.Cause) : ParseM α := do
  failAt (← peek) cause

/-- The current token, if it is what is expected. -/
def expect (expected : Expected) : ParseM Token := do
  let token ← peek
  if expected.accepts token then return token
  else fail (.unexpectedToken expected.phrase)

/-- The current token, if it is what is expected, from which the cursor moves on. -/
def take (expected : Expected) : ParseM Token := do
  let token ← expect expected
  advance
  return token

/-- The next token, if it is what is expected. -/
def expectNext (expected : Expected) : ParseM Token := do
  advance
  expect expected

/-- The next token, if it is what is expected, from which the cursor moves on. -/
def takeNext (expected : Expected) : ParseM Token := do
  advance
  take expected

/-- Demands that the text of the current token is one of those given. -/
def expectDelimiter (delimiters : List String) (message : String) : ParseM Unit := do
  let token ← peek
  unless delimiters.contains token.value do
    fail (.unexpectedText token.value message)

/-! ## Loops -/

/-- Goes round until a round is the last, but at most `bound` times. -/
def loopWithin (round : σ → ParseM (Round σ β)) : Nat → σ → ParseM β
  | 0, _ => throw .exhausted
  | bound + 1, state => do
    match ← round state with
    | .again state => loopWithin round bound state
    | .done result => return result

/-- Goes round until a round is the last, as often as the tokens ahead allow. -/
def loop (round : σ → ParseM (Round σ β)) (state : σ) : ParseM β := do
  loopWithin round (← get).budget state

/-- Moves past the newline tokens ahead. -/
def skipNewlines : ParseM Unit :=
  loop (fun _ => do
    if (← peek).isNewline then
      advance
      return .again ()
    else return .done ()) ()

/-- Items with commas between them, up to the token that `closes` and past it. An item is followed by
a comma, which may be the last, or by the text `closing`. -/
def items (closes : Token → Bool) (closing message : String) (item : ParseM α) :
    ParseM (List α) := do
  let found ← loop (fun found => do
    if closes (← peek) then return .done found
    let next ← item
    expectDelimiter [",", closing] message
    if (← peek).value == "," then advance
    return .again (found.push next)) #[]
  advance
  return found.toList

end ParseM

end Offside
