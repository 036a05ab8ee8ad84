import Offside.Cursor
import Offside.TypeExpr.Basic
/-!
# Parsing types

`TypeExpr.parse` reads the type at the cursor:

* `A::B`, a path of names;
* `(a: A, B)`, a tuple, whose entries may have names;
* `[]T`, an array;
* `fn (A, B) -> R`, a function. The parentheses may be left out around a single parameter that does
  not itself begin with one, and an arrow belongs to the innermost function.
-/

namespace Offside.TypeExpr

open ParseM

/-- Whether a type can begin with the token. -/
def starts (token : Token) : Bool :=
  token.isConstant || token.isKeyword "fn" || token.value == "(" || token.value == "["

/-- A path of names. -/
def parseNamed : ParseM TypeExpr := do
  let first ← take (.kind .constant)
  let path ← loop (fun path => do
    if (← peek).value == "::" then
      return .again (path.push (← takeNext (.kind .constant)).value)
    else return .done path) #[first.value]
  return .named path.toList

/-- An entry of a tuple, with the types inside it parsed by `inner`. -/
def parseEntry (inner : ParseM TypeExpr) : ParseM (Option String × TypeExpr) := do
  if (← peek).isIdentifier then
    let name ← consume
    let _ ← take (.text ":")
    return (some name.value, ← inner)
  else return (none, ← inner)

def parseTuple (inner : ParseM TypeExpr) : ParseM TypeExpr := do
  advance
  return .tuple (← items (·.value == ")") ")" "Expected , or ) in tuple signature here:"
    (parseEntry inner))

/-- The parameters of a function. -/
def parseParams (inner : ParseM TypeExpr) : ParseM (List TypeExpr) := do
  let token ← peek
  if token.value == "(" then
    advance
    items (·.value == ")") ")" "Expected , or ) in function signature" inner
  else if starts token then return [← inner]
  else return []

def parseFunction (inner : ParseM TypeExpr) : ParseM TypeExpr := do
  advance
  let params ← parseParams inner
  if (← peek).value == "->" then
    advance
    return .function params (some (← inner))
  else return .function params none

/-- A type, with the types inside it parsed by `inner`. -/
def parseStep (inner : ParseM TypeExpr) : ParseM TypeExpr := do
  let token ← peek
  if token.value == "(" then parseTuple inner
  else if token.value == "[" then
    let _ ← takeNext (.text "]")
    return .array (← inner)
  else if token.isKeyword "fn" then parseFunction inner
  else parseNamed

/-- A type that nests less deep than `depth`. -/
def parseWithin : Nat → ParseM TypeExpr
  | 0 => throw .exhausted
  | depth + 1 => parseStep (parseWithin depth)

/-- The type at the cursor. -/
def parse : ParseM TypeExpr := do
  parseWithin (← get).budget

end Offside.TypeExpr
