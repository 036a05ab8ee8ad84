import Offside.Grammar.Basic
import Offside.TypeExpr.Parser
/-!
# Declarations and conditionals

The rules for what has a body: modules, functions and conditionals; and the rule for `use`.
-/

namespace Offside.Grammar

open ParseM

/-- The statements of a block, up to the token that ends it. -/
def statements (inner : ExprParser) : ParseM (List Expr) := do
  let found ← loop (fun found => do
    skipNewlines
    let token ← peek
    if token.kind == .outdent || token.isEnd then return .done found
    return .again (found.push (← inner.required .lowest))) #[]
  return found.toList

/-- A body: either an indented block, and with `trailing` the line break after it, or the single
expression that follows. -/
def body (inner : ExprParser) (trailing : Bool) : ParseM Expr := do
  skipNewlines
  if (← peek).kind == .indent then
    advance
    let contents ← statements inner
    advance
    if trailing && (← peek).isNewline then advance
    return .block { contents }
  else
    match ← inner .lowest with
    | some expr => return expr
    | none => fail .missingBody

/-- `module Name` and a body. -/
def moduleDef (inner : ExprParser) : ParseM Expr := do
  let name ← takeNext (.kind .constant)
  let body ← body inner true
  return .moduleDef {} name.value body.toBlock

/-- A step of the path of a `use` declaration. -/
def useSegment : ParseM UseSegment := do
  if (← peek).value == "\x7b" then
    advance
    let names ← items (·.value == "\x7d") "\x7d" "Expected '\x7d' or ',' here:" do
      return (← take (.kind .constant)).value
    return .alternatives names
  else return .module (← take (.kind .constant)).value

/-- `use A::B::` and a name or several in braces. -/
def useDef : ParseM Expr := do
  advance
  let first ← take (.kind .constant)
  let path ← loop (fun path => do
    if (← peek).value == "::" then
      advance
      return .again (path.push (← useSegment))
    else return .done path) #[.module first.value]
  return .useDef {} path.toList

/-- A parameter of a function: `name: Type`. -/
def parameter : ParseM Parameter := do
  let name ← take (.kind .identifier)
  let _ ← take (.text ":")
  return { name := name.value, type := ← TypeExpr.parse }

/-- The parameters of a function: one, or any number in parentheses. -/
def parameters : ParseM (List Parameter) := do
  let token ← peek
  if token.isIdentifier then return [← parameter]
  else if token.kind == .leftParen then
    advance
    items (·.kind == .rightParen) ")" "Expected ',' or ')' in function arg list" parameter
  else return []

/-- `fn name`, parameters, a result type after an arrow, and a body. -/
def functionDef (inner : ExprParser) : ParseM Expr := do
  let name ← takeNext (.kind .identifier)
  let params ← parameters
  let result ←
    if (← peek).value == "->" then
      advance
      some <$> TypeExpr.parse
    else pure none
  let body ← body inner true
  return .functionDef {} name.value params result body.toBlock

/-- `if`, a condition and a body, and perhaps `else` and another body. -/
def conditional (inner : ExprParser) : ParseM Expr := do
  advance
  let condition ← inner.required .lowest
  let whenTrue ← body inner true
  skipNewlines
  if (← peek).isKeyword "else" then
    advance
    let whenFalse ← body inner true
    return .conditional {} condition whenTrue.toBlock whenFalse.toBlock
  else return .conditional {} condition whenTrue.toBlock {}

end Offside.Grammar
