import Offside.Binary64.Decimal
import Offside.Grammar.Basic
/-!
# Operands, operators and calls

The rules for what stands within a line: literals, names, parentheses, the binary operators,
assignments and calls.
-/

namespace Offside

/-- The value of digits after an optional sign. -/
def Text.intOfText? (text : String) : Option Int :=
  let (sign, digits) := Pattern.splitSign text.toList
  if digits.isEmpty || !digits.all Char.isDigit then none
  else
    let value : Int := Text.decimalValue digits
    some (if sign == ['-'] then -value else value)

/-- The integer that a text denotes, with or without an `L` at its end, unless it is out of the
range of 64 bits. -/
def Text.int64OfText? (text : String) : Option Int64 :=
  let digits := (text.toList.reverse.dropWhile (· == 'L')).reverse
  match Text.intOfText? (String.ofList digits) with
  | some value =>
    if Int64.minValue.toInt ≤ value && value ≤ Int64.maxValue.toInt then
      some (Int64.ofInt value)
    else none
  | none => none

namespace Grammar

open ParseM

/-- The text of a string without the marks around it. -/
def unquoted (text : String) : String :=
  String.ofList (text.toList.drop 1).dropLast

/-- A literal or a name. -/
def primary : ParseM Expr := do
  let token ← consume
  match token.kind with
  | .keyword => return .boolLit {} (token.value == "true")
  | .integer =>
    match Text.int64OfText? token.value with
    | some value => return .intLit {} value
    | none => failAt token (.invalidNumber token.value)
  | .float =>
    match Binary64.ofText? token.value with
    | some value => return .floatLit {} value
    | none => failAt token (.invalidNumber token.value)
  | .string => return .stringLit {} (unquoted token.value)
  | .identifier => return .identifier {} token.value
  | _ => failAt token .missingExpression

/-- A function of a module: `A::B::name`. -/
def scopedReference : ParseM Expr := do
  let first ← consume
  loop (fun modules => do
    if (← peek).value == "::" then
      advance
      if (← peek).isConstant then return .again (modules.push (← consume).value)
      else
        let name ← take (.kind .identifier)
        return .done (.reference {} modules.toList name.value)
    else fail (.missingFunctionName ("::".intercalate modules.toList))) #[first.value]

/-- Parentheses around one expression, which are left out of the tree, or around none or several,
which are the arguments of a call. -/
def grouping (inner : ExprParser) : ParseM Expr := do
  let message := "Expected , or ) here:"
  advance
  if (← peek).value == ")" then
    advance
    return .arguments {} []
  let first ← inner.required .lowest
  expectDelimiter [",", ")"] message
  if (← peek).value == ")" then
    advance
    return first
  let args ← loop (fun args => do
    if (← peek).value == ")" then return .done args
    advance
    let next ← inner.required .lowest
    expectDelimiter [",", ")"] message
    return .again (args.push next)) #[first]
  advance
  return .arguments {} args.toList

/-- `left op right`. -/
def binary (inner : ExprParser) (left : Expr) (power : Power) : ParseM Expr := do
  let operator ← consume
  let right ← inner.required power
  return .binary {} left operator.value right

/-- `target = value`. Whatever its power, the value reaches as far as it can, so a chain of
assignments nests to the right. -/
def assignment (inner : ExprParser) (target : Expr) (_power : Power) : ParseM Expr := do
  advance
  let value ← inner.required .lowest
  return .assign {} target value

/-- `args -> target`. Anything but arguments in parentheses is the only argument. -/
def call (inner : ExprParser) (left : Expr) (power : Power) : ParseM Expr := do
  advance
  let target ← inner.required power
  match left with
  | .arguments _ args => return .call {} target args
  | single => return .call {} target [single]

end Grammar

end Offside
