import Offside.Cursor
import Offside.Expr.Stamp
/-!
# Grammars

A grammar is a list of rules that start an expression at a token and a list of rules that extend an
expression to the left of a token. Of each list the first rule that accepts a token applies. A rule
that extends has a binding power, and an expression goes on as long as the rule for the current
token binds more strongly than the floor that the expression was asked for with.

Rules parse the expressions inside theirs with the parser that they are given, so that
`Grammar.expressionWithin` is one recursion on the depth of nesting, and `Grammar.expression`
allows as much depth as there are tokens.
-/

namespace Offside

/-- How strongly a rule binds the expressions beside its token. -/
inductive Power where
  | lowest
  | assignment
  | call
  | logicalOr
  | logicalAnd
  | equality
  | relational
  | modulo
  | additive
  | multiplicative
deriving DecidableEq, Repr

namespace Power

def toNat : Power → Nat
  | lowest => 0
  | assignment => 1
  | call => 3
  | logicalOr => 4
  | logicalAnd => 5
  | equality => 9
  | relational => 10
  | modulo => 11
  | additive => 12
  | multiplicative => 13

instance : LT Power where
  lt a b := a.toNat < b.toNat

instance : LE Power where
  le a b := a.toNat ≤ b.toNat

instance (a b : Power) : Decidable (a < b) :=
  inferInstanceAs (Decidable (a.toNat < b.toNat))

instance (a b : Power) : Decidable (a ≤ b) :=
  inferInstanceAs (Decidable (a.toNat ≤ b.toNat))

end Power

/-- How expressions are parsed above a floor. There may be none at the cursor. -/
abbrev ExprParser := Power → ParseM (Option Expr)

/-- A rule that starts an expression at a token. -/
structure Starter where
  name : String
  accepts : Token → Bool
  parse : ExprParser → ParseM Expr

/-- A rule that extends the expression to the left of a token. -/
structure Extender where
  name : String
  power : Power
  accepts : Token → Bool
  parse : ExprParser → Expr → Power → ParseM Expr

/-- The rules of a language, those of higher priority first. -/
structure Grammar where
  starters : List Starter := []
  extenders : List Extender := []

/-- An expression, which has to be there. -/
def ExprParser.required (inner : ExprParser) (floor : Power) : ParseM Expr := do
  match ← inner floor with
  | some expr => return expr
  | none => ParseM.fail .missingExpression

namespace Grammar

open ParseM

/-- The rule that starts an expression at the token. -/
def starter? (grammar : Grammar) (token : Token) : Option Starter :=
  grammar.starters.find? (·.accepts token)

/-- The rule that extends an expression at the token. -/
def extender? (grammar : Grammar) (token : Token) : Option Extender :=
  grammar.extenders.find? (·.accepts token)

/-- The power with which a token binds, the lowest for one that extends nothing. -/
def power (grammar : Grammar) (token : Token) : Power :=
  ((grammar.extender? token).map (·.power)).getD .lowest

/-- Extends an expression by the rules that bind more strongly than the floor. -/
def extend (grammar : Grammar) (inner : ExprParser) (floor : Power) (left : Expr) : ParseM Expr :=
  loop (fun left => do
    let token ← peek
    match grammar.extender? token with
    | some rule =>
      if floor < rule.power then
        note (.ruleExtended rule.name token)
        return .again (← rule.parse inner left rule.power)
      else return .done left
    | none => return .done left) left

/-- An expression, with the expressions inside it parsed by `inner`. All of it, as far as its
blocks, is stamped with the line of its first token. -/
def expressionStep (grammar : Grammar) (inner : ExprParser) : ExprParser := fun floor => do
  skipNewlines
  let token ← peek
  match grammar.starter? token with
  | none => return none
  | some rule =>
    note (.ruleStarted rule.name token)
    let start ← rule.parse inner
    let whole ← grammar.extend inner floor start
    return some (whole.stamp { file := (← get).file, line := token.line })

/-- An expression that nests less deep than `depth`. -/
def expressionWithin (grammar : Grammar) : Nat → ExprParser
  | 0 => fun _ => throw .exhausted
  | depth + 1 => grammar.expressionStep (grammar.expressionWithin depth)

/-- The expression at the cursor, if there is one. -/
def expression (grammar : Grammar) : ExprParser := fun floor => do
  grammar.expressionWithin (← get).budget floor

/-- The expressions up to the first token that starts none, which has to be the end of the text. -/
def program (grammar : Grammar) : ParseM (Block Expr) := do
  let contents ← loop (fun contents => do
    match ← grammar.expression .lowest with
    | some expr => return .again (contents.push expr)
    | none => return .done contents) #[]
  let token ← peek
  unless token.isEnd do
    fail (.trailingInput (toString token))
  note (.fileParsed contents.size)
  return { contents := contents.toList }

end Grammar

end Offside
