import Offside.Grammar.Standard

/-!
# The parts of the parsers

A name for the round of each loop of the grammar, and for each rule with a body the parser of the
whole around the parser of its body, so that statements can be made about them. The equations say
where they are used.
-/

namespace Offside

open ParseM

/-- One more name of a path. -/
def TypeExpr.pathRound (path : Array String) : ParseM (Round (Array String) (Array String)) := do
  if (← peek).value == "::" then
    return .again (path.push (← takeNext (.kind .constant)).value)
  else return .done path

theorem TypeExpr.parseNamed_eq :
    parseNamed = (do
      let first ← take (.kind .constant)
      let path ← loop pathRound #[first.value]
      return .named path.toList) :=
  rfl

namespace Grammar

/-! ## Operands -/

/-- One more module of a scoped reference, or the function. -/
def scopeRound (modules : Array String) : ParseM (Round (Array String) Expr) := do
  if (← peek).value == "::" then
    advance
    if (← peek).isConstant then return .again (modules.push (← consume).value)
    else
      let name ← take (.kind .identifier)
      return .done (.reference {} modules.toList name.value)
  else fail (.missingFunctionName ("::".intercalate modules.toList))

theorem scopedReference_eq :
    scopedReference = (do
      let first ← consume
      loop scopeRound #[first.value]) :=
  rfl

/-- One more argument in parentheses. -/
def argumentRound (inner : ExprParser) (message : String) (args : Array Expr) :
    ParseM (Round (Array Expr) (Array Expr)) := do
  if (← peek).value == ")" then return .done args
  advance
  let next ← inner.required .lowest
  expectDelimiter [",", ")"] message
  return .again (args.push next)

theorem grouping_eq (inner : ExprParser) :
    grouping inner = (do
      let message := "Expected , or ) here:"
      advance
      if (← peek).value == ")" then
        advance
        return .arguments {} []
      let first ← inner.required .lowest
      expectDelimiter [",", ")"] message
      if (← peek).value == ")" then
        advance
        return first
      let args ← loop (argumentRound inner message) #[first]
      advance
      return .arguments {} args.toList) :=
  rfl

/-! ## Declarations -/

/-- One more statement of a block. -/
def statementRound (inner : ExprParser) (found : Array Expr) :
    ParseM (Round (Array Expr) (Array Expr)) := do
  skipNewlines
  let token ← peek
  if token.kind == .outdent || token.isEnd then return .done found
  return .again (found.push (← inner.required .lowest))

theorem statements_eq (inner : ExprParser) :
    statements inner = (do
      let found ← loop (statementRound inner) #[]
      return found.toList) :=
  rfl

/-- The name of a module. -/
def moduleName : ParseM String := do
  return (← take (.kind .constant)).value

theorem useSegment_eq :
    useSegment = (do
      if (← peek).value == "\x7b" then
        advance
        return .alternatives
          (← items (·.value == "\x7d") "\x7d" "Expected '\x7d' or ',' here:" moduleName)
      else return .module (← take (.kind .constant)).value) :=
  rfl

/-- One more step of the path of a `use` declaration. -/
def useRound (path : Array UseSegment) : ParseM (Round (Array UseSegment) (Array UseSegment)) := do
  if (← peek).value == "::" then
    advance
    return .again (path.push (← useSegment))
  else return .done path

theorem useDef_eq :
    useDef = (do
      advance
      let first ← take (.kind .constant)
      let path ← loop useRound #[.module first.value]
      return .useDef {} path.toList) :=
  rfl

/-- The result type of a function, if there is an arrow. -/
def resultType : ParseM (Option TypeExpr) := do
  if (← peek).value == "->" then
    advance
    some <$> TypeExpr.parse
  else return none

/-- A module around its body. -/
def moduleAround (body : ParseM Expr) : ParseM Expr := do
  let name ← takeNext (.kind .constant)
  let body ← body
  return .moduleDef {} name.value body.toBlock

/-- A function around its body. -/
def functionAround (body : ParseM Expr) : ParseM Expr := do
  let name ← takeNext (.kind .identifier)
  let params ← parameters
  let result ← resultType
  let body ← body
  return .functionDef {} name.value params result body.toBlock

/-- A conditional around its bodies. -/
def conditionalAround (inner : ExprParser) (body : ParseM Expr) : ParseM Expr := do
  advance
  let condition ← inner.required .lowest
  let whenTrue ← body
  skipNewlines
  if (← peek).isKeyword "else" then
    advance
    let whenFalse ← body
    return .conditional {} condition whenTrue.toBlock whenFalse.toBlock
  else return .conditional {} condition whenTrue.toBlock {}

/-- The rules that start an expression, with another parser for bodies. -/
def startersAround (body : ExprParser → ParseM Expr) : List Starter :=
  [⟨"bool", fun token => token.value == "true" || token.value == "false", fun _ => primary⟩,
    ⟨"integer", fun token => token.kind == .integer, fun _ => primary⟩,
    ⟨"float", fun token => token.kind == .float, fun _ => primary⟩,
    ⟨"string", fun token => token.kind == .string, fun _ => primary⟩,
    ⟨"identifier", fun token => token.isIdentifier, fun _ => primary⟩,
    ⟨"module", fun token => token.isKeyword "module", fun inner => moduleAround (body inner)⟩,
    ⟨"use", fun token => token.isKeyword "use", fun _ => useDef⟩,
    ⟨"scoped reference", fun token => token.isConstant, fun _ => scopedReference⟩,
    ⟨"grouping", fun token => token.kind == .leftParen, grouping⟩,
    ⟨"fn", fun token => token.isKeyword "fn", fun inner => functionAround (body inner)⟩,
    ⟨"if", fun token => token.isKeyword "if", fun inner => conditionalAround inner (body inner)⟩]

/-- The rules of the language, with another parser for bodies. -/
def standardAround (body : ExprParser → ParseM Expr) : Grammar where
  starters := startersAround body
  extenders := standardExtenders

theorem functionDef_eq (inner : ExprParser) :
    functionDef inner = functionAround (body inner true) := by
  refine bind_congr fun name => bind_congr fun params => ?_
  rw [resultType, bind_assoc]
  refine bind_congr fun token => ?_
  split <;> simp

theorem standard_eq : standard = standardAround (body · true) := by
  rw [standard, standardStarters, funext functionDef_eq]
  rfl

/-! ## Whole grammars -/

/-- One more rule that extends an expression. -/
def extendRound (grammar : Grammar) (inner : ExprParser) (floor : Power) (left : Expr) :
    ParseM (Round Expr Expr) := do
  let token ← peek
  match grammar.extender? token with
  | some rule =>
    if floor < rule.power then
      note (.ruleExtended rule.name token)
      return .again (← rule.parse inner left rule.power)
    else return .done left
  | none => return .done left

theorem extend_eq (grammar : Grammar) (inner : ExprParser) (floor : Power) (left : Expr) :
    grammar.extend inner floor left = loop (grammar.extendRound inner floor) left :=
  rfl

/-- One more statement of a text. -/
def programRound (grammar : Grammar) (contents : Array Expr) :
    ParseM (Round (Array Expr) (Array Expr)) := do
  match ← grammar.expression .lowest with
  | some expr => return .again (contents.push expr)
  | none => return .done contents

theorem program_eq (grammar : Grammar) :
    grammar.program = (do
      let contents ← loop grammar.programRound #[]
      let token ← peek
      unless token.isEnd do
        fail (.trailingInput (toString token))
      note (.fileParsed contents.size)
      return { contents := contents.toList }) :=
  rfl

end Grammar

end Offside
