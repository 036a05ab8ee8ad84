import Offside.Grammar.Declaration
import Offside.Grammar.Operand
/-!
# The grammar of the language

`Grammar.standard` lists the rules of the language in order of priority.
-/

namespace Offside.Grammar

/-- The rules that start an expression. -/
def standardStarters : List Starter :=
  [⟨"bool", fun token => token.value == "true" || token.value == "false", fun _ => primary⟩,
    ⟨"integer", fun token => token.kind == .integer, fun _ => primary⟩,
    ⟨"float", fun token => token.kind == .float, fun _ => primary⟩,
    ⟨"string", fun token => token.kind == .string, fun _ => primary⟩,
    ⟨"identifier", fun token => token.isIdentifier, fun _ => primary⟩,
    ⟨"module", fun token => token.isKeyword "module", moduleDef⟩,
    ⟨"use", fun token => token.isKeyword "use", fun _ => useDef⟩,
    ⟨"scoped reference", fun token => token.isConstant, fun _ => scopedReference⟩,
    ⟨"grouping", fun token => token.kind == .leftParen, grouping⟩,
    ⟨"fn", fun token => token.isKeyword "fn", functionDef⟩,
    ⟨"if", fun token => token.isKeyword "if", conditional⟩]

/-- The rule of a binary operator, which is named for its token. -/
def operator (text : String) (power : Power) : Extender :=
  ⟨text, power, fun token => token.isOperator text, binary⟩

/-- The rules that extend an expression. -/
def standardExtenders : List Extender :=
  [operator "+" .additive,
    operator "-" .additive,
    operator "*" .multiplicative,
    operator "/" .multiplicative,
    operator "%" .modulo,
    operator "&&" .logicalAnd,
    operator "||" .logicalOr,
    operator "<" .relational,
    operator "<=" .relational,
    operator ">" .relational,
    operator ">=" .relational,
    operator "==" .equality,
    operator "!=" .equality,
    ⟨"=", .assignment, fun token => token.value == "=", assignment⟩,
    ⟨"->", .call, fun token => token.value == "->", call⟩]

/-- The rules of the language. -/
def standard : Grammar where
  starters := standardStarters
  extenders := standardExtenders

end Offside.Grammar
