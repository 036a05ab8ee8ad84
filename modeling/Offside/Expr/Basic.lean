import Offside.Binary64.Basic
import Offside.TypeExpr.Basic
/-!
# Expressions

The syntax tree. Declarations are expressions too: a text is a block of expressions, and so is the
body of a module, of a function and of each branch of a conditional. Every node knows where its
statement begins (`Origin`), and so does a block that was given a place of its own.

`Expr.kind`, `Expr.origin` and `Expr.children` are the views of a node that do not depend on its
constructor.
-/

namespace Offside

/-- The file and the line that a node comes from. A node that was never stamped has none. -/
structure Origin where
  file : String := ""
  line : Nat := 0
deriving DecidableEq, Inhabited, Repr

/-- A sequence of statements. -/
structure Block (α : Type) where
  origin : Origin := {}
  contents : List α := []
deriving DecidableEq, Inhabited, Repr

/-- A parameter of a function: its name and its type. -/
structure Parameter where
  origin : Origin := {}
  name : String
  type : TypeExpr
deriving DecidableEq, Inhabited, Repr

/-- A step of the path in a `use` declaration. -/
inductive UseSegment where
  | module (name : String)
  /-- Several modules at once: `{A, B}`. -/
  | alternatives (names : List String)
deriving DecidableEq, Inhabited, Repr

inductive Expr where
  | block (body : Block Expr)
  | moduleDef (origin : Origin) (name : String) (body : Block Expr)
  | useDef (origin : Origin) (path : List UseSegment)
  /-- A function of a module: `A::B::name`. -/
  | reference (origin : Origin) (modules : List String) (name : String)
  | intLit (origin : Origin) (value : Int64)
  | floatLit (origin : Origin) (value : Binary64)
  /-- A string without the marks around it, its escapes as they are written. -/
  | stringLit (origin : Origin) (value : String)
  | boolLit (origin : Origin) (value : Bool)
  | identifier (origin : Origin) (name : String)
  | binary (origin : Origin) (left : Expr) (operator : String) (right : Expr)
  | assign (origin : Origin) (target value : Expr)
  /-- Arguments in parentheses, which wait for the target of their call. -/
  | arguments (origin : Origin) (args : List Expr)
  /-- A call: `args -> target`. -/
  | call (origin : Origin) (target : Expr) (args : List Expr)
  | parameter (param : Parameter)
  | functionDef (origin : Origin) (name : String) (params : List Parameter)
      (result : Option TypeExpr) (body : Block Expr)
  /-- A conditional. A missing `else` is an empty block. -/
  | conditional (origin : Origin) (condition : Expr) (whenTrue whenFalse : Block Expr)
deriving Inhabited

namespace Expr

/-- The constructors of expressions. -/
inductive Kind where
  | block
  | moduleDef
  | useDef
  | reference
  | intLit
  | floatLit
  | stringLit
  | boolLit
  | identifier
  | binary
  | assign
  | arguments
  | call
  | parameter
  | functionDef
  | conditional
deriving DecidableEq, Inhabited, Repr

/-- The name of a kind of node in descriptions of a tree. -/
def Kind.name : Kind → String
  | block => "Expressions"
  | moduleDef => "ModuleDef"
  | useDef => "Use"
  | reference => "ModuleFunctionRef"
  | intLit => "IntLiteral"
  | floatLit => "FloatLiteral"
  | stringLit => "StringLiteral"
  | boolLit => "BoolLiteral"
  | identifier => "Identifier"
  | binary => "Binary"
  | assign => "Assign"
  | arguments => "CallArgs"
  | call => "Call"
  | parameter => "FunctionArg"
  | functionDef => "FunctionDef"
  | conditional => "If"

def kind : Expr → Kind
  | block _ => .block
  | moduleDef .. => .moduleDef
  | useDef .. => .useDef
  | reference .. => .reference
  | intLit .. => .intLit
  | floatLit .. => .floatLit
  | stringLit .. => .stringLit
  | boolLit .. => .boolLit
  | identifier .. => .identifier
  | binary .. => .binary
  | assign .. => .assign
  | arguments .. => .arguments
  | call .. => .call
  | parameter _ => .parameter
  | functionDef .. => .functionDef
  | conditional .. => .conditional

def origin : Expr → Origin
  | block body => body.origin
  | parameter param => param.origin
  | moduleDef origin .. | useDef origin .. | reference origin .. | intLit origin ..
  | floatLit origin .. | stringLit origin .. | boolLit origin .. | identifier origin ..
  | binary origin .. | assign origin .. | arguments origin .. | call origin ..
  | functionDef origin .. | conditional origin .. => origin

/-- The nodes right below a node, in the order in which they are declared. Bodies are blocks. -/
def children : Expr → List Expr
  | block body => body.contents
  | moduleDef _ _ body => [.block body]
  | binary _ left _ right => [left, right]
  | assign _ target value => [target, value]
  | arguments _ args => args
  | call _ target args => target :: args
  | functionDef _ _ params _ body => params.map parameter ++ [.block body]
  | conditional _ condition whenTrue whenFalse => [condition, .block whenTrue, .block whenFalse]
  | useDef .. | reference .. | intLit .. | floatLit .. | stringLit .. | boolLit .. | identifier ..
  | parameter _ => []

/-- The expression as a body: a block stays as it is, anything else is the only statement. -/
def toBlock : Expr → Block Expr
  | block body => body
  | single => { contents := [single] }

end Expr

end Offside
