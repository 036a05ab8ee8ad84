import Offside.Binary64.Shortest
import Offside.Expr.Basic
import Offside.Outline.Basic
import Offside.Text.Quoted
/-!
# Outlines of expressions

The outline of a node is a record of its values and the nodes below it, and its origin at the end.
Where any expression may stand, the record is wrapped in the name of its kind once more; a body and
the parameters of a function stand for themselves.
-/

namespace Offside

open Outline

/-- The outline of a text in quotes. -/
def Text.outline (text : String) : Outline :=
  atom (Text.quoted text)

namespace TypeExpr

mutual

def outline : TypeExpr → Outline
  | named path => record "Named" [("names", list (path.map Text.outline))]
  | tuple entries => record "Tuple" [("entries", list (entryOutlines entries))]
  | array element => record "Array" [("element", element.outline)]
  | function params none =>
    record "Function" [("arg_types", list (outlines params)), ("return_type", atom "None")]
  | function params (some result) =>
    record "Function"
      [("arg_types", list (outlines params)), ("return_type", .tuple "Some" [result.outline])]
termination_by structural type => type

def outlines : List TypeExpr → List Outline
  | [] => []
  | type :: rest => type.outline :: outlines rest
termination_by structural types => types

def entryOutlines : List (Option String × TypeExpr) → List Outline
  | [] => []
  | (name, type) :: rest =>
    .tuple "" [ofOption Text.outline name, type.outline] :: entryOutlines rest
termination_by structural entries => entries

end

end TypeExpr

def UseSegment.outline : UseSegment → Outline
  | module name => .tuple "Module" [Text.outline name]
  | alternatives names => .tuple "Alternatives" [list (names.map Text.outline)]

/-- The fields that every node has. -/
def Origin.fields (origin : Origin) : List (String × Outline) :=
  [("filename", Text.outline origin.file), ("line", atom (toString origin.line))]

def Parameter.outline (param : Parameter) : Outline :=
  record Expr.Kind.parameter.name
    ([("name", Text.outline param.name), ("given_type", param.type.outline)]
      ++ param.origin.fields)

namespace Expr

/-- A node of the given kind in a place where any expression may stand. -/
def node (kind : Kind) (origin : Origin) (fields : List (String × Outline)) : Outline :=
  .tuple kind.name [record kind.name (fields ++ origin.fields)]

mutual

def outline : Expr → Outline
  | block body => .tuple Kind.block.name [blockOutline body]
  | moduleDef origin name body =>
    node .moduleDef origin [("name", Text.outline name), ("body", blockOutline body)]
  | useDef origin path => node .useDef origin [("path", list (path.map UseSegment.outline))]
  | reference origin modules name =>
    node .reference origin
      [("constant", list (modules.map Text.outline)), ("name", Text.outline name)]
  | intLit origin value => node .intLit origin [("value", atom (toString value.toInt))]
  | floatLit origin value => node .floatLit origin [("value", atom value.text)]
  | stringLit origin value => node .stringLit origin [("value", Text.outline value)]
  | boolLit origin value => node .boolLit origin [("value", atom (toString value))]
  | identifier origin name => node .identifier origin [("value", Text.outline name)]
  | binary origin left operator right =>
    node .binary origin
      [("left", left.outline), ("op", Text.outline operator), ("right", right.outline)]
  | assign origin target value =>
    node .assign origin [("target", target.outline), ("value", value.outline)]
  | arguments origin args => node .arguments origin [("args", list (outlines args))]
  | call origin target args =>
    node .call origin [("target", target.outline), ("args", list (outlines args))]
  | parameter param => .tuple Kind.parameter.name [param.outline]
  | functionDef origin name params result body =>
    node .functionDef origin
      [("name", Text.outline name), ("args", list (params.map Parameter.outline)),
        ("return_type", ofOption TypeExpr.outline result), ("body", blockOutline body)]
  | conditional origin condition whenTrue whenFalse =>
    node .conditional origin
      [("condition", condition.outline), ("true_body", blockOutline whenTrue),
        ("false_body", blockOutline whenFalse)]
termination_by structural expr => expr

def outlines : List Expr → List Outline
  | [] => []
  | expr :: rest => expr.outline :: outlines rest
termination_by structural exprs => exprs

def blockOutline : Block Expr → Outline
  | ⟨origin, contents⟩ =>
    record Kind.block.name (("contents", list (outlines contents)) :: origin.fields)
termination_by structural block => block

end

end Expr

end Offside
