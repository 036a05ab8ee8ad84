import Offside.Expr.Basic
/-!
# Stamping

Stamping writes an origin on a node and on the nodes below it. It stops at blocks, whose statements
have origins of their own: `Expr.stamp` changes nothing of a block, and `Expr.stampPosition` writes
on the block that it is given, and stamps each of its statements.
-/

namespace Offside

def Parameter.stamp (origin : Origin) (parameter : Parameter) : Parameter :=
  { parameter with origin }

namespace Expr

mutual

/-- Writes the origin on every node that is reached without entering a block. -/
def stamp (origin : Origin) : Expr → Expr
  | block body => .block body
  | moduleDef _ name body => .moduleDef origin name body
  | useDef _ path => .useDef origin path
  | reference _ modules name => .reference origin modules name
  | intLit _ value => .intLit origin value
  | floatLit _ value => .floatLit origin value
  | stringLit _ value => .stringLit origin value
  | boolLit _ value => .boolLit origin value
  | identifier _ name => .identifier origin name
  | binary _ left operator right => .binary origin (left.stamp origin) operator (right.stamp origin)
  | assign _ target value => .assign origin (target.stamp origin) (value.stamp origin)
  | arguments _ args => .arguments origin (stampAll origin args)
  | call _ target args => .call origin (target.stamp origin) (stampAll origin args)
  | parameter param => .parameter (param.stamp origin)
  | functionDef _ name params result body =>
    .functionDef origin name (params.map (Parameter.stamp origin)) result body
  | conditional _ condition whenTrue whenFalse =>
    .conditional origin (condition.stamp origin) whenTrue whenFalse
termination_by structural expr => expr

def stampAll (origin : Origin) : List Expr → List Expr
  | [] => []
  | expr :: rest => expr.stamp origin :: stampAll origin rest
termination_by structural exprs => exprs

end

theorem stampAll_eq_map (origin : Origin) (exprs : List Expr) :
    stampAll origin exprs = exprs.map (stamp origin) := by
  induction exprs with
  | nil => rfl
  | cons expr rest ih => simp [stampAll, ih]

/-- Writes the origin on the node itself, which may be a block, and on every node that is reached
from it without entering another block. -/
def stampPosition (origin : Origin) : Expr → Expr
  | block body => .block { origin, contents := body.contents.map (stamp origin) }
  | expr => expr.stamp origin

end Expr

end Offside
