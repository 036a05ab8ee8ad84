import Offside.Expr.Basic
import Offside.Proofs.Token.Value

/-!
# The leaves of a tree

`Expr.leaves` lists the values in a tree in the order of the text. Places have no part in them
(`Expr.leaves_stamp`), and a body has the leaves of the block that it becomes
(`Expr.leavesBlock_toBlock`).
-/

namespace Offside

namespace TypeExpr

mutual

/-- The names in a type, in the order of the text. -/
def leaves : TypeExpr → List Leaf
  | named path => path.map .constant
  | tuple entries => entryLeaves entries
  | array element => element.leaves
  | function params result => allLeaves params ++ resultLeaves result
termination_by structural type => type

def allLeaves : List TypeExpr → List Leaf
  | [] => []
  | type :: rest => type.leaves ++ allLeaves rest
termination_by structural types => types

def resultLeaves : Option TypeExpr → List Leaf
  | none => []
  | some type => type.leaves
termination_by structural type => type

def entryLeaves : List (Option String × TypeExpr) → List Leaf
  | [] => []
  | (some name, type) :: rest => .identifier name :: (type.leaves ++ entryLeaves rest)
  | (none, type) :: rest => type.leaves ++ entryLeaves rest
termination_by structural entries => entries

end

theorem entryLeaves_cons (entry : Option String × TypeExpr)
    (entries : List (Option String × TypeExpr)) :
    entryLeaves (entry :: entries) = entryLeaves [entry] ++ entryLeaves entries := by
  obtain ⟨name, type⟩ := entry
  cases name <;> simp [entryLeaves]

end TypeExpr

def UseSegment.leaves : UseSegment → List Leaf
  | module name => [.constant name]
  | alternatives names => names.map .constant

def Parameter.leaves (parameter : Parameter) : List Leaf :=
  .identifier parameter.name :: parameter.type.leaves

namespace Expr

mutual

/-- The values in a tree in the order of the text. The arguments of a call stand before its target,
and those of an operator around it. -/
def leaves : Expr → List Leaf
  | block body => leavesBlock body
  | moduleDef _ name body => .constant name :: leavesBlock body
  | useDef _ path => path.flatMap UseSegment.leaves
  | reference _ modules name => modules.map .constant ++ [.identifier name]
  | intLit _ value => [.int value]
  | floatLit _ value => [.float value]
  | stringLit _ value => [.string value]
  | boolLit _ value => [.bool value]
  | identifier _ name => [.identifier name]
  | binary _ left operator right => left.leaves ++ .operator operator :: right.leaves
  | assign _ target value => target.leaves ++ value.leaves
  | arguments _ args => leavesAll args
  | call _ target args => leavesAll args ++ target.leaves
  | parameter param => param.leaves
  | functionDef _ name params result body =>
    .identifier name :: (params.flatMap Parameter.leaves ++ TypeExpr.resultLeaves result
      ++ leavesBlock body)
  | conditional _ condition whenTrue whenFalse =>
    condition.leaves ++ leavesBlock whenTrue ++ leavesBlock whenFalse
termination_by structural expr => expr

def leavesAll : List Expr → List Leaf
  | [] => []
  | expr :: rest => expr.leaves ++ leavesAll rest
termination_by structural exprs => exprs

def leavesBlock : Block Expr → List Leaf
  | ⟨_, contents⟩ => leavesAll contents
termination_by structural block => block

end

@[simp] theorem leavesBlock_toBlock (expr : Expr) : leavesBlock expr.toBlock = expr.leaves := by
  cases expr <;> simp [toBlock, leavesBlock, leavesAll, leaves]

@[simp] theorem leavesAll_callArguments (expr : Expr) :
    leavesAll expr.callArguments = expr.leaves := by
  cases expr <;> simp [callArguments, leavesAll, leaves]

mutual

@[simp] theorem leaves_stamp (origin : Origin) : ∀ expr : Expr, (expr.stamp origin).leaves = expr.leaves
  | block _ | moduleDef .. | useDef .. | reference .. | intLit .. | floatLit .. | stringLit ..
  | boolLit .. | identifier .. | parameter _ => rfl
  | binary _ left _ right => by simp [stamp, leaves, leaves_stamp origin left, leaves_stamp origin right]
  | assign _ target value => by
    simp [stamp, leaves, leaves_stamp origin target, leaves_stamp origin value]
  | arguments _ args => by simp [stamp, leaves, leavesAll_stampAll origin args]
  | call _ target args => by
    simp [stamp, leaves, leaves_stamp origin target, leavesAll_stampAll origin args]
  | functionDef _ _ params _ _ => by
    have hparam (param : Parameter) : (param.stamp origin).leaves = param.leaves := rfl
    simp [stamp, leaves, List.flatMap_map, hparam]
  | conditional _ condition _ _ => by simp [stamp, leaves, leaves_stamp origin condition]

theorem leavesAll_stampAll (origin : Origin) :
    ∀ exprs : List Expr, leavesAll (stampAll origin exprs) = leavesAll exprs
  | [] => rfl
  | expr :: rest => by
    simp [stampAll, leavesAll, leaves_stamp origin expr, leavesAll_stampAll origin rest]

end

end Expr

end Offside
