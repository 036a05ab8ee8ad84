import Offside.Expr.Stamp

/-!
# Expressions without places

`Expr.bare` takes the places off all nodes of an expression, those inside its blocks included. Two
expressions with the same bare form are built alike from the same names and values.
-/

namespace Offside.Expr

mutual

/-- The expression with no place on any of its nodes. -/
def bare : Expr → Expr
  | block body => .block (bareBlock body)
  | moduleDef _ name body => .moduleDef {} name (bareBlock body)
  | useDef _ path => .useDef {} path
  | reference _ modules name => .reference {} modules name
  | intLit _ value => .intLit {} value
  | floatLit _ value => .floatLit {} value
  | stringLit _ value => .stringLit {} value
  | boolLit _ value => .boolLit {} value
  | identifier _ name => .identifier {} name
  | binary _ left operator right => .binary {} left.bare operator right.bare
  | assign _ target value => .assign {} target.bare value.bare
  | arguments _ args => .arguments {} (bareAll args)
  | call _ target args => .call {} target.bare (bareAll args)
  | parameter param => .parameter (param.stamp {})
  | functionDef _ name params result body =>
    .functionDef {} name (params.map (Parameter.stamp {})) result (bareBlock body)
  | conditional _ condition whenTrue whenFalse =>
    .conditional {} condition.bare (bareBlock whenTrue) (bareBlock whenFalse)
termination_by structural expr => expr

def bareAll : List Expr → List Expr
  | [] => []
  | expr :: rest => expr.bare :: bareAll rest
termination_by structural exprs => exprs

def bareBlock : Block Expr → Block Expr
  | ⟨_, contents⟩ => { contents := bareAll contents }
termination_by structural block => block

end

theorem bareAll_eq_map (exprs : List Expr) : bareAll exprs = exprs.map bare := by
  induction exprs with
  | nil => rfl
  | cons expr rest ih => rw [bareAll, ih, List.map_cons]

theorem bareBlock_eq (body : Block Expr) :
    bareBlock body = { contents := body.contents.map bare } := by
  cases body
  rw [bareBlock, bareAll_eq_map]

mutual

/-- A stamp is no part of the bare form. -/
@[simp] theorem bare_stamp (origin : Origin) : ∀ expr : Expr, (expr.stamp origin).bare = expr.bare
  | block _ | moduleDef .. | useDef .. | reference .. | intLit .. | floatLit .. | stringLit ..
  | boolLit .. | identifier .. | parameter _ | functionDef .. => by
    simp [stamp, bare, Parameter.stamp, Function.comp_def]
  | binary _ left _ right => by simp only [stamp, bare, bare_stamp origin left, bare_stamp origin right]
  | assign _ target value => by
    simp only [stamp, bare, bare_stamp origin target, bare_stamp origin value]
  | arguments _ args => by simp only [stamp, bare, bareAll_stampAll origin args]
  | call _ target args => by
    simp only [stamp, bare, bare_stamp origin target, bareAll_stampAll origin args]
  | conditional _ condition _ _ => by simp only [stamp, bare, bare_stamp origin condition]

theorem bareAll_stampAll (origin : Origin) :
    ∀ exprs : List Expr, bareAll (stampAll origin exprs) = bareAll exprs
  | [] => rfl
  | expr :: rest => by
    simp only [stampAll, bareAll, bare_stamp origin expr, bareAll_stampAll origin rest]

end

@[simp] theorem bare_stampPosition (origin : Origin) (expr : Expr) :
    (expr.stampPosition origin).bare = expr.bare := by
  cases expr with
  | block => simp [stampPosition, bare, bareBlock_eq, Function.comp_def]
  | _ => exact bare_stamp origin _

/-! ## Expressions that are built alike -/

theorem bare_binary_congr {left left' right right' : Expr} {operator : String}
    (hleft : left'.bare = left.bare) (hright : right'.bare = right.bare) :
    (binary {} left' operator right').bare = (binary {} left operator right).bare := by
  rw [bare, bare, hleft, hright]

theorem bare_assign_congr {target target' value value' : Expr}
    (htarget : target'.bare = target.bare) (hvalue : value'.bare = value.bare) :
    (assign {} target' value').bare = (assign {} target value).bare := by
  rw [bare, bare, htarget, hvalue]

theorem bare_call_congr {target target' : Expr} {args args' : List Expr}
    (htarget : target'.bare = target.bare) (hargs : bareAll args' = bareAll args) :
    (call {} target' args').bare = (call {} target args).bare := by
  rw [bare, bare, htarget, hargs]

theorem bare_moduleDef_congr {name : String} {body body' : Block Expr} {origin : Origin}
    (hbody : bareBlock body' = bareBlock body) :
    (moduleDef {} name body').bare = (moduleDef origin name body).bare := by
  rw [bare, bare, hbody]

theorem bare_functionDef_congr {name : String} {params params' : List Parameter}
    {result : Option TypeExpr} {body body' : Block Expr} {origin : Origin}
    (hparams : params'.map (Parameter.stamp {}) = params.map (Parameter.stamp {}))
    (hbody : bareBlock body' = bareBlock body) :
    (functionDef {} name params' result body').bare =
      (functionDef origin name params result body).bare := by
  rw [bare, bare, hparams, hbody]

theorem bare_conditional_congr {condition condition' : Expr} {origin : Origin}
    {whenTrue whenTrue' whenFalse whenFalse' : Block Expr}
    (hcondition : condition'.bare = condition.bare) (htrue : bareBlock whenTrue' = bareBlock whenTrue)
    (hfalse : bareBlock whenFalse' = bareBlock whenFalse) :
    (conditional {} condition' whenTrue' whenFalse').bare =
      (conditional origin condition whenTrue whenFalse).bare := by
  rw [bare, bare, hcondition, htrue, hfalse]

end Offside.Expr
