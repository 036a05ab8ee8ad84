import Offside.Proofs.Expr.Printing

/-!
# Well-formed expressions

`Expr.WellFormed` says what a node may have below it: blocks stand only where a node has a body, the
bodies of modules and functions have statements, lists of arguments have a length that is allowed,
and names are names. Inside a well-formed tree each node is well formed, or a body or a parameter
(`Expr.Part.within`).
-/

namespace Offside

namespace Expr

/-- A well-formed expression, where `lists` holds of the lengths that lists of arguments may have.
Blocks and parameters are not expressions: they stand in the places that other nodes have for
them. -/
inductive WellFormed (lists : Nat → Prop) : Expr → Prop
  | moduleDef {origin : Origin} {name : String} {body : Block Expr}
    (hname : Text.isConstant name = true) (hne : body.contents ≠ [])
    (hbody : ∀ statement ∈ body.contents, WellFormed lists statement) :
    WellFormed lists (.moduleDef origin name body)
  | useDef {origin : Origin} {path : List UseSegment} (hpath : isUsePath path = true) :
    WellFormed lists (.useDef origin path)
  | reference {origin : Origin} {modules : List String} {name : String} (hne : modules ≠ [])
    (hmodules : ∀ module ∈ modules, Text.isConstant module = true)
    (hname : Text.isIdentifier name = true) : WellFormed lists (.reference origin modules name)
  | intLit {origin : Origin} {value : Int64} : WellFormed lists (.intLit origin value)
  | floatLit {origin : Origin} {value : Binary64} : WellFormed lists (.floatLit origin value)
  | stringLit {origin : Origin} {value : String} (hline : '\n' ∉ value.toList) :
    WellFormed lists (.stringLit origin value)
  | boolLit {origin : Origin} {value : Bool} : WellFormed lists (.boolLit origin value)
  | identifier {origin : Origin} {name : String} (hname : Text.isIdentifier name = true) :
    WellFormed lists (.identifier origin name)
  | binary {origin : Origin} {left right : Expr} {operator : String} (hleft : WellFormed lists left)
    (hoperator : operator ∈ Grammar.operatorPowers.map Prod.fst) (hright : WellFormed lists right) :
    WellFormed lists (.binary origin left operator right)
  | assign {origin : Origin} {target value : Expr} (htarget : WellFormed lists target)
    (hvalue : WellFormed lists value) : WellFormed lists (.assign origin target value)
  | arguments {origin : Origin} {args : List Expr} (hlength : lists args.length)
    (hargs : ∀ arg ∈ args, WellFormed lists arg) : WellFormed lists (.arguments origin args)
  /-- Arguments in parentheses are the arguments of a call, and not its only one. -/
  | call {origin : Origin} {target : Expr} {args : List Expr} (htarget : WellFormed lists target)
    (hsingle : ∀ arg, args = [arg] → arg.kind ≠ .arguments)
    (hargs : ∀ arg ∈ args, WellFormed lists arg) : WellFormed lists (.call origin target args)
  | functionDef {origin : Origin} {name : String} {params : List Parameter}
    {result : Option TypeExpr} {body : Block Expr} (hname : Text.isIdentifier name = true)
    (hparams : ∀ param ∈ params, param.isSpellable = true)
    (hresult : ∀ type ∈ result, type.isSpellable = true) (hne : body.contents ≠ [])
    (hbody : ∀ statement ∈ body.contents, WellFormed lists statement) :
    WellFormed lists (.functionDef origin name params result body)
  /-- Only the branch for `else` may be empty. -/
  | conditional {origin : Origin} {condition : Expr} {whenTrue whenFalse : Block Expr}
    (hcondition : WellFormed lists condition) (hne : whenTrue.contents ≠ [])
    (htrue : ∀ statement ∈ whenTrue.contents, WellFormed lists statement)
    (hfalse : ∀ statement ∈ whenFalse.contents, WellFormed lists statement) :
    WellFormed lists (.conditional origin condition whenTrue whenFalse)

variable {lists : Nat → Prop}

/-- What there is below a well-formed expression: expressions, the blocks of its bodies, and
parameters. -/
inductive Part (lists : Nat → Prop) : Expr → Prop
  | expr {expr : Expr} (h : expr.WellFormed lists) : Part lists expr
  | block {body : Block Expr} (h : ∀ statement ∈ body.contents, statement.WellFormed lists) :
    Part lists (.block body)
  | parameter {param : Parameter} : Part lists (.parameter param)

theorem WellFormed.child {outer : Expr} (h : outer.WellFormed lists) :
    ∀ child ∈ outer.children, Part lists child := by
  cases h with
  | moduleDef _ _ hbody => exact List.forall_mem_singleton.2 (.block hbody)
  | binary hleft _ hright =>
    exact List.forall_mem_cons.2 ⟨.expr hleft, List.forall_mem_singleton.2 (.expr hright)⟩
  | assign htarget hvalue =>
    exact List.forall_mem_cons.2 ⟨.expr htarget, List.forall_mem_singleton.2 (.expr hvalue)⟩
  | arguments _ hargs => exact fun arg harg => .expr (hargs arg harg)
  | call htarget _ hargs =>
    exact List.forall_mem_cons.2 ⟨.expr htarget, fun arg harg => .expr (hargs arg harg)⟩
  | functionDef _ _ _ _ hbody =>
    refine List.forall_mem_append.2 ⟨fun child hchild => ?_, List.forall_mem_singleton.2 (.block hbody)⟩
    obtain ⟨param, -, rfl⟩ := List.mem_map.1 hchild
    exact .parameter
  | conditional hcondition _ htrue hfalse =>
    exact List.forall_mem_cons.2 ⟨.expr hcondition, List.forall_mem_cons.2
      ⟨.block htrue, List.forall_mem_singleton.2 (.block hfalse)⟩⟩
  | _ => simp [children]

theorem Part.within {inner outer : Expr} (hin : Within inner outer) (h : Part lists outer) :
    Part lists inner := by
  induction hin with
  | refl => exact h
  | child hchild _ ih =>
    refine ih ?_
    cases h with
    | expr h => exact h.child _ hchild
    | block h => exact .expr (h _ hchild)
    | parameter => simp [children] at hchild

/-- The lists of arguments in a well-formed tree have an allowed length. -/
theorem Part.length_arguments {origin : Origin} {args : List Expr}
    (h : Part lists (.arguments origin args)) : lists args.length := by
  cases h with
  | expr h =>
    cases h with
    | arguments hlength => exact hlength

theorem wellFormed_map_stamp {origin : Origin} {exprs : List Expr}
    (h : ∀ expr ∈ exprs, (expr.stamp origin).WellFormed lists) :
    ∀ expr ∈ stampAll origin exprs, expr.WellFormed lists := by
  intro expr hexpr
  rw [stampAll_eq_map] at hexpr
  obtain ⟨inner, hmem, rfl⟩ := List.mem_map.1 hexpr
  exact h inner hmem

theorem WellFormed.stamp (origin : Origin) {expr : Expr} (h : expr.WellFormed lists) :
    (expr.stamp origin).WellFormed lists := by
  induction h with
  | moduleDef hname hne hbody => exact .moduleDef hname hne hbody
  | useDef hpath => exact .useDef hpath
  | reference hne hmodules hname => exact .reference hne hmodules hname
  | intLit => exact .intLit
  | floatLit => exact .floatLit
  | stringLit hline => exact .stringLit hline
  | boolLit => exact .boolLit
  | identifier hname => exact .identifier hname
  | binary _ hoperator _ hleft hright => exact .binary hleft hoperator hright
  | assign _ _ htarget hvalue => exact .assign htarget hvalue
  | @arguments _ args hlength _ ih =>
    refine .arguments ?_ (wellFormed_map_stamp ih)
    rwa [stampAll_eq_map, List.length_map]
  | @call _ target args _ hsingle _ htarget ih =>
    refine .call htarget (fun arg harg => ?_) (wellFormed_map_stamp ih)
    rw [stampAll_eq_map] at harg
    obtain ⟨inner, hinner, rfl⟩ := List.map_eq_singleton_iff.1 harg
    rw [kind_stamp]
    exact hsingle inner hinner
  | functionDef hname hparams hresult hne hbody =>
    refine .functionDef hname (fun param hparam => ?_) hresult hne hbody
    obtain ⟨inner, hmem, rfl⟩ := List.mem_map.1 hparam
    exact hparams inner hmem
  | conditional _ hne htrue hfalse hcondition => exact .conditional hcondition hne htrue hfalse

theorem callArguments_of_kind_ne {expr : Expr} (h : expr.kind ≠ .arguments) :
    expr.callArguments = [expr] := by
  cases expr with
  | arguments => exact absurd rfl h
  | _ => rfl

/-- The call of a target with what stands before the arrow. -/
theorem WellFormed.call_callArguments {origin : Origin} {left target : Expr}
    (hleft : left.WellFormed lists) (htarget : target.WellFormed lists) (hsingle : ¬ lists 1) :
    (Expr.call origin target left.callArguments).WellFormed lists := by
  by_cases hkind : left.kind = .arguments
  · cases hleft with
    | @arguments _ args hlength hargs =>
      refine .call htarget (fun arg harg => ?_) hargs
      rw [show args = [arg] from harg] at hlength
      exact absurd hlength hsingle
    | _ => cases hkind
  · rw [callArguments_of_kind_ne hkind]
    refine .call htarget (fun arg harg => ?_) (List.forall_mem_singleton.2 hleft)
    rwa [← (List.cons.inj harg).1]

end Expr

end Offside
