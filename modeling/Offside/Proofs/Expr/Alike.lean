import Offside.Proofs.Expr.Bare
import Offside.Proofs.Expr.Children
import Offside.Proofs.Phrase.Expression

/-!
# Expressions at other places

`Expr.relocate` moves every node of an expression to another place. Two expressions are alike
(`Expr.Alike`) if they are the same after such moves of both, the nodes that are still to be stamped
apart: a rule of the grammar builds a node without a place, and a stamp overwrites the places of all
nodes that are near. Whatever a rule builds of parts that are alike is alike, and stamps make it the
same (`Expr.Alike.stamp`).
-/

namespace Offside

def Parameter.relocate (place : Origin → Origin) (param : Parameter) : Parameter :=
  { param with origin := place param.origin }

namespace Expr

mutual

/-- The expression with each of its nodes at another place. Blocks have no place to move from. -/
def relocate (place : Origin → Origin) : Expr → Expr
  | block body => .block (relocateBlock place body)
  | moduleDef origin name body => .moduleDef (place origin) name (relocateBlock place body)
  | useDef origin path => .useDef (place origin) path
  | reference origin modules name => .reference (place origin) modules name
  | intLit origin value => .intLit (place origin) value
  | floatLit origin value => .floatLit (place origin) value
  | stringLit origin value => .stringLit (place origin) value
  | boolLit origin value => .boolLit (place origin) value
  | identifier origin name => .identifier (place origin) name
  | binary origin left operator right =>
    .binary (place origin) (left.relocate place) operator (right.relocate place)
  | assign origin target value =>
    .assign (place origin) (target.relocate place) (value.relocate place)
  | arguments origin args => .arguments (place origin) (relocateAll place args)
  | call origin target args => .call (place origin) (target.relocate place) (relocateAll place args)
  | parameter param => .parameter (param.relocate place)
  | functionDef origin name params result body =>
    .functionDef (place origin) name (params.map (Parameter.relocate place)) result
      (relocateBlock place body)
  | conditional origin condition whenTrue whenFalse =>
    .conditional (place origin) (condition.relocate place) (relocateBlock place whenTrue)
      (relocateBlock place whenFalse)
termination_by structural expr => expr

def relocateAll (place : Origin → Origin) : List Expr → List Expr
  | [] => []
  | expr :: rest => expr.relocate place :: relocateAll place rest
termination_by structural exprs => exprs

def relocateBlock (place : Origin → Origin) : Block Expr → Block Expr
  | ⟨origin, contents⟩ => ⟨origin, relocateAll place contents⟩
termination_by structural block => block

end

theorem relocateAll_eq_map (place : Origin → Origin) (exprs : List Expr) :
    relocateAll place exprs = exprs.map (relocate place) := by
  induction exprs with
  | nil => rfl
  | cons expr rest ih => rw [relocateAll, ih, List.map_cons]

mutual

theorem relocate_id : ∀ expr : Expr, expr.relocate id = expr
  | block body => by rw [relocate, relocateBlock_id body]
  | moduleDef _ _ body => by rw [relocate, relocateBlock_id body, id]
  | useDef .. | reference .. | intLit .. | floatLit .. | stringLit .. | boolLit ..
  | identifier .. | parameter _ => rfl
  | binary _ left _ right => by rw [relocate, relocate_id left, relocate_id right, id]
  | assign _ target value => by rw [relocate, relocate_id target, relocate_id value, id]
  | arguments _ args => by rw [relocate, relocateAll_id args, id]
  | call _ target args => by rw [relocate, relocate_id target, relocateAll_id args, id]
  | functionDef _ _ params _ body => by
    have hparams : params.map (Parameter.relocate id) = params := List.map_id params
    rw [relocate, relocateBlock_id body, hparams, id]
  | conditional _ condition whenTrue whenFalse => by
    rw [relocate, relocate_id condition, relocateBlock_id whenTrue, relocateBlock_id whenFalse, id]

theorem relocateAll_id : ∀ exprs : List Expr, relocateAll id exprs = exprs
  | [] => rfl
  | expr :: rest => by rw [relocateAll, relocate_id expr, relocateAll_id rest]

theorem relocateBlock_id : ∀ body : Block Expr, relocateBlock id body = body
  | ⟨_, contents⟩ => by rw [relocateBlock, relocateAll_id contents]

end

mutual

/-- The places of nodes are no part of the bare form. -/
theorem bare_relocate (place : Origin → Origin) :
    ∀ expr : Expr, (expr.relocate place).bare = expr.bare
  | block body => by rw [relocate, bare, bare, bareBlock_relocate place body]
  | moduleDef _ _ body => by rw [relocate, bare, bare, bareBlock_relocate place body]
  | useDef .. | reference .. | intLit .. | floatLit .. | stringLit .. | boolLit ..
  | identifier .. | parameter _ => rfl
  | binary _ left _ right => by
    rw [relocate, bare, bare, bare_relocate place left, bare_relocate place right]
  | assign _ target value => by
    rw [relocate, bare, bare, bare_relocate place target, bare_relocate place value]
  | arguments _ args => by rw [relocate, bare, bare, bareAll_relocate place args]
  | call _ target args => by
    rw [relocate, bare, bare, bare_relocate place target, bareAll_relocate place args]
  | functionDef _ _ params _ body => by
    rw [relocate, bare, bare, bareBlock_relocate place body, List.map_map]
    rfl
  | conditional _ condition whenTrue whenFalse => by
    rw [relocate, bare, bare, bare_relocate place condition, bareBlock_relocate place whenTrue,
      bareBlock_relocate place whenFalse]

theorem bareAll_relocate (place : Origin → Origin) :
    ∀ exprs : List Expr, bareAll (relocateAll place exprs) = bareAll exprs
  | [] => rfl
  | expr :: rest => by
    rw [relocateAll, bareAll, bareAll, bare_relocate place expr, bareAll_relocate place rest]

theorem bareBlock_relocate (place : Origin → Origin) :
    ∀ body : Block Expr, bareBlock (relocateBlock place body) = bareBlock body
  | ⟨_, contents⟩ => by
    rw [relocateBlock, bareBlock, bareBlock, bareAll_relocate place contents]

end

/-! ## Expressions that are alike -/

section

variable (place place' : Origin → Origin)

/-- Expressions that are the same at other places, as soon as both are stamped. -/
def Alike (expr expr' : Expr) : Prop :=
  ∀ origin origin', place origin = place' origin' →
    (expr.stamp origin).relocate place = (expr'.stamp origin').relocate place'

/-- Lists of expressions that are alike one by one. -/
def AlikeAll (exprs exprs' : List Expr) : Prop :=
  ∀ origin origin', place origin = place' origin' →
    relocateAll place (stampAll origin exprs) = relocateAll place' (stampAll origin' exprs')

end

variable {place place' : Origin → Origin}

theorem Alike.leaf {expr : Expr} (hkind : expr.kind ≠ .block) (h : expr.children = []) :
    Alike place place' expr expr := by
  intro origin origin' hplace
  cases expr with
  | block => exact absurd rfl hkind
  | arguments _ args =>
    cases h
    rw [stamp, stamp, relocate, relocate, hplace]
    rfl
  | parameter param => simp [stamp, relocate, Parameter.stamp, Parameter.relocate, hplace]
  | functionDef _ _ params => simp [children] at h
  | moduleDef | binary | assign | call | conditional => cases h
  | _ => rw [stamp, stamp, relocate, relocate, hplace]

theorem Alike.binary {left left' right right' : Expr} {operator : String}
    (hleft : Alike place place' left left') (hright : Alike place place' right right') :
    Alike place place' (.binary {} left operator right) (.binary {} left' operator right') := by
  intro origin origin' h
  rw [stamp, stamp, relocate, relocate, hleft _ _ h, hright _ _ h, h]

theorem Alike.assign {target target' value value' : Expr}
    (htarget : Alike place place' target target') (hvalue : Alike place place' value value') :
    Alike place place' (.assign {} target value) (.assign {} target' value') := by
  intro origin origin' h
  rw [stamp, stamp, relocate, relocate, htarget _ _ h, hvalue _ _ h, h]

theorem Alike.arguments {args args' : List Expr} (hargs : AlikeAll place place' args args') :
    Alike place place' (.arguments {} args) (.arguments {} args') := by
  intro origin origin' h
  rw [stamp, stamp, relocate, relocate, hargs _ _ h, h]

theorem Alike.call {target target' : Expr} {args args' : List Expr}
    (htarget : Alike place place' target target') (hargs : AlikeAll place place' args args') :
    Alike place place' (.call {} target args) (.call {} target' args') := by
  intro origin origin' h
  rw [stamp, stamp, relocate, relocate, htarget _ _ h, hargs _ _ h, h]

theorem Alike.moduleDef {name : String} {body body' : Block Expr}
    (hbody : relocateBlock place body = relocateBlock place' body') :
    Alike place place' (.moduleDef {} name body) (.moduleDef {} name body') := by
  intro origin origin' h
  rw [stamp, stamp, relocate, relocate, hbody, h]

theorem Alike.functionDef {name : String} {params : List Parameter} {result : Option TypeExpr}
    {body body' : Block Expr} (hbody : relocateBlock place body = relocateBlock place' body') :
    Alike place place' (.functionDef {} name params result body)
      (.functionDef {} name params result body') := by
  intro origin origin' h
  have hparam : Parameter.relocate place ∘ Parameter.stamp origin =
      Parameter.relocate place' ∘ Parameter.stamp origin' := by
    funext param
    simp [Parameter.stamp, Parameter.relocate, h]
  rw [stamp, stamp, relocate, relocate, List.map_map, List.map_map, hparam, hbody, h]

theorem Alike.conditional {condition condition' : Expr}
    {whenTrue whenTrue' whenFalse whenFalse' : Block Expr}
    (hcondition : Alike place place' condition condition')
    (htrue : relocateBlock place whenTrue = relocateBlock place' whenTrue')
    (hfalse : relocateBlock place whenFalse = relocateBlock place' whenFalse') :
    Alike place place' (.conditional {} condition whenTrue whenFalse)
      (.conditional {} condition' whenTrue' whenFalse') := by
  intro origin origin' h
  rw [stamp, stamp, relocate, relocate, hcondition _ _ h, htrue, hfalse, h]

theorem AlikeAll.nil : AlikeAll place place' [] [] :=
  fun _ _ _ => rfl

theorem AlikeAll.cons {expr expr' : Expr} {exprs exprs' : List Expr}
    (h : Alike place place' expr expr') (hrest : AlikeAll place place' exprs exprs') :
    AlikeAll place place' (expr :: exprs) (expr' :: exprs') := by
  intro origin origin' hplace
  rw [stampAll, stampAll, relocateAll, relocateAll, h _ _ hplace, hrest _ _ hplace]

theorem AlikeAll.snoc {exprs exprs' : List Expr}
    {expr expr' : Expr} (h : AlikeAll place place' exprs exprs') (hlast : Alike place place' expr expr') :
    AlikeAll place place' (exprs ++ [expr]) (exprs' ++ [expr']) := by
  intro origin origin' hplace
  have hinit := h origin origin' hplace
  simp only [stampAll_eq_map, relocateAll_eq_map, List.map_append, List.map_map] at hinit ⊢
  rw [hinit]
  exact congrArg (_ ++ [·]) (hlast origin origin' hplace)

theorem relocateAll_snoc {exprs exprs' : List Expr}
    {expr expr' : Expr} (h : relocateAll place exprs = relocateAll place' exprs')
    (hlast : expr.relocate place = expr'.relocate place') :
    relocateAll place (exprs ++ [expr]) = relocateAll place' (exprs' ++ [expr']) := by
  simp only [relocateAll_eq_map, List.map_append] at h ⊢
  rw [h]
  exact congrArg (_ ++ [·]) hlast

theorem callArguments_relocate_stamp (place : Origin → Origin) (origin : Origin) (expr : Expr) :
    relocateAll place (stampAll origin expr.callArguments) =
      ((expr.stamp origin).relocate place).callArguments := by
  cases expr <;> rfl

theorem Alike.callArguments {expr expr' : Expr} (h : Alike place place' expr expr') :
    AlikeAll place place' expr.callArguments expr'.callArguments := by
  intro origin origin' hplace
  rw [callArguments_relocate_stamp, callArguments_relocate_stamp, h _ _ hplace]

/-- Expressions that are the same at other places, and alike in larger expressions. -/
structure Twin (place place' : Origin → Origin) (expr expr' : Expr) : Prop where
  same : expr.relocate place = expr'.relocate place'
  alike : Alike place place' expr expr'

/-- A stamp makes the same of expressions that are alike, and keeps them alike. -/
theorem Alike.stamp {expr expr' : Expr} {origin origin' : Origin}
    (h : Alike place place' expr expr') (hplace : place origin = place' origin') :
    Twin place place' (expr.stamp origin) (expr'.stamp origin') := by
  refine ⟨h _ _ hplace, fun later later' hlater => ?_⟩
  rw [stamp_stamp, stamp_stamp]
  exact h _ _ hlater

theorem relocateBlock_toBlock (place : Origin → Origin) (expr : Expr) :
    relocateBlock place expr.toBlock = (expr.relocate place).toBlock := by
  cases expr <;> rfl

theorem relocateBlock_toBlock_congr {expr expr' : Expr}
    (h : expr.relocate place = expr'.relocate place') :
    relocateBlock place expr.toBlock = relocateBlock place' expr'.toBlock := by
  rw [relocateBlock_toBlock, relocateBlock_toBlock, h]

theorem bare_congr {expr expr' : Expr} (h : expr.relocate place = expr'.relocate place') :
    expr.bare = expr'.bare := by
  rw [← bare_relocate place expr, h, bare_relocate]

end Expr

end Offside
