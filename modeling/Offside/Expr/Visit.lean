import Offside.Expr.Basic
/-!
# Visiting

A visitor answers for every node of a tree. It may intercept a node, and then the nodes below are
not visited; otherwise it answers with the visits of the node's children at hand, which it runs or
not as it likes. `Expr.visit_eq` is the rule in one equation.
-/

namespace Offside

/-- How to answer for the nodes of a tree, by actions of `m` with answers in `ρ`. -/
structure Visitor (m : Type → Type) (ρ : Type) where
  /-- Sees each node first. What it answers is the answer for the node. -/
  intercept : Expr → m (Option ρ)
  /-- Answers for a node that was not intercepted, given the visits of its children. -/
  answer : Expr → List (m ρ) → m ρ

variable {m : Type → Type} [Monad m] {ρ : Type}

/-- Visits a node whose children are visited by `visits`. -/
def Visitor.meet (visitor : Visitor m ρ) (expr : Expr) (visits : List (m ρ)) : m ρ := do
  match ← visitor.intercept expr with
  | some answer => pure answer
  | none => visitor.answer expr visits

namespace Expr

mutual

def visit (visitor : Visitor m ρ) : Expr → m ρ
  | block body => visitBlock visitor body
  | expr@(moduleDef _ _ body) => visitor.meet expr [visitBlock visitor body]
  | expr@(binary _ left _ right) => visitor.meet expr [left.visit visitor, right.visit visitor]
  | expr@(assign _ target value) => visitor.meet expr [target.visit visitor, value.visit visitor]
  | expr@(arguments _ args) => visitor.meet expr (visits visitor args)
  | expr@(call _ target args) =>
    visitor.meet expr (target.visit visitor :: visits visitor args)
  | expr@(functionDef _ _ params _ body) =>
    visitor.meet expr
      (params.map (fun param => visitor.meet (.parameter param) []) ++ [visitBlock visitor body])
  | expr@(conditional _ condition whenTrue whenFalse) =>
    visitor.meet expr
      [condition.visit visitor, visitBlock visitor whenTrue, visitBlock visitor whenFalse]
  | expr@(useDef ..) | expr@(reference ..) | expr@(intLit ..) | expr@(floatLit ..)
  | expr@(stringLit ..) | expr@(boolLit ..) | expr@(identifier ..) | expr@(parameter _) =>
    visitor.meet expr []
termination_by structural expr => expr

def visits (visitor : Visitor m ρ) : List Expr → List (m ρ)
  | [] => []
  | expr :: rest => expr.visit visitor :: visits visitor rest
termination_by structural exprs => exprs

def visitBlock (visitor : Visitor m ρ) : Block Expr → m ρ
  | ⟨origin, contents⟩ => visitor.meet (.block ⟨origin, contents⟩) (visits visitor contents)
termination_by structural block => block

end

theorem visits_eq_map (visitor : Visitor m ρ) (exprs : List Expr) :
    visits visitor exprs = exprs.map (visit visitor) := by
  induction exprs with
  | nil => rfl
  | cons expr rest ih => simp [visits, ih]

theorem visitBlock_eq (visitor : Visitor m ρ) (body : Block Expr) :
    visitBlock visitor body
      = visitor.meet (.block body) (body.contents.map (visit visitor)) := by
  cases body
  simp [visitBlock, visits_eq_map]

/-- A visit meets the node with the visits of its children. -/
theorem visit_eq (visitor : Visitor m ρ) (expr : Expr) :
    expr.visit visitor = visitor.meet expr (expr.children.map (visit visitor)) := by
  cases expr <;> simp [visit, visitBlock_eq, visits_eq_map, children, Function.comp_def]

end Expr

end Offside
