import Offside.Proofs.Expr.Alike
import Offside.Proofs.Expr.Visiting

/-!
# Nodes that are counted

`Expr.count` says how many nodes of a tree satisfy a test. A node adds itself to what is below it
(`Expr.count_eq`). Where the test has no regard to places, and fails on the nodes that only hold
others together (`Expr.Counts`), a stamp changes nothing, and a body or a list of arguments counts as
what it is made of.
-/

namespace Offside.Expr

/-- The kinds of nodes that have an operand to their left. -/
def Kind.isOperation (kind : Kind) : Bool :=
  kind == .binary || kind == .assign || kind == .call

/-- How many nodes of a tree satisfy the test. -/
def count (test : Expr → Bool) (expr : Expr) : Nat :=
  (expr.nodes fun _ => false).countP test

/-- How many nodes of several trees satisfy the test. -/
def countAll (test : Expr → Bool) (exprs : List Expr) : Nat :=
  (exprs.flatMap (nodes fun _ => false)).countP test

/-- The test passes none of the nodes that only hold others together, and stamps have no part in it. -/
structure Counts (test : Expr → Bool) : Prop where
  block (body : Block Expr) : test (.block body) = false
  arguments (origin : Origin) (args : List Expr) : test (.arguments origin args) = false
  parameter (param : Parameter) : test (.parameter param) = false
  stamp (origin : Origin) (expr : Expr) : test (expr.stamp origin) = test expr

variable {test : Expr → Bool}

@[simp] theorem countAll_nil : countAll test [] = 0 := rfl

@[simp] theorem countAll_cons (expr : Expr) (exprs : List Expr) :
    countAll test (expr :: exprs) = expr.count test + countAll test exprs := by
  rw [countAll, List.flatMap_cons, List.countP_append]
  rfl

theorem countAll_singleton (expr : Expr) : countAll test [expr] = expr.count test := by
  rw [countAll_cons, countAll_nil, Nat.add_zero]

@[simp] theorem countAll_append (exprs exprs' : List Expr) :
    countAll test (exprs ++ exprs') = countAll test exprs + countAll test exprs' := by
  rw [countAll, List.flatMap_append, List.countP_append]
  rfl

theorem countAll_map {f : Expr → Expr} {exprs : List Expr}
    (h : ∀ expr ∈ exprs, (f expr).count test = expr.count test) :
    countAll test (exprs.map f) = countAll test exprs := by
  induction exprs with
  | nil => rfl
  | cons expr exprs ih =>
    obtain ⟨hfirst, hrest⟩ := List.forall_mem_cons.1 h
    rw [List.map_cons, countAll_cons, countAll_cons, hfirst, ih hrest]

/-- A node counts for itself, if it satisfies the test, and for what is below it. -/
theorem count_eq (test : Expr → Bool) (expr : Expr) :
    expr.count test = countAll test expr.children + if test expr then 1 else 0 := by
  rw [count, nodes_eq, List.countP_cons, if_neg Bool.false_ne_true]
  rfl

theorem count_pos_iff {expr : Expr} :
    0 < expr.count test ↔ ∃ node ∈ expr.nodes fun _ => false, test node = true :=
  List.countP_pos_iff

namespace Counts

variable (h : Counts test)

include h

theorem count_block (body : Block Expr) :
    (Expr.block body).count test = countAll test body.contents := by
  rw [count_eq, h.block]
  rfl

theorem count_arguments (origin : Origin) (args : List Expr) :
    (Expr.arguments origin args).count test = countAll test args := by
  rw [count_eq, h.arguments]
  rfl

theorem countAll_parameters (params : List Parameter) :
    countAll test (params.map .parameter) = 0 := by
  induction params with
  | nil => rfl
  | cons param params ih =>
    rw [List.map_cons, countAll_cons, ih, count_eq, h.parameter]
    rfl

/-- A body counts as the expression that it was made of. -/
theorem countAll_toBlock (expr : Expr) :
    countAll test expr.toBlock.contents = expr.count test := by
  cases expr with
  | block body => exact (h.count_block body).symm
  | _ => exact countAll_singleton _

/-- The list of arguments does not count itself, so nothing is lost with it. -/
theorem countAll_callArguments (expr : Expr) :
    countAll test expr.callArguments = expr.count test := by
  cases expr with
  | arguments origin args => exact (h.count_arguments origin args).symm
  | _ => exact countAll_singleton _

/-- A stamp leaves the count as it is. -/
theorem count_stamp (origin : Origin) (expr : Expr) :
    (expr.stamp origin).count test = expr.count test := by
  induction expr using induction_children with
  | node expr ih =>
    by_cases hblock : expr.kind = .block
    · rw [stamp_of_kind_eq hblock]
    · rw [count_eq, count_eq test expr, h.stamp, children_stamp hblock, countAll_map ih]

end Counts

/-- Operations are told by their kinds. -/
theorem counts_isOperation : Counts fun expr => expr.kind.isOperation where
  block _ := rfl
  arguments _ _ := rfl
  parameter _ := rfl
  stamp origin expr := by rw [kind_stamp]

end Offside.Expr
