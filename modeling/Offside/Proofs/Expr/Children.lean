import Offside.Expr.Stamp

/-!
# The children of a node

A node is in a tree if it is the whole, or in a child of it (`Expr.Within`). What holds of a node
wherever it holds of its children holds of every tree (`Expr.induction_children`). A stamp leaves
the kinds of the nodes as they are, and goes on from a node to its children, unless the node is a
block (`Expr.children_stamp`).
-/

namespace Offside

/-- A node of a tree: the whole, or a node of a part right below it. -/
inductive Expr.Within : Expr → Expr → Prop
  | refl {expr : Expr} : Within expr expr
  | child {inner child outer : Expr} (hchild : child ∈ outer.children) (h : Within inner child) :
    Within inner outer

namespace Expr

theorem sizeOf_origin_pos (origin : Origin) : 0 < sizeOf origin := by
  obtain ⟨file, line⟩ := origin
  rw [Origin.mk.sizeOf_spec]
  omega

theorem sizeOf_lt_of_child {expr child : Expr} (h : child ∈ expr.children) :
    sizeOf child < sizeOf expr := by
  cases expr with
  | block body =>
    obtain ⟨origin, contents⟩ := body
    have := List.sizeOf_lt_of_mem (show child ∈ contents from h)
    simp only [block.sizeOf_spec, Block.mk.sizeOf_spec]
    omega
  | arguments origin args =>
    have := List.sizeOf_lt_of_mem (show child ∈ args from h)
    simp only [arguments.sizeOf_spec]
    omega
  | call origin target args =>
    simp only [call.sizeOf_spec]
    rcases List.mem_cons.1 h with rfl | hmem
    · omega
    · have := List.sizeOf_lt_of_mem hmem
      omega
  | functionDef origin name params result body =>
    have hpos := sizeOf_origin_pos origin
    simp only [functionDef.sizeOf_spec]
    rcases List.mem_append.1 h with hparam | hbody
    · obtain ⟨param, hmem, rfl⟩ := List.mem_map.1 hparam
      have := List.sizeOf_lt_of_mem hmem
      simp only [parameter.sizeOf_spec]
      omega
    · cases List.mem_singleton.1 hbody
      simp only [block.sizeOf_spec]
      omega
  | moduleDef origin name body =>
    have hpos := sizeOf_origin_pos origin
    cases List.mem_singleton.1 h
    simp only [block.sizeOf_spec, moduleDef.sizeOf_spec]
    omega
  | binary | assign =>
    simp only [children, List.mem_cons, List.not_mem_nil, or_false] at h
    simp only [binary.sizeOf_spec, assign.sizeOf_spec]
    rcases h with rfl | rfl <;> omega
  | conditional origin condition whenTrue whenFalse =>
    have hpos := sizeOf_origin_pos origin
    simp only [children, List.mem_cons, List.not_mem_nil, or_false] at h
    simp only [conditional.sizeOf_spec]
    rcases h with rfl | rfl | rfl
    · omega
    · simp only [block.sizeOf_spec]
      omega
    · simp only [block.sizeOf_spec]
      omega
  | useDef | reference | intLit | floatLit | stringLit | boolLit | identifier | parameter =>
    cases h

/-- What holds of a node if it holds of its children holds of every tree. -/
@[elab_as_elim]
theorem induction_children {motive : Expr → Prop}
    (node : ∀ expr, (∀ child ∈ expr.children, motive child) → motive expr) (expr : Expr) :
    motive expr :=
  node expr fun child _ => induction_children node child
termination_by sizeOf expr
decreasing_by exact sizeOf_lt_of_child ‹_›

/-! ## Stamps -/

@[simp] theorem kind_stamp (origin : Origin) (expr : Expr) :
    (expr.stamp origin).kind = expr.kind := by
  cases expr <;> rfl

theorem origin_stamp {origin : Origin} {expr : Expr} (h : expr.kind ≠ .block) :
    (expr.stamp origin).origin = origin := by
  cases expr <;> first | rfl | exact absurd rfl h

theorem children_stamp {origin : Origin} {expr : Expr} (h : expr.kind ≠ .block) :
    (expr.stamp origin).children = expr.children.map (stamp origin) := by
  cases expr with
  | block => exact absurd rfl h
  | _ => simp [stamp, children, stampAll_eq_map, Function.comp_def]

theorem stamp_of_kind_eq {origin : Origin} {expr : Expr} (h : expr.kind = .block) :
    expr.stamp origin = expr := by
  cases expr <;> first | rfl | cases h

theorem forall_children_stamp {p : Expr → Prop} {origin : Origin} {expr : Expr}
    (hkind : expr.kind ≠ .block) (h : ∀ child ∈ expr.children, p (child.stamp origin)) :
    ∀ child ∈ (expr.stamp origin).children, p child := by
  rw [children_stamp hkind]
  intro child hchild
  obtain ⟨child, hmem, rfl⟩ := List.mem_map.1 hchild
  exact h child hmem

mutual

/-- Of two stamps only the last one is seen. -/
theorem stamp_stamp (origin origin' : Origin) :
    ∀ expr : Expr, (expr.stamp origin).stamp origin' = expr.stamp origin'
  | block _ | moduleDef .. | useDef .. | reference .. | intLit .. | floatLit .. | stringLit ..
  | boolLit .. | identifier .. | parameter _ => rfl
  | binary _ left _ right => by
    simp only [stamp, stamp_stamp origin origin' left, stamp_stamp origin origin' right]
  | assign _ target value => by
    simp only [stamp, stamp_stamp origin origin' target, stamp_stamp origin origin' value]
  | arguments _ args => by simp only [stamp, stampAll_stampAll origin origin' args]
  | call _ target args => by
    simp only [stamp, stamp_stamp origin origin' target, stampAll_stampAll origin origin' args]
  | functionDef _ _ params _ _ => by
    simp only [stamp, List.map_map]
    rfl
  | conditional _ condition _ _ => by simp only [stamp, stamp_stamp origin origin' condition]

theorem stampAll_stampAll (origin origin' : Origin) :
    ∀ exprs : List Expr, stampAll origin' (stampAll origin exprs) = stampAll origin' exprs
  | [] => rfl
  | expr :: rest => by
    simp only [stampAll, stamp_stamp origin origin' expr, stampAll_stampAll origin origin' rest]

end

/-! ## Bodies -/

theorem toBlock_of_kind_ne {expr : Expr} (h : expr.kind ≠ .block) :
    expr.toBlock = { contents := [expr] } := by
  cases expr with
  | block => exact absurd rfl h
  | _ => rfl

end Expr

end Offside
