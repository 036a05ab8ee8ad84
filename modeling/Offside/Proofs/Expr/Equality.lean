import Offside.Binary64.Decimal
import Offside.Proofs.Leaves
import Offside.Proofs.Expr.Canonical

/-!
# Equality of expressions

`==` is a partial equivalence that goes together with fingerprints and does not see places
(`Expr.equals_lawful`): only an expression with a NaN is not equal to itself. All of it is read off
canonical forms.

A number that is read from decimal digits is never a NaN (`Binary64.isNaN_of_ofText?`). So a tree
whose numbers were read is equal to every tree with the same bare form (`Expr.beq_of_bareBlock`).
-/

namespace Offside

namespace Expr

variable {expr expr' other : Expr}

/-! ## Equality as a relation -/

theorem noNaN_congr (h : expr.canonical = expr'.canonical) : expr.NoNaN ↔ expr'.NoNaN := by
  rw [← noNaN_canonical, h, noNaN_canonical]

theorem equals_symm (h : expr.equals expr' = true) : expr'.equals expr = true := by
  obtain ⟨hcanonical, hnumbers⟩ := (equals_iff ..).1 h
  exact (equals_iff ..).2 ⟨hcanonical.symm, (noNaN_congr hcanonical).1 hnumbers⟩

theorem equals_comm (expr expr' : Expr) : expr.equals expr' = expr'.equals expr :=
  Bool.eq_iff_iff.2 ⟨equals_symm, equals_symm⟩

theorem equals_trans (h : expr.equals expr' = true) (h' : expr'.equals other = true) :
    expr.equals other = true := by
  obtain ⟨hcanonical, hnumbers⟩ := (equals_iff ..).1 h
  exact (equals_iff ..).2 ⟨hcanonical.trans ((equals_iff ..).1 h').1, hnumbers⟩

theorem equals_self_iff : expr.equals expr = true ↔ expr.NoNaN := by
  rw [equals_iff, and_iff_right rfl]

theorem fingerprint_of_equals (h : expr.equals expr' = true) :
    expr.fingerprint = expr'.fingerprint := by
  rw [← fingerprint_canonical, ((equals_iff ..).1 h).1, fingerprint_canonical]

/-! ## Expressions that differ in places -/

theorem canonical_of_bare (h : expr'.bare = expr.bare) : expr'.canonical = expr.canonical := by
  rw [← canonical_bare, h, canonical_bare]

/-- The places of an expression are no matter when another is compared with it. -/
theorem equals_of_bare (h : expr'.bare = expr.bare) (other : Expr) :
    expr'.equals other = expr.equals other := by
  have hcanonical := canonical_of_bare h
  rw [Bool.eq_iff_iff, equals_iff, equals_iff, hcanonical, noNaN_congr hcanonical]

theorem fingerprint_of_bare (h : expr'.bare = expr.bare) : expr'.fingerprint = expr.fingerprint := by
  rw [← fingerprint_canonical, canonical_of_bare h, fingerprint_canonical]

/-- Equality is symmetric and transitive, and an expression is equal to itself unless there is a NaN
in it. Equal expressions have the same fingerprint. An expression with other places on any of its
nodes, as after a stamp, is equal to the same expressions and has the same fingerprint. -/
theorem equals_lawful :
    (∀ a b : Expr, a == b → b == a) ∧
    (∀ a b c : Expr, a == b → b == c → a == c) ∧
    (∀ a : Expr, a == a ↔ a.NoNaN) ∧
    (∀ a b : Expr, a == b → a.fingerprint = b.fingerprint) ∧
    (∀ a a' : Expr, a'.bare = a.bare →
      (∀ b, (a' == b) = (a == b) ∧ (b == a') = (b == a)) ∧ a'.fingerprint = a.fingerprint) ∧
    ∀ (a : Expr) (origin : Origin),
      (a.stamp origin).bare = a.bare ∧ (a.stampPosition origin).bare = a.bare := by
  have hright {a a' : Expr} (hbare : a'.bare = a.bare) (b : Expr) : b.equals a' = b.equals a := by
    rw [equals_comm, equals_of_bare hbare, equals_comm]
  refine ⟨fun _ _ => equals_symm, fun _ _ _ => equals_trans, fun _ => equals_self_iff,
    fun _ _ => fingerprint_of_equals, fun a a' hbare => ?_, fun a origin => ?_⟩
  · exact ⟨fun b => ⟨equals_of_bare hbare b, hright hbare b⟩, fingerprint_of_bare hbare⟩
  · exact ⟨bare_stamp origin a, bare_stampPosition origin a⟩

/-- The two zeros, one of them with a place. -/
theorem equals_lawful_zeros :
    floatLit { file := "a.ibex", line := 4 } ⟨0⟩ == floatLit {} ⟨0x8000000000000000⟩ ∧
    floatLit {} ⟨0x8000000000000000⟩ == floatLit { file := "a.ibex", line := 4 } ⟨0⟩ ∧
    (floatLit { file := "a.ibex", line := 4 } ⟨0⟩).fingerprint =
      (floatLit {} ⟨0x8000000000000000⟩).fingerprint := by
  have h : floatLit { file := "a.ibex", line := 4 } ⟨0⟩ == floatLit {} ⟨0x8000000000000000⟩ := by
    decide
  exact ⟨h, equals_lawful.1 _ _ h, equals_lawful.2.2.2.1 _ _ h⟩

end Expr

/-! ## Trees that were read -/

namespace Binary64

variable {value : Binary64} {text : String}

theorem magnitude_ofMagnitude {negative : Bool} {magnitude : Nat} (h : magnitude < signBit) :
    (ofMagnitude negative magnitude).magnitude = magnitude := by
  rw [signBit] at h
  rw [ofMagnitude, Binary64.magnitude, UInt64.toNat_ofNat', signBit]
  split <;> omega

/-- A quotient is rounded to a number or to an infinity. -/
theorem isNaN_ofRatio (negative : Bool) (num den : Nat) :
    (ofRatio negative num den).isNaN = false := by
  have hle : (if num = 0 then 0 else magnitudeOfRatio num den) ≤ infinity := by
    split
    · exact Nat.zero_le _
    · exact Nat.min_le_left ..
  rw [ofRatio, isNaN, magnitude_ofMagnitude (Nat.lt_of_le_of_lt hle (by decide))]
  exact decide_eq_false (Nat.not_lt.2 hle)

theorem isNaN_of_ofText? (h : ofText? text = some value) : value.isNaN = false := by
  unfold ofText? at h
  dsimp only at h
  split at h
  · split at h
    · cases h
      exact isNaN_ofRatio ..
    · cases h
  · cases h

end Binary64

/-- The value is equal to itself. -/
def Leaf.Reflexive : Leaf → Prop
  | .float value => value.isNaN = false
  | _ => True

theorem Token.reflexive_of_leaf? {token : Token} {leaf : Leaf} (h : token.leaf? = some leaf) :
    leaf.Reflexive := by
  unfold leaf? at h
  split at h
  · obtain ⟨value, -, rfl⟩ := Option.map_eq_some_iff.1 h
    trivial
  · obtain ⟨value, hvalue, rfl⟩ := Option.map_eq_some_iff.1 h
    exact Binary64.isNaN_of_ofText? hvalue
  all_goals cases h
  all_goals trivial

namespace Expr

variable {expr : Expr}

theorem mem_leavesAll {leaf : Leaf} {exprs : List Expr} :
    leaf ∈ leavesAll exprs ↔ ∃ expr ∈ exprs, leaf ∈ expr.leaves := by
  induction exprs with
  | nil => simp [leavesAll]
  | cons expr rest ih => simp [leavesAll, ih]

theorem mem_leavesBlock {leaf : Leaf} {body : Block Expr} :
    leaf ∈ leavesBlock body ↔ ∃ statement ∈ body.contents, leaf ∈ statement.leaves := by
  cases body
  exact mem_leavesAll

theorem leaves_subset_of_child {child : Expr} (hchild : child ∈ expr.children) :
    child.leaves ⊆ expr.leaves := by
  intro leaf hleaf
  cases expr with
  | block => exact mem_leavesBlock.2 ⟨child, hchild, hleaf⟩
  | arguments => exact mem_leavesAll.2 ⟨child, hchild, hleaf⟩
  | useDef | reference | intLit | floatLit | stringLit | boolLit | identifier | parameter =>
    cases hchild
  | moduleDef _ _ body =>
    cases List.mem_singleton.1 hchild
    exact List.mem_cons_of_mem _ hleaf
  | binary | assign =>
    simp only [children, List.mem_cons, List.not_mem_nil, or_false] at hchild
    rcases hchild with rfl | rfl <;> simp [leaves, hleaf]
  | conditional =>
    simp only [children, List.mem_cons, List.not_mem_nil, or_false] at hchild
    rcases hchild with rfl | rfl | rfl
    · exact List.mem_append_left _ (List.mem_append_left _ hleaf)
    · exact List.mem_append_left _ (List.mem_append_right _ hleaf)
    · exact List.mem_append_right _ hleaf
  | call _ target args =>
    rcases List.mem_cons.1 hchild with rfl | hmem
    · exact List.mem_append_right _ hleaf
    · exact List.mem_append_left _ (mem_leavesAll.2 ⟨child, hmem, hleaf⟩)
  | functionDef _ _ params _ body =>
    rcases List.mem_append.1 hchild with hparam | hbody
    · obtain ⟨param, hmem, rfl⟩ := List.mem_map.1 hparam
      have hleaf : leaf ∈ params.flatMap Parameter.leaves := List.mem_flatMap.2 ⟨param, hmem, hleaf⟩
      simp [leaves, hleaf]
    · cases List.mem_singleton.1 hbody
      exact List.mem_cons_of_mem _ (List.mem_append_right _ hleaf)

/-- A tree whose values are equal to themselves has no NaN. -/
theorem noNaN_of_leaves (h : ∀ leaf ∈ expr.leaves, leaf.Reflexive) : expr.NoNaN := by
  intro origin value hin
  suffices hmem : (floatLit origin value).leaves ⊆ expr.leaves from
    h _ (hmem List.mem_cons_self)
  clear h
  induction hin with
  | refl => exact List.Subset.refl _
  | child hchild _ ih => exact List.Subset.trans ih (leaves_subset_of_child hchild)

/-- Blocks with the same bare form are equal if one of them is equal to itself. -/
theorem beq_of_bareBlock {body body' : Block Expr} (hbare : bareBlock body' = bareBlock body)
    (hself : ∀ leaf ∈ leavesBlock body, leaf.Reflexive) : (body' == body) = true := by
  have hblocks : (block body').bare = (block body).bare := congrArg block hbare
  show (block body').equals (block body) = true
  rw [equals_of_bare hblocks, equals_self_iff]
  exact noNaN_of_leaves hself

end Expr

end Offside
