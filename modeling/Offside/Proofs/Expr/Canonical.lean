import Offside.Expr.Equality
import Offside.Proofs.Expr.Bare
import Offside.Proofs.Expr.Children

/-!
# The canonical form of an expression

`Expr.canonical` takes the places off all nodes of an expression, and the sign off its zeros: what is
left is all that `==` and `Expr.fingerprint` look at. Two expressions are equal exactly if they have
the same canonical form and no NaN (`Expr.equals_iff`), and the fingerprint is that of the canonical
form (`Expr.fingerprint_canonical`). Each is one induction on the tree. What is to be known of `==` as
a relation follows from the equality of canonical forms.
-/

namespace Offside

/-! ## Numbers -/

namespace Binary64

variable {x y : Binary64}

/-- The number, with one zero for both. -/
def canonical (x : Binary64) : Binary64 :=
  if x.magnitude = 0 then ⟨0⟩ else x

theorem canonical_of_magnitude (h : x.magnitude = 0) : x.canonical = ⟨0⟩ := if_pos h

theorem canonical_of_magnitude_ne (h : x.magnitude ≠ 0) : x.canonical = x := if_neg h

@[simp] theorem magnitude_canonical (x : Binary64) : x.canonical.magnitude = x.magnitude := by
  by_cases h : x.magnitude = 0
  · rw [canonical_of_magnitude h, h]
    rfl
  · rw [canonical_of_magnitude_ne h]

@[simp] theorem isNaN_canonical (x : Binary64) : x.canonical.isNaN = x.isNaN := by
  rw [isNaN, isNaN, magnitude_canonical]

@[simp] theorem fingerprint_canonical (x : Binary64) : x.canonical.fingerprint = x.fingerprint := by
  by_cases h : x.magnitude = 0
  · simp only [fingerprint, magnitude_canonical, if_pos h]
  · rw [canonical_of_magnitude_ne h]

theorem canonical_eq_iff :
    x.canonical = y.canonical ↔ x.bits = y.bits ∨ x.magnitude = 0 ∧ y.magnitude = 0 := by
  constructor
  · intro h
    have hmagnitude : x.magnitude = y.magnitude := by
      rw [← magnitude_canonical x, h, magnitude_canonical]
    by_cases hx : x.magnitude = 0
    · exact .inr ⟨hx, hmagnitude ▸ hx⟩
    · rw [canonical_of_magnitude_ne hx, canonical_of_magnitude_ne (hmagnitude ▸ hx)] at h
      exact .inl (congrArg bits h)
  · rintro (h | ⟨hx, hy⟩)
    · cases x
      cases y
      cases h
      rfl
    · rw [canonical_of_magnitude hx, canonical_of_magnitude hy]

/-- Numbers are equal if they are the same but for the sign of a zero. A NaN is equal to none. -/
theorem equals_iff : x.equals y = true ↔ x.canonical = y.canonical ∧ x.isNaN = false := by
  simp only [equals, Bool.and_eq_true, Bool.or_eq_true, Bool.not_eq_true', beq_iff_eq,
    ← canonical_eq_iff]
  constructor
  · rintro ⟨⟨hx, -⟩, heq⟩
    exact ⟨heq, hx⟩
  · rintro ⟨heq, hx⟩
    have hy : y.isNaN = false := by rw [← isNaN_canonical, ← heq, isNaN_canonical, hx]
    exact ⟨⟨hx, hy⟩, heq⟩

end Binary64

/-! ## Parameters -/

namespace Parameter

theorem equals_iff {param param' : Parameter} :
    param.equals param' = true ↔ param.stamp {} = param'.stamp {} := by
  simp [equals, stamp]

@[simp] theorem fingerprint_stamp (origin : Origin) (param : Parameter) :
    (param.stamp origin).fingerprint = param.fingerprint := rfl

theorem isEqv_iff {params params' : List Parameter} :
    params.isEqv params' equals = true ↔ params.map (stamp {}) = params'.map (stamp {}) := by
  induction params generalizing params' with
  | nil => cases params' <;> simp [List.isEqv]
  | cons param params ih =>
    cases params' with
    | nil => simp [List.isEqv]
    | cons param' params' => simp [List.isEqv, equals_iff, ih]

end Parameter

/-! ## Expressions without a NaN -/

namespace Expr

/-- No number in the expression is a NaN. -/
def NoNaN (expr : Expr) : Prop :=
  ∀ origin value, Within (.floatLit origin value) expr → value.isNaN = false

/-- The numbers of an expression are its own, if it is one, and those of its children. -/
theorem noNaN_iff {expr : Expr} : expr.NoNaN ↔
    (∀ origin value, expr = .floatLit origin value → value.isNaN = false) ∧
      ∀ child ∈ expr.children, child.NoNaN := by
  constructor
  · intro h
    refine ⟨?_, fun child hchild origin value hin => h origin value (.child hchild hin)⟩
    rintro origin value rfl
    exact h origin value .refl
  · rintro ⟨hself, hchildren⟩ origin value hin
    cases hin with
    | refl => exact hself origin value rfl
    | child hchild hin => exact hchildren _ hchild origin value hin

theorem noNaN_parameter (param : Parameter) : (parameter param).NoNaN :=
  noNaN_iff.2 ⟨nofun, nofun⟩

/-! ## The canonical form -/

mutual

/-- The expression with no place on any of its nodes, and with one zero for both. -/
def canonical : Expr → Expr
  | block body => .block (canonicalBlock body)
  | moduleDef _ name body => .moduleDef {} name (canonicalBlock body)
  | useDef _ path => .useDef {} path
  | reference _ modules name => .reference {} modules name
  | intLit _ value => .intLit {} value
  | floatLit _ value => .floatLit {} value.canonical
  | stringLit _ value => .stringLit {} value
  | boolLit _ value => .boolLit {} value
  | identifier _ name => .identifier {} name
  | binary _ left operator right => .binary {} left.canonical operator right.canonical
  | assign _ target value => .assign {} target.canonical value.canonical
  | arguments _ args => .arguments {} (canonicalAll args)
  | call _ target args => .call {} target.canonical (canonicalAll args)
  | parameter param => .parameter (param.stamp {})
  | functionDef _ name params result body =>
    .functionDef {} name (params.map (Parameter.stamp {})) result (canonicalBlock body)
  | conditional _ condition whenTrue whenFalse =>
    .conditional {} condition.canonical (canonicalBlock whenTrue) (canonicalBlock whenFalse)
termination_by structural expr => expr

def canonicalAll : List Expr → List Expr
  | [] => []
  | expr :: rest => expr.canonical :: canonicalAll rest
termination_by structural exprs => exprs

def canonicalBlock : Block Expr → Block Expr
  | ⟨_, contents⟩ => { contents := canonicalAll contents }
termination_by structural block => block

end

theorem canonicalAll_eq_map (exprs : List Expr) : canonicalAll exprs = exprs.map canonical := by
  induction exprs with
  | nil => rfl
  | cons expr rest ih => rw [canonicalAll, ih, List.map_cons]

theorem length_canonicalAll (exprs : List Expr) : (canonicalAll exprs).length = exprs.length := by
  rw [canonicalAll_eq_map, List.length_map]

theorem contents_canonicalBlock (body : Block Expr) :
    (canonicalBlock body).contents = body.contents.map canonical := by
  cases body
  rw [canonicalBlock, canonicalAll_eq_map]

theorem children_canonical (expr : Expr) :
    expr.canonical.children = expr.children.map canonical := by
  cases expr <;>
    simp [canonical, children, canonicalAll_eq_map, contents_canonicalBlock, Function.comp_def]

theorem Within.canonical {inner outer : Expr} (h : Within inner outer) :
    Within inner.canonical outer.canonical := by
  induction h with
  | refl => exact .refl
  | child hchild _ ih =>
    exact .child (by rw [children_canonical]; exact List.mem_map_of_mem hchild) ih

theorem Within.of_canonical {inner outer : Expr} (h : Within inner outer.canonical) :
    ∃ node, Within node outer ∧ node.canonical = inner := by
  generalize houter : outer.canonical = outer' at h
  induction h generalizing outer with
  | refl => exact ⟨outer, .refl, houter⟩
  | child hchild _ ih =>
    rw [← houter, children_canonical] at hchild
    obtain ⟨child, hmem, hcanonical⟩ := List.mem_map.1 hchild
    obtain ⟨node, hin, hnode⟩ := ih hcanonical
    exact ⟨node, .child hmem hin, hnode⟩

@[simp] theorem noNaN_canonical {expr : Expr} : expr.canonical.NoNaN ↔ expr.NoNaN := by
  constructor
  · intro h origin value hin
    exact value.isNaN_canonical ▸ h _ _ hin.canonical
  · intro h origin value hin
    obtain ⟨node, hnode, hcanonical⟩ := hin.of_canonical
    cases node with
    | floatLit origin' value' =>
      cases hcanonical
      exact value'.isNaN_canonical.trans (h _ _ hnode)
    | _ => cases hcanonical

mutual

/-- The canonical form does not depend on places. -/
@[simp] theorem canonical_bare : ∀ expr : Expr, expr.bare.canonical = expr.canonical
  | block body | moduleDef _ _ body => by simp only [bare, canonical, canonicalBlock_bare body]
  | useDef .. | reference .. | intLit .. | floatLit .. | stringLit .. | boolLit .. | identifier ..
  | parameter _ => rfl
  | binary _ left _ right => by
    simp only [bare, canonical, canonical_bare left, canonical_bare right]
  | assign _ target value => by
    simp only [bare, canonical, canonical_bare target, canonical_bare value]
  | arguments _ args => by simp only [bare, canonical, canonicalAll_bare args]
  | call _ target args => by
    simp only [bare, canonical, canonical_bare target, canonicalAll_bare args]
  | functionDef _ _ params _ body => by
    simp only [bare, canonical, canonicalBlock_bare body, List.map_map]
    rfl
  | conditional _ condition whenTrue whenFalse => by
    simp only [bare, canonical, canonical_bare condition, canonicalBlock_bare whenTrue,
      canonicalBlock_bare whenFalse]

theorem canonicalAll_bare : ∀ exprs : List Expr, canonicalAll (bareAll exprs) = canonicalAll exprs
  | [] => rfl
  | expr :: rest => by
    simp only [bareAll, canonicalAll, canonical_bare expr, canonicalAll_bare rest]

theorem canonicalBlock_bare : ∀ body : Block Expr,
    canonicalBlock (bareBlock body) = canonicalBlock body
  | ⟨_, contents⟩ => by simp only [bareBlock, canonicalBlock, canonicalAll_bare contents]

end

/-! ## What equality looks at -/

mutual

/-- Two expressions are equal if they have the same canonical form and no NaN. -/
theorem equals_iff : ∀ expr expr' : Expr,
    expr.equals expr' = true ↔ expr.canonical = expr'.canonical ∧ expr.NoNaN
  | block body, expr' => by
    cases expr' with
    | block body' => simp [equals, canonical, equalsBlock_iff body body']
    | _ => simp [equals, canonical]
  | moduleDef _ _ body, expr' => by
    rw [noNaN_iff]
    cases expr' with
    | moduleDef _ _ body' =>
      simp [equals, canonical, children, equalsBlock_iff body body', and_assoc]
    | _ => simp [equals, canonical]
  | floatLit _ value, expr' => by
    rw [noNaN_iff]
    cases expr' <;> simp [equals, canonical, children, Binary64.equals_iff]
  | useDef .., expr' | reference .., expr' | intLit .., expr' | stringLit .., expr'
  | boolLit .., expr' | identifier .., expr' => by
    rw [noNaN_iff]
    cases expr' <;> simp [equals, canonical, children]
  | parameter param, expr' => by
    cases expr' <;> simp [equals, canonical, noNaN_parameter, Parameter.equals_iff]
  | binary _ left _ right, expr' => by
    rw [noNaN_iff]
    cases expr' with
    | binary _ left' _ right' =>
      simp [equals, canonical, children, equals_iff left left', equals_iff right right', and_assoc,
        and_left_comm]
    | _ => simp [equals, canonical]
  | assign _ target value, expr' => by
    rw [noNaN_iff]
    cases expr' with
    | assign _ target' value' =>
      simp [equals, canonical, children, equals_iff target target', equals_iff value value',
        and_assoc, and_left_comm]
    | _ => simp [equals, canonical]
  | arguments _ args, expr' => by
    rw [noNaN_iff]
    cases expr' with
    | arguments _ args' => simp [equals, canonical, children, equalsAll_iff args args']
    | _ => simp [equals, canonical]
  | call _ target args, expr' => by
    rw [noNaN_iff]
    cases expr' with
    | call _ target' args' =>
      simp [equals, canonical, children, equals_iff target target', equalsAll_iff args args',
        and_assoc, and_left_comm]
    | _ => simp [equals, canonical]
  | functionDef _ _ params _ body, expr' => by
    rw [noNaN_iff]
    cases expr' with
    | functionDef _ _ params' _ body' =>
      simp [equals, canonical, children, Parameter.isEqv_iff, noNaN_parameter,
        equalsBlock_iff body body', and_assoc, or_imp, forall_and]
    | _ => simp [equals, canonical]
  | conditional _ condition whenTrue whenFalse, expr' => by
    rw [noNaN_iff]
    cases expr' with
    | conditional _ condition' whenTrue' whenFalse' =>
      simp [equals, canonical, children, equals_iff condition condition',
        equalsBlock_iff whenTrue whenTrue', equalsBlock_iff whenFalse whenFalse', and_assoc,
        and_left_comm]
    | _ => simp [equals, canonical]

theorem equalsAll_iff : ∀ exprs exprs' : List Expr, equalsAll exprs exprs' = true ↔
    canonicalAll exprs = canonicalAll exprs' ∧ ∀ expr ∈ exprs, expr.NoNaN
  | [], exprs' => by cases exprs' <;> simp [equalsAll, canonicalAll]
  | expr :: rest, [] => by simp [equalsAll, canonicalAll]
  | expr :: rest, expr' :: rest' => by
    simp [equalsAll, canonicalAll, equals_iff expr expr', equalsAll_iff rest rest', and_assoc,
      and_left_comm]

theorem equalsBlock_iff : ∀ body body' : Block Expr, equalsBlock body body' = true ↔
    canonicalBlock body = canonicalBlock body' ∧ (block body).NoNaN
  | ⟨_, contents⟩, ⟨_, contents'⟩ => by
    rw [noNaN_iff]
    simp [equalsBlock, canonicalBlock, children, equalsAll_iff contents contents']

end

/-! ## What a hash reads -/

mutual

/-- The fingerprint of an expression is that of its canonical form. -/
@[simp] theorem fingerprint_canonical : ∀ expr : Expr,
    expr.canonical.fingerprint = expr.fingerprint
  | block body | moduleDef _ _ body => by
    simp only [canonical, fingerprint, blockFingerprint_canonical body]
  | useDef .. | reference .. | intLit .. | stringLit .. | boolLit .. | identifier .. => rfl
  | floatLit _ value => by simp only [canonical, fingerprint, Binary64.fingerprint_canonical]
  | parameter _ => by simp only [canonical, fingerprint, Parameter.fingerprint_stamp]
  | binary _ left _ right => by
    simp only [canonical, fingerprint, fingerprint_canonical left, fingerprint_canonical right]
  | assign _ target value => by
    simp only [canonical, fingerprint, fingerprint_canonical target, fingerprint_canonical value]
  | arguments _ args => by
    simp only [canonical, fingerprint, length_canonicalAll, allFingerprint_canonical args]
  | call _ target args => by
    simp only [canonical, fingerprint, fingerprint_canonical target, length_canonicalAll,
      allFingerprint_canonical args]
  | functionDef _ _ params _ body => by
    simp only [canonical, fingerprint, Fingerprint.ofList, List.length_map, List.flatMap_map,
      Parameter.fingerprint_stamp, blockFingerprint_canonical body]
  | conditional _ condition whenTrue whenFalse => by
    simp only [canonical, fingerprint, fingerprint_canonical condition,
      blockFingerprint_canonical whenTrue, blockFingerprint_canonical whenFalse]

theorem allFingerprint_canonical : ∀ exprs : List Expr,
    allFingerprint (canonicalAll exprs) = allFingerprint exprs
  | [] => rfl
  | expr :: rest => by
    simp only [canonicalAll, allFingerprint, fingerprint_canonical expr,
      allFingerprint_canonical rest]

theorem blockFingerprint_canonical : ∀ body : Block Expr,
    blockFingerprint (canonicalBlock body) = blockFingerprint body
  | ⟨_, contents⟩ => by
    simp only [canonicalBlock, blockFingerprint, length_canonicalAll,
      allFingerprint_canonical contents]

end

end Expr

end Offside
