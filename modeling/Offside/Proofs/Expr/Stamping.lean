import Offside.Proofs.Expr.Bare
import Offside.Proofs.Expr.Children

/-!
# Where a stamp writes

A stamp writes its origin on the nodes that are reached past no block, and changes nothing else
(`Expr.stamp_writes`). Nodes are told apart by the paths that lead to them (`Expr.at?`), so this
says of each node of a tree what becomes of it; and there is one tree only of which it can be said
(`Expr.Writes.unique`), because a tree is settled by its bare form and the origins along its paths
(`Expr.eq_of_origins`).

Along a path the node of a stamped tree is the node of the tree, stamped, up to the first block
(`Expr.at?_stamp`). The two kinds of stamps differ in whether the root counts as a block.
-/

namespace Offside.Expr

variable {expr expr' : Expr} {origin : Origin} {step : Nat} {path : List Nat}

/-! ## Trees by their children -/

/-- The bare form of a node is built of those of its children. -/
theorem children_bare (expr : Expr) : expr.bare.children = expr.children.map bare := by
  cases expr <;> simp [bare, children, bareBlock_eq, bareAll_eq_map, Function.comp_def]

/-- A node is settled by its own fields and its children. -/
theorem eq_of_children (hbare : expr'.bare = expr.bare) (horigin : expr'.origin = expr.origin)
    (hchildren : expr'.children = expr.children) : expr' = expr := by
  have hparams {params params' : List Parameter} :
      params'.map parameter = params.map parameter ↔ params' = params :=
    List.map_inj_right fun _ _ h => parameter.inj h
  cases expr with
  | block body =>
    cases expr' with
    | block body' =>
      obtain ⟨_, _⟩ := body
      obtain ⟨_, _⟩ := body'
      cases horigin
      cases hchildren
      rfl
    | _ => cases hbare
  | parameter param =>
    cases expr' with
    | parameter param' =>
      obtain ⟨_, _, _⟩ := param
      obtain ⟨_, _, _⟩ := param'
      cases horigin
      cases hbare
      rfl
    | _ => cases hbare
  | _ => cases expr' <;> simp_all [bare, children, Expr.origin]

/-! ## Paths -/

/-- The node at the end of a path. Each step is the number of the child that it enters. -/
def at? : Expr → List Nat → Option Expr
  | expr, [] => some expr
  | expr, step :: path => expr.children[step]?.bind fun child => child.at? path

/-- A block stands at the end of the path. -/
def BlockAt (expr : Expr) (path : List Nat) : Prop :=
  ∃ body, expr.at? path = some (.block body)

/-- No block stands on the path, nor at its ends. -/
def Open (expr : Expr) (path : List Nat) : Prop :=
  ∀ before, before <+: path → ¬ expr.BlockAt before

/-- No block stands on the path but where it begins. -/
def OpenBelow (expr : Expr) (path : List Nat) : Prop :=
  ∀ before, before ≠ [] → before <+: path → ¬ expr.BlockAt before

theorem open_iff : expr.Open path ↔ expr.kind ≠ .block ∧ expr.OpenBelow path := by
  have hroot : expr.BlockAt [] ↔ expr.kind = .block := by
    cases expr <;> simp [BlockAt, at?, kind]
  constructor
  · intro h
    exact ⟨fun hkind => h [] List.nil_prefix (hroot.2 hkind), fun before _ => h before⟩
  · rintro ⟨hkind, hbelow⟩ before hbefore
    by_cases hnil : before = []
    · rw [hnil, hroot]
      exact hkind
    · exact hbelow before hnil hbefore

theorem openBelow_nil : expr.OpenBelow [] :=
  fun _ hne hbefore => absurd (List.prefix_nil.1 hbefore) hne

theorem openBelow_cons :
    expr.OpenBelow (step :: path) ↔ ∀ child ∈ expr.children[step]?, child.Open path := by
  constructor
  · rintro h child hchild before hbefore ⟨body, hbody⟩
    refine h (step :: before) (List.cons_ne_nil _ _) (List.cons_prefix_cons.2 ⟨rfl, hbefore⟩)
      ⟨body, ?_⟩
    rw [at?, hchild, Option.bind_some, hbody]
  · rintro h before hne hbefore ⟨body, hbody⟩
    obtain ⟨first, before, rfl⟩ := List.exists_cons_of_ne_nil hne
    obtain ⟨rfl, hrest⟩ := List.cons_prefix_cons.1 hbefore
    rw [at?] at hbody
    obtain ⟨child, hchild, hinner⟩ := Option.bind_eq_some_iff.1 hbody
    exact h child hchild before hrest ⟨body, hinner⟩

/-- The bare form of a tree has the bare forms of its nodes. -/
theorem at?_bare (expr : Expr) (path : List Nat) :
    expr.bare.at? path = (expr.at? path).map bare := by
  induction path generalizing expr with
  | nil => rfl
  | cons step path ih =>
    rw [at?, at?, children_bare, List.getElem?_map]
    cases expr.children[step]? with
    | none => rfl
    | some child => exact ih child

/-- A tree is settled by its bare form and the origins along its paths. -/
theorem eq_of_origins (hbare : expr'.bare = expr.bare)
    (horigins : ∀ path, (expr'.at? path).map Expr.origin = (expr.at? path).map Expr.origin) :
    expr' = expr := by
  induction expr using induction_children generalizing expr' with
  | node expr ih =>
    refine eq_of_children hbare (Option.some.inj (horigins [])) (List.ext_getElem? fun step => ?_)
    have hchildren := congrArg (fun expr : Expr => expr.children[step]?) hbare
    simp only [children_bare, List.getElem?_map] at hchildren
    have hsteps (path : List Nat) := horigins (step :: path)
    simp only [at?] at hsteps
    cases hchild : expr.children[step]? with
    | none =>
      rw [hchild] at hchildren
      exact Option.map_eq_none_iff.1 hchildren
    | some child =>
      rw [hchild] at hchildren hsteps
      obtain ⟨child', hchild', hbare'⟩ := Option.map_eq_some_iff.1 hchildren
      rw [hchild'] at hsteps ⊢
      exact congrArg some (ih child (List.mem_of_getElem? hchild) hbare' hsteps)

/-! ## Stamps along a path -/

theorem at?_stamp (origin : Origin) (h : expr.Open path) :
    (expr.stamp origin).at? path = (expr.at? path).map (stamp origin) := by
  induction path generalizing expr with
  | nil => rfl
  | cons step path ih =>
    obtain ⟨hkind, hbelow⟩ := open_iff.1 h
    rw [at?, at?, children_stamp hkind, List.getElem?_map]
    cases hchild : expr.children[step]? with
    | none => rfl
    | some child => exact ih (openBelow_cons.1 hbelow child hchild)

theorem at?_stamp_of_not_open (origin : Origin) (h : ¬ expr.Open path) :
    (expr.stamp origin).at? path = expr.at? path := by
  induction path generalizing expr with
  | nil =>
    cases expr with
    | block body => rfl
    | _ => exact absurd (open_iff.2 ⟨by simp [kind], openBelow_nil⟩) h
  | cons step path ih =>
    by_cases hkind : expr.kind = .block
    · cases expr with
      | block body => rfl
      | _ => cases hkind
    rw [at?, at?, children_stamp hkind, List.getElem?_map]
    cases hchild : expr.children[step]? with
    | none => rfl
    | some child =>
      refine ih fun hopen => h (open_iff.2 ⟨hkind, openBelow_cons.2 fun other hother => ?_⟩)
      cases hchild.symm.trans hother
      exact hopen

/-! ## What a stamp writes -/

/-- The origin stands on the nodes at the paths of a region, and all else is as it was: the fields
of all nodes, and whatever the other paths lead to. -/
structure Writes (origin : Origin) (region : List Nat → Prop) (expr expr' : Expr) : Prop where
  bare : expr'.bare = expr.bare
  inside : ∀ path, region path → ∀ node ∈ expr'.at? path, node.origin = origin
  outside : ∀ path, ¬ region path → expr'.at? path = expr.at? path

/-- There is one tree only with the origin on the nodes of a region. -/
theorem Writes.unique {region : List Nat → Prop} {other : Expr}
    (h : Writes origin region expr expr') (h' : Writes origin region expr other) :
    expr' = other := by
  have hbare := h.bare.trans h'.bare.symm
  refine eq_of_origins hbare fun path => ?_
  by_cases hpath : region path
  · have hnodes : (expr'.at? path).map Expr.bare = (other.at? path).map Expr.bare := by
      rw [← at?_bare, ← at?_bare, hbare]
    have hinside := h.inside path hpath
    have hinside' := h'.inside path hpath
    cases hnode : expr'.at? path with
    | none =>
      rw [hnode] at hnodes
      rw [Option.map_eq_none_iff.1 hnodes.symm]
    | some node =>
      rw [hnode] at hnodes
      obtain ⟨node', hnode', -⟩ := Option.map_eq_some_iff.1 hnodes.symm
      rw [hnode', Option.map_some, Option.map_some, hinside node hnode, hinside' node' hnode']
  · rw [h.outside path hpath, h'.outside path hpath]

theorem writes_stamp (origin : Origin) (expr : Expr) :
    Writes origin expr.Open expr (expr.stamp origin) where
  bare := bare_stamp origin expr
  inside path hopen node hnode := by
    rw [at?_stamp origin hopen] at hnode
    obtain ⟨node', hnode', rfl⟩ := Option.map_eq_some_iff.1 hnode
    refine origin_stamp fun hkind => ?_
    cases node' with
    | block body => exact hopen path List.prefix_rfl ⟨body, hnode'⟩
    | _ => cases hkind
  outside _ := at?_stamp_of_not_open origin

theorem stampPosition_of_kind_ne (origin : Origin) (h : expr.kind ≠ .block) :
    expr.stampPosition origin = expr.stamp origin := by
  cases expr with
  | block => exact absurd rfl h
  | _ => rfl

theorem writes_stampPosition (origin : Origin) (expr : Expr) :
    Writes origin expr.OpenBelow expr (expr.stampPosition origin) := by
  by_cases hkind : expr.kind = .block
  · cases expr with
    | block body =>
      -- Below the block each statement is stamped by itself.
      have hcons (step : Nat) (path : List Nat) :
          ((block body).stampPosition origin).at? (step :: path) =
            body.contents[step]?.bind fun child => (child.stamp origin).at? path := by
        rw [stampPosition, at?, children, List.getElem?_map, Option.bind_map]
        rfl
      refine ⟨bare_stampPosition origin _, fun path hopen node hnode => ?_,
        fun path hclosed => ?_⟩
      · cases path with
        | nil =>
          cases hnode
          rfl
        | cons step path =>
          rw [hcons] at hnode
          obtain ⟨child, hchild, hnode⟩ := Option.bind_eq_some_iff.1 hnode
          have hopen' := openBelow_cons.1 hopen child hchild
          exact (writes_stamp origin child).inside path hopen' node hnode
      · cases path with
        | nil => exact absurd openBelow_nil hclosed
        | cons step path =>
          rw [hcons, at?, children]
          cases hchild : body.contents[step]? with
          | none => rfl
          | some child =>
            refine (writes_stamp origin child).outside path fun hopen => hclosed ?_
            refine openBelow_cons.2 fun other hother => ?_
            cases hchild.symm.trans hother
            exact hopen
    | _ => cases hkind
  · have hregion : expr.OpenBelow = expr.Open :=
      funext fun path => propext (open_iff.trans (and_iff_right hkind)).symm
    rw [stampPosition_of_kind_ne origin hkind, hregion]
    exact writes_stamp origin expr

/-- A stamp writes on the nodes that are reached past no block, which leaves a block as it is; a
stamp of a position takes a block at the root for a node like others, and stamps its statements.
The last of two stamps alone is seen. -/
theorem stamp_writes (origin : Origin) (expr : Expr) :
    (∀ expr', Writes origin expr.Open expr expr' ↔ expr' = expr.stamp origin) ∧
    (∀ expr', Writes origin expr.OpenBelow expr expr' ↔ expr' = expr.stampPosition origin) ∧
    (∀ body, expr = block body → expr.stamp origin = expr ∧
      expr.stampPosition origin = .block ⟨origin, body.contents.map (stamp origin)⟩) ∧
    (expr.kind ≠ .block → expr.stampPosition origin = expr.stamp origin) ∧
    ∀ origin', (expr.stamp origin).stamp origin' = expr.stamp origin' := by
  refine ⟨fun expr' => ⟨fun h => h.unique (writes_stamp origin expr), ?_⟩,
    fun expr' => ⟨fun h => h.unique (writes_stampPosition origin expr), ?_⟩, ?_,
    stampPosition_of_kind_ne origin, fun origin' => stamp_stamp origin origin' expr⟩
  · rintro rfl
    exact writes_stamp origin expr
  · rintro rfl
    exact writes_stampPosition origin expr
  · rintro body rfl
    exact ⟨rfl, rfl⟩

/-- A function takes the origin with its parameters, and its body keeps what it has. -/
example :
    let statement := (intLit {} 1).stamp ⟨"stamp.ibex", 7⟩
    (functionDef {} "foo" [{ name := "a", type := .named ["I32"] }] none
        { contents := [statement] }).stamp ⟨"stamp.ibex", 2⟩ =
      functionDef ⟨"stamp.ibex", 2⟩ "foo"
        [{ origin := ⟨"stamp.ibex", 2⟩, name := "a", type := .named ["I32"] }] none
        { contents := [intLit ⟨"stamp.ibex", 7⟩ 1] } :=
  rfl

end Offside.Expr
