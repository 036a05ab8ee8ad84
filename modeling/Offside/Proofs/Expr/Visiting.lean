import Mathlib.Data.List.FinRange
import Offside.Expr.Visit
import Offside.Proofs.Expr.Stamping

/-!
# What a visit meets

A visit that intercepts the nodes of some kinds meets a tree in the order of its paths, and nothing
below a node that it has intercepted (`Expr.visit_recorder`). The paths to what it meets are
`Expr.paths`: those that pass no node of such a kind (`Expr.mem_paths_iff`), each before those that
go on from it, and those into one child before those into the next (`Expr.pairwise_paths`).

The visitor is `Expr.recorder`, which notes whom it meets and whom it answers for. It comes to its
nodes in three ways: as expressions, as the bodies of declarations, and as parameters of functions.
`Expr.visit_eq` makes one of them, so that the run is an induction over trees by their children.
-/

namespace Offside.Expr

variable {stops : Kind → Bool} {expr : Expr} {step : Nat} {path : List Nat}

/-! ## Paths in the order of a text -/

/-- The path leads to a node, and past none of a kind to stop at. -/
def Reaches (stops : Kind → Bool) (expr : Expr) (path : List Nat) : Prop :=
  (expr.at? path).isSome = true ∧ ∀ above, above <+: path → above ≠ path →
    ∀ node ∈ expr.at? above, stops node.kind = false

/-- The paths of a tree that pass no node of a kind to stop at: a node first, then the paths into
each of its children. -/
def paths (stops : Kind → Bool) (expr : Expr) : List (List Nat) :=
  [] :: if stops expr.kind then [] else
    (List.finRange expr.children.length).flatMap fun step =>
      (expr.children[step].paths stops).map (step.1 :: ·)
termination_by sizeOf expr
decreasing_by exact sizeOf_lt_of_child (List.getElem_mem step.2)

/-- The nodes that are reached, in the order of a text. -/
def nodes (stops : Kind → Bool) (expr : Expr) : List Expr :=
  (expr.paths stops).filterMap expr.at?

theorem reaches_nil : expr.Reaches stops [] := by
  refine ⟨rfl, fun above habove hne => ?_⟩
  exact absurd (List.prefix_nil.1 habove) hne

theorem reaches_cons : expr.Reaches stops (step :: path) ↔
    stops expr.kind = false ∧ ∃ child, expr.children[step]? = some child ∧
      child.Reaches stops path := by
  constructor
  · rintro ⟨hsome, habove⟩
    have hroot := habove [] List.nil_prefix (List.cons_ne_nil _ _).symm expr rfl
    obtain ⟨node, hnode⟩ := Option.isSome_iff_exists.1 hsome
    obtain ⟨child, hchild, hinner⟩ := Option.bind_eq_some_iff.1 hnode
    refine ⟨hroot, child, hchild, Option.isSome_iff_exists.2 ⟨node, hinner⟩, ?_⟩
    intro above hprefix hne node hnode
    apply habove (step :: above) (List.cons_prefix_cons.2 ⟨rfl, hprefix⟩) (by simpa using hne)
    show node ∈ expr.children[step]?.bind fun child => child.at? above
    rw [hchild]
    exact hnode
  · rintro ⟨hroot, child, hchild, hsome, habove⟩
    have hat (path : List Nat) : expr.at? (step :: path) = child.at? path := by
      rw [at?, hchild, Option.bind_some]
    refine ⟨by rwa [hat], fun above hprefix hne node hnode => ?_⟩
    cases above with
    | nil =>
      cases hnode
      exact hroot
    | cons first above =>
      obtain ⟨rfl, hbefore⟩ := List.cons_prefix_cons.1 hprefix
      rw [hat] at hnode
      exact habove above hbefore (by simpa using hne) node hnode

/-- The paths are those that pass no node of a kind to stop at. -/
theorem mem_paths_iff : path ∈ expr.paths stops ↔ expr.Reaches stops path := by
  induction path generalizing expr with
  | nil =>
    rw [paths]
    exact iff_of_true List.mem_cons_self reaches_nil
  | cons step path ih =>
    rw [paths, reaches_cons]
    cases hstop : stops expr.kind with
    | true => simp
    | false =>
      simp only [reduceCtorEq, Bool.false_eq_true, if_false, List.mem_cons, List.mem_flatMap,
        List.mem_finRange, List.mem_map, List.cons.injEq, true_and, false_or]
      constructor
      · rintro ⟨step, path, hmem, rfl, rfl⟩
        exact ⟨_, List.getElem?_eq_getElem step.2, ih.1 hmem⟩
      · rintro ⟨child, hchild, hreaches⟩
        obtain ⟨hlt, rfl⟩ := List.getElem?_eq_some_iff.1 hchild
        exact ⟨⟨step, hlt⟩, path, ih.2 hreaches, rfl, rfl⟩

/-- A path comes before those that go on from it, and these come child by child. -/
theorem pairwise_paths (stops : Kind → Bool) (expr : Expr) :
    (expr.paths stops).Pairwise (· < ·) := by
  induction expr using induction_children with
  | node expr ih =>
    rw [paths]
    split
    · exact List.pairwise_singleton _ _
    · refine List.pairwise_cons.2 ⟨fun path hpath => ?_, List.pairwise_flatMap.2 ⟨?_, ?_⟩⟩
      · obtain ⟨step, -, hpath⟩ := List.mem_flatMap.1 hpath
        obtain ⟨path, -, rfl⟩ := List.mem_map.1 hpath
        exact List.nil_lt_cons _ _
      · intro step _
        refine List.Pairwise.map _ (fun path path' hlt => ?_) (ih _ (List.getElem_mem step.2))
        exact List.cons_lt_cons_iff.2 (.inr ⟨rfl, hlt⟩)
      · refine (List.pairwise_lt_finRange _).imp fun hlt path hpath path' hpath' => ?_
        obtain ⟨path, -, rfl⟩ := List.mem_map.1 hpath
        obtain ⟨path', -, rfl⟩ := List.mem_map.1 hpath'
        exact List.cons_lt_cons_iff.2 (.inl hlt)

/-- A node comes before those below it, and these come child by child. -/
theorem nodes_eq (stops : Kind → Bool) (expr : Expr) :
    expr.nodes stops =
      expr :: if stops expr.kind then [] else expr.children.flatMap (nodes stops) := by
  have hroot : expr.at? [] = some expr := rfl
  rw [nodes, paths, List.filterMap_cons_some hroot]
  cases hstop : stops expr.kind with
  | true => rfl
  | false =>
    simp only [Bool.false_eq_true, if_false, List.filterMap_flatMap, List.filterMap_map]
    have hchild (step : Fin expr.children.length) :
        (expr.children[step].paths stops).filterMap (expr.at? ∘ (step.1 :: ·)) =
          nodes stops expr.children[step] := by
      refine List.filterMap_congr fun path _ => ?_
      show expr.children[step.1]?.bind (fun child => child.at? path) = _
      rw [List.getElem?_eq_getElem step.2]
      rfl
    have hchildren : (List.finRange expr.children.length).map (fun step => expr.children[step]) =
        expr.children := List.map_getElem_finRange _
    rw [List.flatMap_congr fun step _ => hchild step, ← List.flatMap_map, hchildren]

/-! ## A visitor that notes whom it meets -/

/-- Whom a visitor has met, and whom it has answered for. -/
structure Record where
  met : List Expr := []
  answered : List Expr := []

/-- The visits at hand, one after another, and the sum of what they answer. -/
def sumOfVisits (visits : List (StateM Record Nat)) : StateM Record Nat :=
  visits.foldlM (fun total visit => return total + (← visit)) 0

/-- Intercepts the nodes of some kinds, with the answer 100. For any other node it visits the
children, and counts 1 for the node itself. -/
def recorder (stops : Kind → Bool) : Visitor (StateM Record) Nat where
  intercept expr := do
    modify fun record => { record with met := record.met ++ [expr] }
    return if stops expr.kind then some 100 else none
  answer expr visits := do
    modify fun record => { record with answered := record.answered ++ [expr] }
    return 1 + (← sumOfVisits visits)

/-- What comes of a record, and the sum, where these nodes are met. -/
def meeting (stops : Kind → Bool) (met : List Expr) (total : Nat) (record : Record) : Nat × Record :=
  (total + (100 * met.countP (stops ·.kind) + met.countP (!stops ·.kind)),
    { met := record.met ++ met, answered := record.answered ++ met.filter (!stops ·.kind) })

theorem meeting_append (met met' : List Expr) (total : Nat) (record : Record) :
    meeting stops (met ++ met') total record =
      meeting stops met' (meeting stops met total record).1 (meeting stops met total record).2 := by
  simp only [meeting, List.countP_append, List.filter_append, List.append_assoc, Prod.mk.injEq,
    and_true]
  omega

theorem run_sumOfVisits {exprs : List Expr}
    (h : ∀ expr ∈ exprs, ∀ record,
      (expr.visit (recorder stops)).run record = meeting stops (expr.nodes stops) 0 record)
    (record : Record) :
    (sumOfVisits (exprs.map (visit (recorder stops)))).run record =
      meeting stops (exprs.flatMap (nodes stops)) 0 record := by
  suffices hfold : ∀ total record,
      ((exprs.map (visit (recorder stops))).foldlM
        (fun total visit => (return total + (← visit) : StateM Record Nat)) total).run record =
          meeting stops (exprs.flatMap (nodes stops)) total record from hfold 0 record
  clear record
  induction exprs with
  | nil =>
    intro total record
    simp only [List.map_nil, List.flatMap_nil, meeting, List.countP_nil, List.filter_nil,
      List.append_nil]
    rfl
  | cons expr exprs ih =>
    intro total record
    obtain ⟨hfirst, hrest⟩ := List.forall_mem_cons.1 h
    rw [List.map_cons, List.foldlM_cons, List.flatMap_cons, meeting_append, ← ih hrest]
    simp only [StateT.run_bind, hfirst, meeting, Nat.zero_add]
    rfl

/-- A node that is intercepted is the last to be met; otherwise the visits of the children follow. -/
theorem run_meet (expr : Expr) (visits : List (StateM Record Nat)) (record : Record) :
    ((recorder stops).meet expr visits).run record =
      if stops expr.kind then meeting stops [expr] 0 record
      else
        let next := meeting stops [expr] 0 record
        let rest := (sumOfVisits visits).run next.2
        (1 + rest.1, rest.2) := by
  cases hstop : stops expr.kind with
  | true =>
    simp [Visitor.meet, recorder, meeting, hstop]
    rfl
  | false =>
    simp [Visitor.meet, recorder, meeting, hstop]
    rfl

theorem run_visit (stops : Kind → Bool) (expr : Expr) (record : Record) :
    (expr.visit (recorder stops)).run record = meeting stops (expr.nodes stops) 0 record := by
  induction expr using induction_children generalizing record with
  | node expr ih =>
    rw [visit_eq, run_meet, nodes_eq]
    cases hstop : stops expr.kind with
    | true => rfl
    | false =>
      have hself : (meeting stops [expr] 0 record).1 = 1 := by simp [meeting, hstop]
      have hchildren := run_sumOfVisits (fun child hchild record => ih child hchild record)
        (meeting stops [expr] 0 record).2
      have hboth := @meeting_append stops [expr] (expr.children.flatMap (nodes stops)) 0 record
      rw [List.singleton_append, hself] at hboth
      simp only [Bool.false_eq_true, if_false, hchildren, hboth]
      simp only [meeting, Nat.zero_add]

/-- The paths lead to the nodes, one by one. -/
theorem map_at?_paths (stops : Kind → Bool) (expr : Expr) :
    (expr.paths stops).map expr.at? = (expr.nodes stops).map some := by
  rw [nodes, List.map_filterMap_some_eq_filter_map_isSome, List.filter_eq_self.2]
  intro found hfound
  obtain ⟨path, hpath, rfl⟩ := List.mem_map.1 hfound
  exact (mem_paths_iff.1 hpath).1

/-- A visitor that intercepts the nodes of some kinds, and visits the children of all others, meets
the nodes below no such node: each once, before those below it, and child by child. It answers for
those that it has not intercepted, and counts 100 for the ones and 1 for the others. -/
theorem visit_recorder (stops : Kind → Bool) (expr : Expr) :
    (∀ path, path ∈ expr.paths stops ↔ expr.Reaches stops path) ∧
    (expr.paths stops).Pairwise (· < ·) ∧
    ∃ met : List Expr, (expr.paths stops).map expr.at? = met.map some ∧
      (expr.visit (recorder stops)).run {} =
        (100 * met.countP (stops ·.kind) + met.countP (!stops ·.kind),
          { met, answered := met.filter (!stops ·.kind) }) := by
  refine ⟨fun path => mem_paths_iff, pairwise_paths stops expr, expr.nodes stops,
    map_at?_paths stops expr, ?_⟩
  rw [run_visit]
  simp only [meeting, Nat.zero_add, List.nil_append]

/-- A call is met before its target, and its target before its arguments. -/
example :
    ((call {} (identifier {} "foo") [identifier {} "a", intLit {} 1]).visit
        (recorder fun _ => false)).run {} =
      let met := [call {} (identifier {} "foo") [identifier {} "a", intLit {} 1],
        identifier {} "foo", identifier {} "a", intLit {} 1]
      (4, { met, answered := met }) :=
  rfl

end Offside.Expr
