import Offside.Proofs.Grammar.Ledger
import Offside.Proofs.Grammar.Watched

/-!
# The nodes of a run

Every parser of the grammar keeps the account of a ledger: where it answers, the nodes of its answer
are on record. So it is in every construct and at any depth, up to a whole text
(`Grammar.tallies_program`).
-/

namespace Offside

open Offside.Expr (countAll)
open ParseM (Tallies)
open ParseM.Tallies

variable {l : Ledger} {k : Nat}

/-! ## Types -/

namespace TypeExpr

theorem tallies_parseNamed : Tallies l k parseNamed fun _ => k := by
  rw [parseNamed_eq]
  refine bind (take _) fun first =>
    bind (loopPlain (fun path => bind peek fun token => ?_) _) fun _ => pure rfl
  split
  · exact bind (takeNext _) fun _ => pure rfl
  · exact pure rfl

variable {inner : ParseM TypeExpr} (h : Tallies l k inner fun _ => k)

include h

theorem tallies_parseEntry : Tallies l k (parseEntry inner) fun _ => k := by
  refine bind peek fun token => ?_
  split
  · exact bind consume fun _ => bind (take _) fun _ => bind h fun _ => pure rfl
  · exact bind h fun _ => pure rfl

theorem tallies_parseParams : Tallies l k (parseParams inner) fun _ => k := by
  refine bind peek fun token => ?_
  split
  · exact bind advance fun _ => items h
  · split
    · exact bind h fun _ => pure rfl
    · exact pure rfl

theorem tallies_parseFunction : Tallies l k (parseFunction inner) fun _ => k := by
  refine bind advance fun _ => bind (tallies_parseParams h) fun params => bind peek fun token => ?_
  split
  · exact bind advance fun _ => bind h fun _ => pure rfl
  · exact pure rfl

theorem tallies_parseStep : Tallies l k (parseStep inner) fun _ => k := by
  refine bind peek fun token => ?_
  split
  · exact bind advance fun _ => bind (items (tallies_parseEntry h)) fun _ => pure rfl
  · split
    · exact bind (takeNext _) fun _ => bind h fun _ => pure rfl
    · split
      · exact tallies_parseFunction h
      · exact tallies_parseNamed

omit h

theorem tallies_parse : Tallies l k parse fun _ => k := by
  refine getBudget fun depth => ?_
  induction depth with
  | zero => exact throw _
  | succ depth ih => exact tallies_parseStep ih

end TypeExpr

/-! ## Rules -/

/-- The parser of expressions puts the nodes of what it answers on record. -/
def ExprParser.Tallies (l : Ledger) (inner : ExprParser) : Prop :=
  ∀ k floor, ParseM.Tallies l k (inner floor) fun found => k + countAll l.test found.toList

theorem ExprParser.Tallies.required {inner : ExprParser} (h : inner.Tallies l) (floor : Power) :
    ParseM.Tallies l k (inner.required floor) fun expr => k + expr.count l.test := by
  refine bind (h k floor) fun found => ?_
  cases found with
  | some expr => exact pure (by simp)
  | none => exact fail _

namespace Grammar

open Offside.Expr (kind children Kind.isOperation)

/-- A node with nothing below it. -/
theorem tallies_leaf {expr : Expr} (hkind : expr.kind.isOperation = false)
    (hchildren : expr.children = []) :
    Tallies l k (pure expr) fun expr => k + expr.count l.test :=
  node (by rw [hkind, hchildren]; rfl)

theorem tallies_primary : Tallies l k primary fun expr => k + expr.count l.test := by
  refine bind consume fun token => ?_
  split
  · exact tallies_leaf rfl rfl
  · split
    · exact tallies_leaf rfl rfl
    · exact failAt _ _
  · split
    · exact tallies_leaf rfl rfl
    · exact failAt _ _
  · exact tallies_leaf rfl rfl
  · exact tallies_leaf rfl rfl
  · exact failAt _ _

theorem tallies_scopedReference :
    Tallies l k scopedReference fun expr => k + expr.count l.test := by
  rw [scopedReference_eq]
  refine bind consume fun first =>
    loop (I := fun _ => k) (fun modules => bind peek fun token => ?_) _
  split
  · refine bind advance fun _ => bind peek fun token => ?_
    split
    · exact bind consume fun _ => pure rfl
    · refine bind (take _) fun name cursor round after hcursor hrun => ?_
      cases hrun
      exact tallies_leaf rfl rfl cursor _ cursor hcursor rfl
  · exact fail _

theorem tallies_moduleName : Tallies l k moduleName fun _ => k :=
  bind (take _) fun _ => pure rfl

theorem tallies_useSegment : Tallies l k useSegment fun _ => k := by
  rw [useSegment_eq]
  refine bind peek fun token => ?_
  split
  · exact bind advance fun _ => bind (items tallies_moduleName) fun _ => pure rfl
  · exact bind (take _) fun _ => pure rfl

theorem tallies_useDef : Tallies l k useDef fun expr => k + expr.count l.test := by
  rw [useDef_eq]
  refine bind advance fun _ => bind (take _) fun first =>
    bind (loopPlain (fun path => bind peek fun token => ?_) _) fun path => tallies_leaf rfl rfl
  split
  · exact bind advance fun _ => bind tallies_useSegment fun _ => pure rfl
  · exact pure rfl

theorem tallies_parameter : Tallies l k parameter fun _ => k :=
  bind (take _) fun _ => bind (take _) fun _ => bind TypeExpr.tallies_parse fun _ => pure rfl

theorem tallies_parameters : Tallies l k parameters fun _ => k := by
  refine bind peek fun token => ?_
  split
  · exact bind tallies_parameter fun _ => pure rfl
  · split
    · exact bind advance fun _ => items tallies_parameter
    · exact pure rfl

theorem tallies_resultType : Tallies l k resultType fun _ => k := by
  refine bind peek fun token => ?_
  split
  · exact bind advance fun _ => map TypeExpr.tallies_parse
  · exact pure rfl

section

variable {inner : ExprParser} (h : inner.Tallies l)

include h

theorem tallies_argumentRound (message : String) (args : Array Expr) :
    Tallies l (k + countAll l.test args.toList) (argumentRound inner message args)
      (Round.weight (fun args => k + countAll l.test args.toList)
        fun args => k + countAll l.test args.toList) := by
  refine bind peek fun token => ?_
  split
  · exact pure rfl
  · refine bind advance fun _ => bind (h.required .lowest) fun next =>
      bind (expectDelimiter _ _) fun _ => pure ?_
    simp [Round.weight, Nat.add_assoc]

theorem tallies_grouping : Tallies l k (grouping inner) fun expr => k + expr.count l.test := by
  have hlist (args : List Expr) : Tallies l (k + countAll l.test args)
      (pure (Expr.arguments {} args)) fun expr => k + expr.count l.test := node rfl
  rw [grouping_eq]
  refine bind advance fun _ => bind peek fun token => ?_
  split
  · exact bind advance fun _ => hlist []
  · refine bind (h.required .lowest) fun first => bind (expectDelimiter _ _) fun _ =>
      bind peek fun token => ?_
    split
    · exact bind advance fun _ => pure rfl
    · have hargs (message : String) : Tallies l (k + countAll l.test [first])
          (ParseM.loop (argumentRound inner message) #[first])
          fun args => k + countAll l.test args.toList :=
        loop (tallies_argumentRound h message) #[first]
      rw [Expr.countAll_singleton] at hargs
      exact bind (hargs _) fun args => bind advance fun _ => hlist args.toList

/-! ### Extensions -/

omit h in
/-- An operation counts its operands. What the extension has put on record is for the operation. -/
theorem tallies_operation {left right expr : Expr} (hkind : expr.kind.isOperation = true)
    (hchildren : countAll l.test expr.children = left.count l.test + right.count l.test) :
    Tallies l (k + left.count l.test + l.extension + right.count l.test) (pure expr)
      fun expr => k + expr.count l.test := by
  refine node ?_
  rw [hkind, if_pos rfl, hchildren]
  omega

theorem tallies_binary (left : Expr) (power : Power) :
    Tallies l (k + left.count l.test + l.extension) (binary inner left power)
      fun expr => k + expr.count l.test :=
  bind consume fun operator => bind (h.required power) fun right =>
    tallies_operation rfl (by simp [children])

theorem tallies_assignment (left : Expr) (power : Power) :
    Tallies l (k + left.count l.test + l.extension) (assignment inner left power)
      fun expr => k + expr.count l.test :=
  bind advance fun _ => bind (h.required .lowest) fun value =>
    tallies_operation rfl (by simp [children])

theorem tallies_call (left : Expr) (power : Power) :
    Tallies l (k + left.count l.test + l.extension) (call inner left power)
      fun expr => k + expr.count l.test := by
  rw [call_eq]
  exact bind advance fun _ => bind (h.required power) fun target =>
    tallies_operation rfl (by simp [children, l.counts.countAll_callArguments, Nat.add_comm])

/-! ### Bodies -/

theorem tallies_statementRound (found : Array Expr) :
    Tallies l (k + countAll l.test found.toList) (statementRound inner found)
      (Round.weight (fun found => k + countAll l.test found.toList)
        fun found => k + countAll l.test found.toList) := by
  refine bind skipNewlines fun _ => bind peek fun token => ?_
  split
  · exact pure rfl
  · refine bind (h.required .lowest) fun expr => pure ?_
    simp [Round.weight, Nat.add_assoc]

theorem tallies_statements :
    Tallies l k (statements inner) fun contents => k + countAll l.test contents := by
  rw [statements_eq]
  exact bind (loop (tallies_statementRound h) #[]) fun found => pure rfl

theorem tallies_body (trailing : Bool) :
    Tallies l k (body inner trailing) fun body => k + body.count l.test := by
  refine bind skipNewlines fun _ => bind peek fun token => ?_
  split
  · refine bind advance fun _ => bind (tallies_statements h) fun contents => bind advance fun _ =>
      bind peek fun token => ?_
    split
    · exact bind advance fun _ => node rfl
    · exact node rfl
  · refine bind (h k .lowest) fun found => ?_
    cases found with
    | some expr => exact pure (by simp)
    | none => exact fail _

theorem tallies_moduleDef : Tallies l k (moduleDef inner) fun expr => k + expr.count l.test :=
  bind (takeNext _) fun _ => bind (tallies_body h true) fun body =>
    node (by simp [kind, children, Kind.isOperation, l.counts.count_block,
      l.counts.countAll_toBlock])

theorem tallies_functionDef :
    Tallies l k (functionDef inner) fun expr => k + expr.count l.test := by
  rw [functionDef_eq]
  exact bind (takeNext _) fun name => bind tallies_parameters fun params =>
    bind tallies_resultType fun result => bind (tallies_body h true) fun body =>
      node (by simp [kind, children, Kind.isOperation, l.counts.countAll_parameters,
        l.counts.count_block, l.counts.countAll_toBlock])

theorem tallies_conditional :
    Tallies l k (conditional inner) fun expr => k + expr.count l.test := by
  refine bind advance fun _ => bind (h.required .lowest) fun condition =>
    bind (tallies_body h true) fun whenTrue => bind skipNewlines fun _ => bind peek fun token => ?_
  split
  · exact bind advance fun _ => bind (tallies_body h true) fun whenFalse =>
      node (by simp [kind, children, Kind.isOperation, l.counts.count_block,
        l.counts.countAll_toBlock, Nat.add_assoc])
  · exact node (by simp [kind, children, Kind.isOperation, l.counts.count_block,
      l.counts.countAll_toBlock, Nat.add_assoc])

theorem tallies_starters : ∀ rule ∈ standardStarters,
    Tallies l k (rule.parse inner) fun expr => k + expr.count l.test := by
  simp only [standardStarters, List.forall_mem_cons]
  exact ⟨tallies_primary, tallies_primary, tallies_primary, tallies_primary, tallies_primary,
    tallies_moduleDef h, tallies_useDef, tallies_scopedReference, tallies_grouping h,
    tallies_functionDef h, tallies_conditional h, by simp⟩

/-- A rule that extends an expression makes a node of it. -/
theorem tallies_extenders (left : Expr) (power : Power) : ∀ rule ∈ standardExtenders,
    Tallies l (k + left.count l.test + l.extension) (rule.parse inner left power)
      fun expr => k + expr.count l.test := by
  simpa only [standardExtenders, operator, List.forall_mem_cons, tallies_binary h left power,
    true_and] using ⟨tallies_assignment h left power, tallies_call h left power, by simp⟩

/-! ## Whole grammars -/

theorem tallies_extendRound (floor : Power) (left : Expr) :
    Tallies l (k + left.count l.test) (standard.extendRound inner floor left)
      (Round.weight (fun left => k + left.count l.test) fun whole => k + whole.count l.test) := by
  refine bind peek fun token => ?_
  cases hrule : standard.extender? token with
  | none => exact pure rfl
  | some rule =>
    dsimp only
    split
    · have hmem : rule ∈ standardExtenders := List.mem_of_find?_eq_some hrule
      exact bind (noteExtension _ _) fun _ =>
        bind (tallies_extenders h left rule.power rule hmem) fun _ => pure rfl
    · exact pure rfl

theorem tallies_extend (floor : Power) (start : Expr) :
    Tallies l (k + start.count l.test) (standard.extend inner floor start)
      fun whole => k + whole.count l.test := by
  rw [extend_eq]
  exact loop (tallies_extendRound h floor) start

omit h

theorem tallies_expressionStep {depth : Nat} (h : (standard.expressionWithin depth).Tallies l) :
    (standard.expressionStep (standard.expressionWithin depth)).Tallies l := by
  refine fun k floor => bind skipNewlines fun _ cursor found after hcursor hrun => ?_
  obtain ⟨token, ahead, hpeek, hrun⟩ := ParseM.bind_eq_ok.1 hrun
  cases hpeek
  cases hrule : standard.starter? cursor.current with
  | none =>
    rw [hrule] at hrun
    cases hrun
    exact hcursor
  | some rule =>
    rw [hrule] at hrun
    obtain ⟨_, noted, hnote, hrun⟩ := ParseM.bind_eq_ok.1 hrun
    cases hnote
    obtain ⟨start, middle, hstart, hrun⟩ := ParseM.bind_eq_ok.1 hrun
    obtain ⟨whole, final, hextend, hrun⟩ := ParseM.bind_eq_ok.1 hrun
    cases hrun
    have hmiddle := l.started hcursor hrule hstart fun k hnoted =>
      tallies_starters h rule (mem_of_starter? hrule) _ start middle hnoted hstart
    have hfinal := tallies_extend h floor start middle whole _ hmiddle hextend
    simpa [l.counts.count_stamp] using hfinal

theorem tallies_expression : (standard.expression).Tallies l := by
  have hwithin (depth : Nat) : (standard.expressionWithin depth).Tallies l := by
    induction depth with
    | zero => exact fun _ _ => throw _
    | succ depth ih => exact tallies_expressionStep ih
  exact fun k floor => getBudget (f := fun depth => standard.expressionWithin depth floor)
    fun depth => hwithin depth k floor

theorem tallies_programRound (contents : Array Expr) :
    Tallies l (k + countAll l.test contents.toList) (standard.programRound contents)
      (Round.weight (fun contents => k + countAll l.test contents.toList)
        fun contents => k + countAll l.test contents.toList) := by
  refine bind (tallies_expression _ .lowest) fun found => ?_
  cases found with
  | some expr => exact pure (by simp [Round.weight, Nat.add_assoc])
  | none => exact pure rfl

/-- At the end of a text the nodes of its statements are on record. -/
theorem tallies_program :
    Tallies l k standard.program fun block => k + countAll l.test block.contents := by
  rw [program_eq]
  refine bind (loop tallies_programRound #[]) fun contents => bind peek fun token => ?_
  have hend : Tallies l (k + countAll l.test contents.toList) (do
      ParseM.note (.fileParsed contents.size)
      return ({ contents := contents.toList } : Block Expr)) fun block =>
        k + countAll l.test block.contents :=
    bind (note id) fun _ => pure rfl
  split
  · exact hend
  · exact bind (w := fun _ => k + countAll l.test contents.toList) (fail _) fun _ => hend

end

end Grammar

end Offside
