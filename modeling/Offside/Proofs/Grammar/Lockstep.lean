import Offside.Proofs.Expr.Alike
import Offside.Proofs.Grammar.Declaration
import Offside.Proofs.TypeExpr.Agrees

/-!
# Two runs of a rule

Two runs of one rule over the same tokens end together, as far as the parsers of expressions that
they are given do (`ExprParser.Agrees`). What they parse differs in its places alone. The rules with
bodies are given parsers of bodies as well, which may differ (`Grammar.BodiesAgree`).
-/

namespace Offside

open Offside.Expr (Alike AlikeAll Twin relocateAll relocateBlock)
open ParseM (Agrees anyToken GoesOn goesOn_value goesOn_kind RoundsAgree)
open ParseM.Agrees

variable {s : Lockstep} {n : Nat} {P : Token → Prop}

/-! ## Expressions -/

/-- Expressions that may be missing, in both runs or in none. An expression takes a token. -/
def Expr.Twins (s : Lockstep) : Option Expr → Option Expr → Nat → Prop
  | some expr, some expr', taken => expr.Twin s.place s.place' expr' ∧ 0 < taken
  | none, none, _ => True
  | _, _, _ => False

/-- Two parsers of expressions that keep in lockstep on fewer than `n` tokens. -/
def ExprParser.Agrees (s : Lockstep) (n : Nat) (inner inner' : ExprParser) : Prop :=
  ∀ floor, ParseM.Agrees s n anyToken (inner floor) (inner' floor) (Expr.Twins s)

theorem ExprParser.Agrees.mono {inner inner' : ExprParser} {k : Nat} (h : inner.Agrees s n inner')
    (hk : k ≤ n) : inner.Agrees s k inner' :=
  fun floor => (h floor).mono hk

theorem ExprParser.Agrees.required {inner inner' : ExprParser} (h : inner.Agrees s n inner')
    (floor : Power) : ParseM.Agrees s n P (inner.required floor) (inner'.required floor)
      fun expr expr' taken => expr.Twin s.place s.place' expr' ∧ 0 < taken := by
  refine (h floor).any.bind fun expr expr' taken htwins => ?_
  cases expr <;> cases expr' <;> try exact htwins.elim
  · exact fail rfl
  · exact .pure htwins

namespace Grammar

/-! ## Operands -/

theorem agrees_primary (hP : GoesOn P) :
    Agrees s n P primary primary fun expr expr' taken =>
      Alike s.place s.place' expr expr' ∧ 0 < taken := by
  rw [primary_eq]
  refine (consumeThen hP fun token line column htokens _ => ?_).mono (Nat.le_succ n)
  have hliteral : literalOf (token.moved line column) = literalOf token := rfl
  rw [hliteral]
  cases h : literalOf token with
  | some expr =>
    refine .pure ⟨?_, by omega⟩
    unfold literalOf at h
    split at h
    · cases h
      exact .leaf nofun rfl
    · obtain ⟨hkind, hchildren⟩ := Token.leaf_of_literal h
      exact .leaf hkind hchildren
  | none =>
    have hfault : literalFault (token.moved line column) = literalFault token := rfl
    rw [hfault]
    refine failAt htokens ?_
    unfold literalFault
    split <;> rfl

theorem agrees_scopeRound {modules modules' : Array String} (hmodules : modules' = modules) :
    Agrees s n P (scopeRound modules) (scopeRound modules')
      (RoundsAgree (fun modules modules' => modules' = modules) (Alike s.place s.place')) := by
  subst hmodules
  refine ifAhead (fun _ _ _ => rfl) ((advance (goesOn_value "::" (by decide))).bind ?_) (fail rfl)
  rintro - - - rfl
  refine ifAhead (fun _ _ _ => rfl) ((consume (goesOn_kind .constant nofun)).bind ?_)
    (takeThen (goesOn_kindExpected .identifier nofun) fun name _ _ _ _ => ?_)
  · rintro name name' - ⟨htokens, -, rfl⟩
    obtain ⟨line, column, rfl⟩ := s.moved htokens
    exact .pure ⟨by omega, rfl⟩
  · exact .pure (.leaf nofun rfl)

theorem agrees_scopedReference (hP : GoesOn P) :
    Agrees s n P scopedReference scopedReference fun expr expr' taken =>
      Alike s.place s.place' expr expr' ∧ 0 < taken := by
  rw [scopedReference_eq]
  refine (consumeThen hP fun first _ _ _ _ => ?_).mono (Nat.le_succ n)
  exact (loop (fun _ _ => agrees_scopeRound) rfl).imp fun _ _ _ halike => ⟨halike, by omega⟩

section

variable {inner inner' : ExprParser} (h : inner.Agrees s n inner')

include h

theorem agrees_argumentRound (message : String) {args args' : Array Expr}
    (hargs : AlikeAll s.place s.place' args.toList args'.toList) :
    Agrees s n P (argumentRound inner message args) (argumentRound inner' message args')
      (RoundsAgree (fun args args' => AlikeAll s.place s.place' args.toList args'.toList)
        fun args args' => AlikeAll s.place s.place' args.toList args'.toList) := by
  refine ifAhead (fun _ _ _ => rfl) (.pure hargs)
    (advanceAny.bind fun _ _ _ _ => (h.required .lowest).bind ?_)
  rintro next next' taken ⟨hnext, htaken⟩
  have hmore := hargs.snoc hnext.alike
  rw [← Array.toList_push, ← Array.toList_push] at hmore
  exact expectDelimiter.bind fun _ _ _ _ => .pure ⟨by omega, hmore⟩

theorem agrees_grouping (hP : GoesOn P) :
    Agrees s (n + 1) P (grouping inner) (grouping inner') fun expr expr' taken =>
      Alike s.place s.place' expr expr' ∧ 0 < taken := by
  rw [grouping_eq, grouping_eq]
  refine next hP (ifAhead (fun _ _ _ => rfl)
    (advanceAny.bind fun _ _ _ _ => .pure ⟨.leaf (by simp [Expr.kind]) rfl, by omega⟩)
    ((h.required .lowest).bind ?_))
  rintro first first' - ⟨hfirst, -⟩
  refine expectDelimiter.bind fun _ _ _ _ => ?_
  refine ifAhead (fun _ _ _ => rfl)
    (advanceAny.bind fun _ _ _ _ => .pure ⟨hfirst.alike, by omega⟩) ?_
  exact (loop (fun _ _ => agrees_argumentRound h _) (by exact .cons hfirst.alike .nil)).bind
    fun args args' _ hargs => advanceAny.bind fun _ _ _ _ => .pure ⟨.arguments hargs, by omega⟩

/-! ## Operators and calls -/

variable {left left' : Expr} (hleft : Alike s.place s.place' left left')

include hleft

theorem agrees_binary (hP : GoesOn P) (power : Power) :
    Agrees s (n + 1) P (binary inner left power) (binary inner' left' power)
      fun expr expr' taken => Alike s.place s.place' expr expr' ∧ 0 < taken := by
  refine consumeThen hP fun operator _ _ _ _ => (h.required power).bind ?_
  rintro right right' - ⟨hright, -⟩
  exact .pure ⟨.binary hleft hright.alike, by omega⟩

theorem agrees_assignment (hP : GoesOn P) (power : Power) :
    Agrees s (n + 1) P (assignment inner left power) (assignment inner' left' power)
      fun expr expr' taken => Alike s.place s.place' expr expr' ∧ 0 < taken := by
  refine next hP ((h.required .lowest).bind ?_)
  rintro value value' - ⟨hvalue, -⟩
  exact .pure ⟨.assign hleft hvalue.alike, by omega⟩

theorem agrees_call (hP : GoesOn P) (power : Power) :
    Agrees s (n + 1) P (call inner left power) (call inner' left' power)
      fun expr expr' taken => Alike s.place s.place' expr expr' ∧ 0 < taken := by
  rw [call_eq, call_eq]
  refine next hP ((h.required power).bind ?_)
  rintro target target' - ⟨htarget, -⟩
  exact .pure ⟨.call htarget.alike hleft.callArguments, by omega⟩

omit hleft

/-! ## Bodies -/

theorem agrees_statementRound {found found' : Array Expr}
    (hfound : relocateAll s.place found.toList = relocateAll s.place' found'.toList) :
    Agrees s n P (statementRound inner found) (statementRound inner' found')
      (RoundsAgree
        (fun found found' => relocateAll s.place found.toList = relocateAll s.place' found'.toList)
        fun found found' => relocateAll s.place found.toList = relocateAll s.place' found'.toList) := by
  refine skipNewlines.bind fun _ _ _ _ => ?_
  refine ifAhead (p := fun token => token.kind == .outdent || token.isEnd) (fun _ _ _ => rfl)
    (.pure hfound) ((h.required .lowest).bind ?_)
  rintro expr expr' taken ⟨htwin, htaken⟩
  have hmore := Expr.relocateAll_snoc hfound htwin.same
  rw [← Array.toList_push, ← Array.toList_push] at hmore
  exact .pure ⟨by omega, hmore⟩

theorem agrees_statements :
    Agrees s n P (statements inner) (statements inner') fun contents contents' _ =>
      relocateAll s.place contents = relocateAll s.place' contents' := by
  rw [statements_eq, statements_eq]
  exact (loop (fun _ _ => agrees_statementRound h) rfl).bind fun _ _ _ hfound => .pure hfound

theorem agrees_body (trailing : Bool) :
    Agrees s n P (body inner trailing) (body inner' trailing) fun body body' _ =>
      body.relocate s.place = body'.relocate s.place' := by
  refine skipNewlines.bind fun _ _ _ _ => ifAhead (fun _ _ _ => rfl) (advanceAny.bind fun _ _ _ _ =>
    (agrees_statements h).bind fun contents contents' _ hcontents =>
      advanceAny.bind fun _ _ _ _ => ?_) ((h .lowest).any.bind fun expr expr' _ htwins => ?_)
  · have hblock : (Expr.block { contents }).relocate s.place =
        (Expr.block { contents := contents' }).relocate s.place' := by
      rw [Expr.relocate, Expr.relocate, Expr.relocateBlock, Expr.relocateBlock, hcontents]
    exact ifAhead (p := fun token => trailing && token.isNewline) (fun _ _ _ => rfl)
      (advanceAny.bind fun _ _ _ _ => .pure hblock) (.pure hblock)
  · cases expr <;> cases expr' <;> try exact htwins.elim
    · exact fail rfl
    · exact .pure htwins.1.same

/-! ## Declarations -/

omit h

theorem agrees_moduleName :
    Agrees s n P moduleName moduleName fun name name' taken => name' = name ∧ 0 < taken :=
  takeThen (goesOn_kindExpected .constant nofun) fun name _ _ _ _ => .pure ⟨rfl, by omega⟩

theorem agrees_useSegment :
    Agrees s n P useSegment useSegment fun segment segment' _ => segment' = segment := by
  rw [useSegment_eq]
  refine ifAhead (fun _ _ _ => rfl) (advanceAny.bind fun _ _ _ _ =>
    (TypeExpr.agrees_items (fun _ _ _ => rfl) agrees_moduleName).bind ?_)
    (takeThen (goesOn_kindExpected .constant nofun) fun name _ _ _ _ => .pure rfl)
  rintro names _ - rfl
  exact .pure rfl

theorem agrees_useRound {path path' : Array UseSegment} (hpath : path' = path) :
    Agrees s n P (useRound path) (useRound path')
      (RoundsAgree (fun path path' => path' = path) fun path path' => path' = path) := by
  subst hpath
  refine ifAhead (fun _ _ _ => rfl) ((advance (goesOn_value "::" (by decide))).bind ?_) (.pure rfl)
  rintro - - - rfl
  refine agrees_useSegment.bind ?_
  rintro segment _ - rfl
  exact .pure ⟨by omega, rfl⟩

theorem agrees_useDef (hP : GoesOn P) :
    Agrees s n P useDef useDef fun expr expr' taken =>
      Alike s.place s.place' expr expr' ∧ 0 < taken := by
  rw [useDef_eq]
  refine (next hP (takeThen (goesOn_kindExpected .constant nofun) fun first _ _ _ _ => ?_)).mono
    (Nat.le_succ n)
  refine (loop (fun _ _ => agrees_useRound) rfl).bind ?_
  rintro path _ - rfl
  exact .pure ⟨.leaf nofun rfl, by omega⟩

theorem agrees_parameter :
    Agrees s n P parameter parameter fun param param' taken => param' = param ∧ 0 < taken := by
  refine takeThen (goesOn_kindExpected .identifier nofun) fun name _ _ _ _ =>
    takeThen (goesOn_textExpected ":" (by decide)) fun _ _ _ _ _ => TypeExpr.agrees_parse.bind ?_
  rintro type _ - ⟨rfl, -⟩
  exact .pure ⟨rfl, by omega⟩

theorem agrees_parameters :
    Agrees s n P parameters parameters fun params params' _ => params' = params := by
  refine look fun token line column _ _ => ?_
  show Agrees s n _ (if token.isIdentifier then _ else if token.kind == .leftParen then _ else _)
    (if token.isIdentifier then _ else if token.kind == .leftParen then _ else _) _
  split
  · refine agrees_parameter.bind ?_
    rintro param _ - ⟨rfl, -⟩
    exact .pure rfl
  · split
    · exact advanceAny.bind fun _ _ _ _ =>
        TypeExpr.agrees_items (fun _ _ _ => rfl) agrees_parameter
    · exact .pure rfl

theorem agrees_resultType :
    Agrees s n P resultType resultType fun result result' _ => result' = result := by
  refine ifAhead (fun _ _ _ => rfl)
    (advanceAny.bind fun _ _ _ _ => .map (TypeExpr.agrees_parse.imp ?_)) (.pure rfl)
  rintro type _ - ⟨rfl, -⟩
  rfl

end

/-! ### Declarations around bodies -/

/-- Two parsers of bodies that keep in lockstep on fewer than `n` tokens. -/
def BodiesAgree (s : Lockstep) (n : Nat) (body body' : ParseM Expr) : Prop :=
  Agrees s n anyToken body body' fun expr expr' _ =>
    expr.relocate s.place = expr'.relocate s.place'

section

variable {body body' : ParseM Expr} (hbody : BodiesAgree s n body body')

include hbody

theorem agrees_moduleAround (hP : GoesOn P) :
    Agrees s (n + 1) P (moduleAround body) (moduleAround body') fun expr expr' taken =>
      Alike s.place s.place' expr expr' ∧ 0 < taken := by
  refine takeNextThen hP (goesOn_kindExpected .constant nofun) fun name _ _ _ _ => hbody.bind ?_
  intro body body' _ hbody
  exact .pure ⟨.moduleDef (Expr.relocateBlock_toBlock_congr hbody), by omega⟩

theorem agrees_functionAround (hP : GoesOn P) :
    Agrees s (n + 1) P (functionAround body) (functionAround body') fun expr expr' taken =>
      Alike s.place s.place' expr expr' ∧ 0 < taken := by
  refine takeNextThen hP (goesOn_kindExpected .identifier nofun) fun name _ _ _ _ =>
    agrees_parameters.bind ?_
  rintro params _ - rfl
  refine agrees_resultType.bind ?_
  rintro result _ - rfl
  refine hbody.bind fun body body' _ hbody => ?_
  exact .pure ⟨.functionDef (Expr.relocateBlock_toBlock_congr hbody), by omega⟩

theorem agrees_conditionalAround {inner inner' : ExprParser} (h : inner.Agrees s n inner')
    (hP : GoesOn P) :
    Agrees s (n + 1) P (conditionalAround inner body) (conditionalAround inner' body')
      fun expr expr' taken => Alike s.place s.place' expr expr' ∧ 0 < taken := by
  refine next hP ((h.required .lowest).bind ?_)
  rintro condition condition' - ⟨hcondition, -⟩
  refine hbody.bind fun whenTrue whenTrue' _ htrue => ?_
  replace htrue := Expr.relocateBlock_toBlock_congr htrue
  refine skipNewlines.bind fun _ _ _ _ => ifAhead (fun _ _ _ => rfl) (advanceAny.bind fun _ _ _ _ =>
    hbody.bind fun whenFalse whenFalse' _ hfalse => ?_) ?_
  · exact .pure ⟨.conditional hcondition.alike htrue (Expr.relocateBlock_toBlock_congr hfalse),
      by omega⟩
  · exact .pure ⟨.conditional hcondition.alike htrue rfl, by omega⟩

end

end Grammar

end Offside
