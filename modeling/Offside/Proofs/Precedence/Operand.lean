import Offside.Proofs.Indentation
import Offside.Proofs.Phrase.Moved
import Offside.Proofs.Scanner.Before
import Offside.Proofs.Scanner.Reads

/-!
# Operands

An `Operand` is a text that the grammar reads on its own as a literal, a name or parentheses. It is
an operand wherever it stands in a line, with a space or nothing after it: it has the same tokens
there (`Operand.exists_reads`), and they spell the same value.
-/

namespace Offside

open Grammar Phrase
open Scanner (Reads)
open Text (Spaced)
open Token (Moved)

/-- The rules for what stands beside infix tokens: literals, names and parentheses. -/
def Grammar.operandRules : List String :=
  ["bool", "integer", "float", "string", "identifier", "scoped reference", "grouping"]

/-- The value of a text that one of these rules reads from its first token to its end. -/
def Grammar.operand? (text : String) : Option Expr :=
  match (Cursor.ofText text none #[]).result with
  | .error _ => none
  | .ok cursor =>
    match standard.starter? cursor.current with
    | none => none
    | some rule =>
      match rule.parse standard.expression cursor with
      | .error _ _ => none
      | .ok value after =>
        if rule.name ∈ operandRules ∧ after.current.isEnd = true then some value else none

/-- An operand is a text with the value that it is read as. -/
structure Operand where
  text : String
  value : Expr
  operand?_text : operand? text = some value

example : (operand? "A::b").isSome = true ∧ (operand? "(a, b = 1)").isSome = true ∧
    (operand? "a + b").isSome = false := by
  decide +kernel

theorem Operand.spells (operand : Operand) : ∃ cursor rule after,
    (Cursor.ofText operand.text none #[]).result = .ok cursor ∧
      standard.starter? cursor.current = some rule ∧ rule.name ∈ operandRules ∧
        rule.parse standard.expression cursor = .ok operand.value after ∧
          after.current.isEnd = true := by
  obtain ⟨text, value, hvalue⟩ := operand
  unfold operand? at hvalue
  split at hvalue
  · cases hvalue
  · rename_i cursor hcursor
    split at hvalue
    · cases hvalue
    · rename_i rule hrule
      split at hvalue
      · cases hvalue
      · rename_i found after hrun
        split at hvalue
        · rename_i hend
          cases hvalue
          exact ⟨cursor, rule, after, hcursor, hrule, hend.1, hrun, hend.2⟩
        · cases hvalue

/-! ## How operands end -/

namespace Phrase

/-- The last token of a phrase is not one for white space. -/
def EndsPlain (tokens rest : List Token) : Prop :=
  ∃ before last, tokens = before ++ last :: rest ∧ ¬ last.IsBreak

variable {token : Token} {tokens middle rest : List Token} {file : String}

theorem EndsPlain.of_suffix (h : EndsPlain middle rest) (hsuffix : middle <:+ tokens) :
    EndsPlain tokens rest := by
  obtain ⟨before, last, rfl, hlast⟩ := h
  obtain ⟨skipped, rfl⟩ := hsuffix
  exact ⟨skipped ++ before, last, by rw [List.append_assoc], hlast⟩

theorem endsPlain_of_kind (h : token.kind ∉ [.newline, .indent, .outdent]) :
    EndsPlain (token :: rest) rest := by
  refine ⟨[], token, rfl, fun hbreak => h ?_⟩
  rcases hbreak with ⟨hkind, -⟩ | ⟨hkind | hkind, -⟩ <;> simp [hkind]

theorem endsPlain_of_close (h : token.value = ")") : EndsPlain (token :: rest) rest := by
  refine ⟨[], token, rfl, fun hbreak => ?_⟩
  rcases hbreak with ⟨-, hvalue⟩ | ⟨-, hvalue⟩ <;> rw [hvalue] at h <;> revert h <;> decide

theorem Scope.endsPlain {path : List String × String} (h : Scope tokens path rest) :
    EndsPlain tokens rest := by
  induction h with
  | name _ hname =>
    exact (endsPlain_of_kind (by simp [hname])).of_suffix (List.suffix_cons _ _)
  | module _ _ _ ih =>
    exact ih.of_suffix ((List.suffix_cons _ _).trans (List.suffix_cons _ _))

theorem Arguments.endsPlain {args : List Expr} (h : Arguments file tokens args rest) :
    EndsPlain tokens rest := by
  induction args generalizing tokens with
  | nil =>
    cases h with
    | close hclose => exact endsPlain_of_close hclose
  | cons arg others ih =>
    cases h with
    | next _ harg hothers =>
      exact (ih hothers).of_suffix (harg.takes.suffix.trans (List.suffix_cons _ _))

theorem Start.endsPlain {expr : Expr} (h : Start file (token :: tokens) expr rest)
    (hplain : token.declares = false) : EndsPlain (token :: tokens) rest := by
  have hkeyword {text : String} (hkeyword : token.isKeyword text = true)
      (htext : text ∈ ["module", "use", "fn", "if"] := by decide) : False := by
    rw [Token.declares_of_keyword hkeyword htext] at hplain
    cases hplain
  have hsuffix := List.suffix_cons token tokens
  cases h with
  | literal hliteral =>
    have hstart : Start file [token] expr [] := .literal hliteral
    exact endsPlain_of_kind (plain_of_start hstart)
  | reference _ hscope => exact hscope.endsPlain.of_suffix hsuffix
  | unit _ hclose => exact (endsPlain_of_close hclose).of_suffix hsuffix
  | group _ hexpr hclose =>
    exact (endsPlain_of_close hclose).of_suffix (hexpr.takes.suffix.trans hsuffix)
  | arguments _ hfirst hothers =>
    exact hothers.endsPlain.of_suffix (hfirst.takes.suffix.trans hsuffix)
  | moduleDef hmodule => exact (hkeyword hmodule).elim
  | useDef huse => exact (hkeyword huse).elim
  | functionDef hfn => exact (hkeyword hfn).elim
  | ifElse hif => exact (hkeyword hif).elim
  | ifOnly hif => exact (hkeyword hif).elim

theorem EndsPlain.not_isBreak (h : EndsPlain tokens []) :
    ∀ token ∈ tokens.getLast?, ¬ token.IsBreak := by
  obtain ⟨before, last, rfl, hlast⟩ := h
  intro token htoken
  rw [List.getLast?_append, List.getLast?_singleton, Option.some_or, Option.mem_some] at htoken
  exact htoken ▸ hlast

end Phrase

/-! ## The tokens of an operand -/

/-- A rule for operands accepts no token that begins a declaration. -/
theorem Grammar.declares_of_starter? {token : Token} {rule : Starter}
    (h : standard.starter? token = some rule) (hrule : rule.name ∈ operandRules) :
    token.declares = false := by
  rw [← Bool.not_eq_true]
  intro hdeclares
  obtain ⟨text, htext, hkeyword⟩ := List.any_eq_true.1 hdeclares
  obtain ⟨hkind, hvalue⟩ := Bool.and_eq_true_iff.1 hkeyword
  rw [beq_iff_eq] at hkind hvalue
  simp only [List.mem_cons, List.not_mem_nil, or_false] at htext
  rcases htext with rfl | rfl | rfl | rfl <;>
  · simp [starter?, standard, standardStarters, Token.isKeyword, Token.isIdentifier,
      Token.isConstant, hkind, hvalue] at h
    rw [← h] at hrule
    revert hrule
    decide

/-- On its own an operand has tokens, and they start an expression that has its value. -/
theorem Operand.exists_start (operand : Operand) : ∃ tokens last,
    (tokenize operand.text none).result = .ok (tokens ++ [last]) ∧
      Start Scanner.unknownFile tokens operand.value [] ∧
        Starts (·.declares = false) tokens := by
  obtain ⟨cursor, rule, after, hcursor, hstarter, hrule, hrun, hend⟩ := operand.spells
  obtain ⟨hsound, htokens⟩ := Cursor.sound_ofText hcursor
  have hdeclares := declares_of_starter? hstarter hrule
  obtain ⟨row, hrow, rfl⟩ : ∃ row,
      (startRows Scanner.unknownFile cursor.endToken).find? (·.1.accepts cursor.current) = some row ∧
        row.1 = rule := by
    rw [starter?, show standard.starters =
      (startRows Scanner.unknownFile cursor.endToken).map Prod.fst from rfl, List.find?_map] at hstarter
    exact Option.map_eq_some_iff.1 hstarter
  have hinner : standard.expression.Parses Scanner.unknownFile cursor.endToken 1 :=
    fun floor cause => orFail_of_optional cause (parses_expression floor)
  have hparses := parses_startRows hinner row (List.mem_of_find?_eq_some hrow)
  obtain ⟨hleads, hphrase⟩ := hparses.sound hsound hrun
  have hview : after.view = [] := by rw [Cursor.view, if_pos hend]
  rw [hview] at hphrase
  have hclean := hleads.clean_iff.1 (hleads.sound.clean_of_view hview)
  refine ⟨cursor.view, cursor.endToken, (htokens _).2 ⟨hclean, rfl⟩, ?_⟩
  rw [hsound.current_eq] at hrow hdeclares
  cases hcursorView : cursor.view with
  | nil =>
    rw [hcursorView] at hrow
    exact absurd (List.find?_some hrow)
      (not_accepts_last hsound.isLast row (List.mem_of_find?_eq_some hrow))
  | cons token others =>
    rw [hcursorView] at hrow hdeclares hphrase
    exact ⟨start_of_choice (choice_cons_iff.2 ⟨row, hrow, hphrase⟩), starts_cons.2 hdeclares⟩

/-- An operand closes the blocks that it opens. A token after it would tell, for it would stand on
the line on which the operand begins. -/
theorem Operand.exists_delivers (operand : Operand) : ∃ tokens after last,
    (Scanner.ofText operand.text none).Delivers tokens after ∧ after.Ends last ∧
      after.layout.widths = [0] ∧ Start Scanner.unknownFile tokens operand.value [] ∧
        Starts (·.declares = false) tokens := by
  obtain ⟨_, last, htokens, hstart, first, tokens, rfl, hdeclares⟩ := operand.exists_start
  obtain ⟨after, hdelivers, hends⟩ := tokenize_eq_ok_iff.1 htokens
  refine ⟨_, after, last, hdelivers, hends, ?_, hstart, starts_cons.2 hdeclares⟩
  have hbreaks := Scanner.pendingBreaks_ofText operand.text none
  -- The same operand with another token behind it.
  let source := operand.text ++ " z"
  have hbefore : Scanner.Before " z".toList (Scanner.ofText operand.text none)
      (Scanner.ofText source none) := ⟨String.toList_append, rfl, .nil⟩
  obtain ⟨tokens', after', hdelivers', hafter, hmoved⟩ :=
    hdelivers.before (Text.spaced_cons _) hbefore hbreaks (hstart.endsPlain hdeclares).not_isBreak
  obtain ⟨hplaced, hlaid⟩ := hdelivers'.laid (Scanner.placed_ofText source none)
  have hpending : after'.pending = [] := by
    have hnone := hafter.pending
    rw [(hends.spaces (hdelivers.pendingBreaks hbreaks)).1] at hnone
    generalize after'.pending = pending at hnone
    cases hnone
    rfl
  have hwidth := hplaced.width (by simp [hafter.rest])
  let token : Token := { kind := .identifier, value := "z", line := after'.line, column := 0 }
  have hstanding : Standing (Text.indentation source) [0] (tokens' ++ [token]) := by
    obtain ⟨rest, heq, hrest⟩ := hlaid [token] ((laid_plain (by simp [token])).2 ⟨hwidth.symm, trivial⟩)
    rw [hpending] at heq
    cases heq
    refine ⟨fun other hother => ?_, hrest⟩
    rcases List.mem_append.1 hother with hmem | hmem
    · exact hdelivers'.proper (Scanner.pendingBreaks_ofText source none) other hmem
    · rw [List.mem_singleton.1 hmem]
      exact (by decide : ∀ mark ∈ Token.marks, "z" = mark.1 → Token.Kind.identifier = mark.2)
  have hmoved' := hmoved.append (.nil : Moved [token] [] [token])
  rw [List.append_nil] at hmoved'
  obtain ⟨value, rest, hstart', -, hrest⟩ : ∃ value rest,
      Start Scanner.unknownFile (tokens' ++ [token]) value rest ∧ _ ∧ Moved [token] [] rest :=
    hstart.moved hmoved' fun h => by simp [hdeclares] at h
  cases hrest
  -- That token stands outside of the operand and its blocks, so that its line is not indented.
  have hzero := ((laid_plain (by simp [token])).1 (hstart'.settles hstanding).standing.laid).1
  refine Layout.widths_of_width (hdelivers.descends (by simp [Layout.Descends, Scanner.ofText])) ?_ ?_
  · rw [← hafter.layout]
    exact hplaced.bottom
  · rw [← hafter.layout, hwidth]
    exact hzero

/-- Wherever an operand stands, with a space or nothing after it, its tokens are the same up to
their places. They start an expression that has its value. -/
theorem Operand.exists_reads (operand : Operand) : ∃ tokens spaces,
    (∀ more, Spaced more →
      Reads [0] (operand.text.toList ++ more) tokens [0] (spaces ++ more)) ∧
        spaces.dropWhile (· == ' ') = [] ∧ Start Scanner.unknownFile tokens operand.value [] ∧
          Starts (·.declares = false) tokens := by
  obtain ⟨_, after, last, hdelivers, hends, hwidths, hstart, first, tokens, rfl, hdeclares⟩ :=
    operand.exists_delivers
  have hbreaks := Scanner.pendingBreaks_ofText operand.text none
  obtain ⟨hpending, hspaces⟩ := hends.spaces (hdelivers.pendingBreaks hbreaks)
  refine ⟨_, after.rest, fun more hmore scanner hat => ?_, hspaces, hstart, starts_cons.2 hdeclares⟩
  have hbefore : Scanner.Before more (Scanner.ofText operand.text none) scanner := by
    refine ⟨hat.rest, congrArg Layout.mk hat.widths, ?_⟩
    rw [hat.pending]
    exact .nil
  obtain ⟨tokens', after', hdelivers', hafter, hmoved⟩ :=
    hdelivers.before hmore hbefore hbreaks (hstart.endsPlain hdeclares).not_isBreak
  have hpending' := hafter.pending
  rw [hpending] at hpending'
  generalize hwaiting : after'.pending = waiting at hpending'
  cases hpending'
  exact ⟨tokens', after', hdelivers', ⟨hafter.rest, by rw [hafter.layout, hwidths], hwaiting⟩, hmoved⟩

end Offside
