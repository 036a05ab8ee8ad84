import Offside.Proofs.Cursor.Spared
import Offside.Proofs.Grammar.Agrees
import Offside.Proofs.Progress
import Offside.Proofs.Scanner.Delivers

/-!
# Reading a text ends

Every step of the parser is paid for by a token. Rules that answer and rounds that go on have taken
one (`Offside.Proofs.Progress`), and an expression, a body or a type is entered inside another one
of its sort only where fewer tokens are left: parsers that give up elsewhere answer the same
(`Grammar.descending`, `TypeExpr.descending`). The tokens of a text are paid for by its characters,
so reading it takes a number of steps that is known beforehand (`parse_ends`).
-/

namespace Offside

open ParseM
open Phrase (Takes)

/-- Runs the parser where fewer than `limit` tokens are left, and gives up elsewhere. -/
def ParseM.below {α : Type} (limit : Nat) (m : ParseM α) : ParseM α := do
  if (← get).view.length < limit then m else throw .exhausted

theorem ParseM.below_of_lt {α : Type} {limit : Nat} {m : ParseM α} {cursor : Cursor}
    (h : cursor.view.length < limit) : below limit m cursor = m cursor := by
  have hrun : below limit m cursor =
      (if cursor.view.length < limit then m else throw .exhausted) cursor := rfl
  rw [hrun, if_pos h]

/-! ## Descents -/

/-- A type, entered where fewer than `limit` tokens are left. The types inside it are entered with
fewer tokens than the type itself. -/
def TypeExpr.descending : Nat → Nat → ParseM TypeExpr
  | 0, _ => throw .exhausted
  | depth + 1, limit => below limit do
    let left := (← get).view.length
    parseStep (descending depth left)

namespace Grammar

/-- A body, entered where fewer than `limit` tokens are left. The expressions inside it are parsed
by `inner`, which is told how many there were. -/
def bodyBelow (limit : Nat) (inner : Nat → ExprParser) : ParseM Expr := below limit do
  let left := (← get).view.length
  body (inner left) true

/-- An expression, entered where fewer than `limit` tokens are left, whose bodies are entered where
fewer than `bodies` are. The expressions inside it are entered with fewer tokens than the expression
itself, and the bodies inside its bodies with fewer tokens than those. -/
def descending : Nat → Nat → Nat → ExprParser
  | 0, _, _ => fun _ => throw .exhausted
  | depth + 1, bodies, limit => fun floor => below limit do
    let left := (← get).view.length
    let body := bodyBelow bodies fun inside => descending depth inside left
    (standardAround fun _ => body).expressionStep (descending depth bodies left) floor

end Grammar

section

variable {s : Lockstep} {depth depth' bodies limit n : Nat}

theorem TypeExpr.agrees_descending (hdepth : n ≤ depth) (hdepth' : n ≤ depth') (hlimit : n ≤ limit) :
    Agrees s n anyToken (parseWithin depth) (descending depth' limit)
      fun type type' taken => type' = type ∧ 0 < taken := by
  induction depth generalizing depth' limit n with
  | zero => exact fun _ _ _ hlen => absurd hlen (by omega)
  | succ depth ih =>
    intro cursor cursor' hcursor hlen hP
    obtain ⟨depth', rfl⟩ : ∃ k, depth' = k + 1 := ⟨depth' - 1, by omega⟩
    have hleft := s.length_view hcursor
    have hinner : Agrees s cursor'.view.length anyToken (parseWithin depth)
        (descending depth' cursor'.view.length) _ := ih (by omega) (by omega) (Nat.le_refl _)
    have hstep := agrees_parseStep hinner cursor cursor' hcursor (by omega) hP
    rw [descending, below_of_lt (by omega)]
    exact hstep

/-- The limits are no obstacle to a run that begins below them. -/
theorem Grammar.agrees_descending (hdepth : n ≤ depth) (hdepth' : n ≤ depth')
    (hbodies : n ≤ bodies + 1) (hlimit : n ≤ limit) :
    (standard.expressionWithin depth).Agrees s n (descending depth' bodies limit) := by
  induction depth generalizing depth' bodies limit n with
  | zero => exact fun _ _ _ _ hlen => absurd hlen (by omega)
  | succ depth ih =>
    intro floor cursor cursor' hcursor hlen hP
    obtain ⟨depth', rfl⟩ : ∃ k, depth' = k + 1 := ⟨depth' - 1, by omega⟩
    have hleft := s.length_view hcursor
    have hbody : BodiesAgree s cursor'.view.length (body (standard.expressionWithin depth) true)
        (bodyBelow bodies fun inside => descending depth' inside cursor'.view.length) := by
      intro cursor₁ cursor₁' hcursor₁ hlen₁ hP₁
      have hleft₁ := s.length_view hcursor₁
      have hinner : (standard.expressionWithin depth).Agrees s (cursor₁'.view.length + 1)
          (descending depth' cursor₁'.view.length cursor'.view.length) :=
        ih (by omega) (by omega) (Nat.le_refl _) (by omega)
      rw [bodyBelow, below_of_lt (by omega)]
      exact agrees_body hinner true cursor₁ cursor₁' hcursor₁ (by omega) hP₁
    have hinner : (standard.expressionWithin depth).Agrees s cursor'.view.length
        (descending depth' bodies cursor'.view.length) :=
      ih (by omega) (by omega) (by omega) (Nat.le_refl _)
    have hagrees : AgreesOn s cursor'.view.length (standard.expressionWithin depth)
        (descending depth' bodies cursor'.view.length) (standardAround (body · true))
        (standardAround fun _ =>
          bodyBelow bodies fun inside => descending depth' inside cursor'.view.length) :=
      standardAround_agreesOn hinner hbody
    have hstep := hagrees.expressionStep floor cursor cursor' hcursor (by omega) hP
    rw [← standard_eq] at hstep
    rw [descending]
    beta_reduce
    rw [below_of_lt (by omega)]
    exact hstep

end

section

variable {name : String} {last : Token} {cursor : Cursor} {depth : Nat}

theorem Expr.eq_of_twins {expr expr' : Option Expr} {taken : Nat}
    (h : Twins (.spared name last) expr expr' taken) : expr' = expr := by
  cases expr <;> cases expr' <;> try exact h.elim
  · rfl
  · have hsame := h.1.same
    rw [show (Lockstep.spared name last).place = id from rfl,
      show (Lockstep.spared name last).place' = id from rfl, relocate_id, relocate_id] at hsame
    rw [hsame]

/-- A type reads the same if each type inside it may only be entered with fewer tokens. -/
theorem TypeExpr.outcome_descending (hcursor : cursor.Sound name last)
    (hdepth : cursor.view.length < depth) :
    (descending depth depth).outcome cursor = parse.outcome cursor ∧
      parse.outcome cursor ≠ .error .exhausted := by
  have hagrees : Agrees (.spared name last) (cursor.view.length + 1) anyToken
      (parseWithin cursor.budget) (descending depth depth) _ :=
    agrees_descending cursor.length_view_lt_budget hdepth hdepth
  exact hagrees.outcome_eq (fun _ _ _ h => h.1) hcursor (Nat.lt_succ_self _) trivial cursor.spare

/-- An expression reads the same if each expression inside it may only be entered with fewer tokens,
and each body inside a body. -/
theorem Grammar.outcome_descending (hcursor : cursor.Sound name last)
    (hdepth : cursor.view.length < depth) (floor : Power) :
    (descending depth cursor.view.length depth floor).outcome cursor =
        (standard.expression floor).outcome cursor ∧
      (standard.expression floor).outcome cursor ≠ .error .exhausted := by
  have hagrees : (standard.expressionWithin cursor.budget).Agrees (.spared name last)
      (cursor.view.length + 1) (descending depth cursor.view.length depth) :=
    agrees_descending cursor.length_view_lt_budget hdepth (Nat.le_refl _) hdepth
  exact (hagrees floor).outcome_eq (fun _ _ _ => Expr.eq_of_twins) hcursor (Nat.lt_succ_self _)
    trivial cursor.spare

end

/-! ## The tokens of a text -/

namespace Scanner

/-- The tokens up to the end of the text, or the first fault, if they are at most `bound`. -/
def tokensWithin : Nat → Scanner → Except Stop (List Token)
  | 0, _ => .error .exhausted
  | bound + 1, scanner =>
    match scanner.next.1.result with
    | .error fault => .error (.fault fault)
    | .ok token =>
      if token.isEnd then .ok [token] else (token :: ·) <$> tokensWithin bound scanner.next.2

/-- Each delivery before the last one is paid for by work, and some is left in the end. -/
theorem length_ahead_stream_lt {scanner : Scanner} (hbottom : 0 ∈ scanner.layout.widths) :
    scanner.stream.ahead.length < scanner.work := by
  fun_induction stream scanner with
  | case1 scanner delivery hlast =>
    have := List.length_pos_of_mem hbottom
    simp only [work, List.length_nil]
    omega
  | case2 scanner delivery hlast stream ih =>
    have := ih (bottom_next hbottom)
    have := work_next_lt hlast
    show scanner.next.2.stream.ahead.length + 1 < scanner.work
    omega

/-- A bound that there are as many deliveries before the last one as below it is enough. -/
theorem tokensWithin_eq {bound : Nat} {scanner : Scanner}
    (hbound : scanner.stream.ahead.length < bound) :
    tokensWithin bound scanner = scanner.stream.tokens.mapError .fault := by
  induction bound generalizing scanner with
  | zero => exact absurd hbound (Nat.not_lt_zero _)
  | succ bound ih =>
    rw [tokensWithin]
    by_cases hlast : scanner.next.1.isLast = true
    · rw [stream, dif_pos hlast, Token.Stream.tokens, List.nil_append, List.mapM_cons]
      cases hresult : scanner.next.1.result with
      | error fault => rfl
      | ok token =>
        rw [isLast_of_ok hresult] at hlast
        dsimp only
        rw [if_pos hlast]
        rfl
    · rw [stream, dif_neg hlast] at hbound ⊢
      rw [Token.Stream.tokens, List.cons_append, List.mapM_cons]
      cases hresult : scanner.next.1.result with
      | error fault => rfl
      | ok token =>
        rw [isLast_of_ok hresult] at hlast
        dsimp only
        rw [if_neg hlast, ih (Nat.lt_of_succ_lt_succ hbound), Token.Stream.tokens]
        cases (scanner.next.2.stream.ahead ++ [scanner.next.2.stream.last]).mapM Delivery.result <;> rfl

end Scanner

theorem length_ahead_ofText_le (source : String) (file : Option String) :
    (Token.Stream.ofText source file).ahead.length ≤ 3 * source.length := by
  have hbottom : 0 ∈ (Scanner.ofText source file).layout.widths := List.mem_cons_self
  have hlt : (Token.Stream.ofText source file).ahead.length < 3 * source.toList.length + 1 + 0 :=
    Scanner.length_ahead_stream_lt hbottom
  rw [String.length_toList] at hlt
  omega

/-! ## Whole texts -/

/-- The statements of a text, with more granted to the loops and nestings. -/
def Grammar.parseSparing (grammar : Grammar) (spare : Nat) (source : String)
    (file : Option String) : Except Stop (Block Expr) :=
  match (Cursor.ofText source file #[.fileOpened (file.getD Scanner.unknownFile)]).result with
  | .error fault => .error (.fault fault)
  | .ok cursor => grammar.program.outcome { cursor with spare }

theorem parseSparing_eq (spare : Nat) (source : String) (file : Option String) :
    Grammar.standard.parseSparing spare source file = (parse source file).result ∧
      (parse source file).result ≠ .error .exhausted := by
  rw [parse_result]
  unfold Grammar.parseSparing
  cases hstart : (Cursor.ofText source file _).result with
  | error fault => exact ⟨rfl, nofun⟩
  | ok cursor =>
    obtain ⟨hsound, -⟩ := Cursor.sound_ofText hstart
    have hagrees : Agrees (.spared (file.getD Scanner.unknownFile) cursor.endToken)
        (cursor.view.length + 1) anyToken Grammar.standard.program Grammar.standard.program _ :=
      Grammar.standard_agrees.program
    have hblock (block block' : Block Expr) (taken : Nat)
        (h : Expr.relocateBlock id block = Expr.relocateBlock id block') : block' = block := by
      rw [Expr.relocateBlock_id, Expr.relocateBlock_id] at h
      exact h.symm
    obtain ⟨heq, hends⟩ :=
      hagrees.outcome_eq hblock hsound (Nat.lt_succ_self _) trivial spare
    dsimp only
    rw [heq]
    unfold outcome at hends ⊢
    cases hrun : Grammar.standard.program cursor <;> rw [hrun] at hends <;> exact ⟨rfl, hends⟩

/-- Reading ends on every text. A rule and a type that answer have taken a token, and so has a round
that is followed by another. On the way inwards expressions, bodies and types are entered with fewer
and fewer tokens, and a text has at most three for each character and the end token. So no budget of
that size is used up, by the tokens of the text or by its statements, and a larger one changes
nothing. -/
theorem parse_ends (source : String) (file : Option String) :
    (∀ depth, Grammar.RulesConsume (Grammar.standard.expressionWithin depth) ∧
      Consumes (TypeExpr.parseWithin depth) ∧ Consumes TypeExpr.parse ∧
      Grammar.RoundsProgress (Grammar.standard.expressionWithin depth)
        (TypeExpr.parseWithin depth)) ∧
    (∀ name last (cursor : Cursor) depth, cursor.Sound name last → cursor.view.length < depth →
      (∀ floor, (Grammar.descending depth cursor.view.length depth floor).outcome cursor =
          (Grammar.standard.expression floor).outcome cursor ∧
        (Grammar.standard.expression floor).outcome cursor ≠ .error .exhausted) ∧
      (TypeExpr.descending depth depth).outcome cursor = TypeExpr.parse.outcome cursor ∧
        TypeExpr.parse.outcome cursor ≠ .error .exhausted) ∧
    (Token.Stream.ofText source file).ahead.length + 1 ≤ 3 * source.length + 1 ∧
    (∀ bound, 3 * source.length + 1 ≤ bound →
      Scanner.tokensWithin bound (.ofText source file) =
        (tokenize source file).result.mapError .fault) ∧
    (∀ spare, Grammar.standard.parseSparing spare source file = (parse source file).result) ∧
    (parse source file).result ≠ .error .exhausted := by
  have hlength := length_ahead_ofText_le source file
  refine ⟨fun depth => ⟨Grammar.rulesConsume depth, TypeExpr.consumes_parseWithin depth,
      TypeExpr.consumes_parse, Grammar.roundsProgress depth⟩,
    fun name last cursor depth hcursor hdepth => ⟨Grammar.outcome_descending hcursor hdepth,
      TypeExpr.outcome_descending hcursor hdepth⟩,
    Nat.succ_le_succ hlength, fun bound hbound => ?_,
    fun spare => (parseSparing_eq spare source file).1, (parseSparing_eq 0 source file).2⟩
  exact Scanner.tokensWithin_eq (Nat.lt_of_lt_of_le (Nat.lt_succ_of_le hlength) hbound)

end Offside
