import Offside.Program
import Offside.Proofs.Grammar.Starting

/-!
# What the grammar of the language parses

What starts an expression is extended and stamped, so `Grammar.standard.expression` parses exactly
`Phrase.Expression` (`Grammar.parses_expression`), and the whole grammar parses statements up to the
end of the text (`Grammar.parses_program`).
-/

namespace Offside

open ParseM (Parses)
open Phrase

variable {file : String} {last : Token} {n : Nat} {inner : ExprParser}

namespace Grammar

/-- An expression, or nothing but newline tokens before a token that starts none. -/
def Optional (file : String) (floor : Power) : Phrase (Option Expr)
  | tokens, some expr, rest => Expression file floor tokens expr rest
  | tokens, none, rest => rest = tokens.dropWhile Token.isNewline ∧
    Ahead (standard.starter? · = none) rest

theorem not_accepts_last (h : last.IsLast) :
    ∀ row ∈ startRows file last, ¬ row.1.accepts last = true := by
  simp [startRows, standardStarters, startPhrases, h.kind_eq, h.value_eq, Token.isIdentifier,
    Token.isKeyword, Token.isConstant]

theorem parses_startRows (h : inner.Parses file last (n + 1)) :
    ∀ row ∈ startRows file last, Parses file last (n + 2) (row.1.parse inner) row.2 := by
  simp only [startRows, standardStarters, startPhrases, List.zip_cons_cons, List.zip_nil_left,
    List.forall_mem_cons]
  exact ⟨parses_primary, parses_primary, parses_primary, parses_primary, parses_primary,
    parses_moduleDef h, parses_useDef, parses_scopedReference, parses_grouping h,
    parses_functionDef h, parses_conditional h, by simp⟩

theorem parses_expressionStep (h : inner.Parses file last (n + 1)) (floor : Power) :
    Parses file last (n + 2) (standard.expressionStep inner floor) (Optional file floor) := by
  refine (Parses.bind .skipNewlines fun _ => parses_startAt h floor (startRows file last)
    not_accepts_last (parses_startRows h)).congr fun _ tokens hview found rest => ?_
  have hview' : ∀ token ∈ tokens.dropWhile Token.isNewline, token.InView :=
    fun token hmem => hview token ((List.dropWhile_suffix _).subset hmem)
  constructor
  · intro h
    obtain ⟨-, _, rfl, ⟨start, middle, whole, hstart, hextend, rfl⟩ | ⟨hnone, rfl, rfl⟩⟩ := h
    · have hstart := start_of_choice hstart
      obtain ⟨hnonempty, -⟩ := hstart.takes
      obtain ⟨token, others, hskip⟩ := List.exists_cons_of_ne_nil hnonempty
      rw [hskip] at hstart ⊢
      exact .intro hskip hstart hextend
    · exact ⟨rfl, hnone⟩
  · cases found with
    | some expr =>
      intro h
      obtain ⟨hskip, hstart, hextend⟩ := h
      rw [hskip] at hview'
      refine ⟨(), _, rfl, .inl ⟨_, _, _, choice_of_start (hskip ▸ hview') (hskip ▸ hstart), hextend, ?_⟩⟩
      rw [hskip, List.headD_cons]
    | none =>
      intro h
      obtain ⟨rfl, hnone⟩ := h
      exact ⟨(), _, rfl, .inr ⟨hnone, rfl, rfl⟩⟩

theorem orFail_of_optional {m : ParseM (Option Expr)} {floor : Power} (cause : Fault.Cause)
    (h : Parses file last n m (Optional file floor)) :
    Parses file last n (do
      match ← m with
      | some expr => return expr
      | none => ParseM.fail cause) (Expression file floor) := by
  refine (Parses.bind (q := fun found tokens expr rest => found = some expr ∧ rest = tokens) h
    fun found => ?_).congr fun _ tokens _ expr rest => ?_
  · cases found with
    | some expr => exact (Parses.pure expr).congr fun _ _ _ _ _ => by simp [eq_comm]
    | none => exact (Parses.fail cause).congr fun _ _ _ _ _ => by simp
  · constructor
    · intro h
      obtain ⟨_, _, hexpr, rfl, rfl⟩ := h
      exact hexpr
    · intro hexpr
      exact ⟨some expr, rest, hexpr, rfl, rfl⟩

/-- Each level of nesting takes a token, so a depth copes with as many tokens. -/
theorem parses_expressionWithin (depth : Nat) :
    (standard.expressionWithin depth).Parses file last (depth + 1) := by
  induction depth with
  | zero =>
    intro floor cause
    constructor
    · intro _ _ _ _ hrun
      cases hrun
    · intro _ _ _ _ _ hlen hexpr
      have := hexpr.takes.length_lt
      omega
  | succ depth ih => exact fun floor cause => orFail_of_optional cause (parses_expressionStep ih floor)

theorem parses_expression (floor : Power) :
    Parses file last n (standard.expression floor) (Optional file floor) := by
  refine .getBudget (m := fun bound => standard.expressionWithin bound floor) fun bound => ?_
  cases bound with
  | zero =>
    constructor
    · intro _ _ _ _ hrun
      cases hrun
    · intro _ _ _ _ _ hlen
      exact absurd hlen (Nat.not_lt_zero _)
  | succ depth => exact (parses_expressionStep (parses_expressionWithin depth) floor).mono (by omega)

/-- The end of a text. -/
theorem parses_end (contents : List Expr) (event : Event) :
    Parses file last n (do
        let token ← ParseM.peek
        unless token.isEnd do ParseM.fail (.trailingInput (toString token))
        ParseM.note event
        return ({ contents } : Block Expr)) fun tokens block rest =>
      tokens = [] ∧ block = { contents } ∧ rest = [] := by
  refine Parses.look fun token => ?_
  cases hend : token.isEnd with
  | true =>
    refine ⟨_, .bind (.note event) fun _ => .pure ({ contents } : Block Expr),
      fun _ tokens hview block rest hhead => ?_⟩
    have hnil : tokens = [] := by
      cases tokens with
      | nil => rfl
      | cons first others =>
        rw [List.headD_cons] at hhead
        have := (hview first List.mem_cons_self).2
        rw [hhead, hend] at this
        cases this
    subst hnil
    constructor
    · intro h
      obtain ⟨-, _, rfl, rfl, rfl⟩ := h
      exact ⟨rfl, rfl, rfl⟩
    · intro h
      obtain ⟨-, rfl, rfl⟩ := h
      exact ⟨(), [], rfl, rfl, rfl⟩
  | false =>
    refine ⟨_, .bind (.fail (.trailingInput (toString token))) fun _ => .bind (.note event) fun _ =>
      .pure ({ contents } : Block Expr), fun hlast tokens _ block rest hhead => ?_⟩
    constructor
    · intro h
      obtain ⟨-, _, h, -⟩ := h
      exact h.elim
    · intro h
      obtain ⟨rfl, -⟩ := h
      rw [← hhead, List.headD_nil, Token.isEnd, hlast.kind_eq] at hend
      cases hend

/-- Nothing but newline tokens, before a token that starts no expression. -/
def AtStop (tokens rest : List Token) : Prop :=
  rest = tokens.dropWhile Token.isNewline ∧ Ahead (standard.starter? · = none) rest

theorem parses_programRound (contents : Array Expr) :
    Parses file last n (standard.programRound contents)
      (ParseM.Collects (Expression file .lowest) AtStop contents) := by
  let next : Option Expr → Round (Array Expr) (Array Expr) := fun found =>
    match found with
    | some expr => .again (contents.push expr)
    | none => .done contents
  refine (Parses.bind (q := fun found tokens round rest => round = next found ∧ rest = tokens)
    (parses_expression .lowest) fun found => ?_).congr fun _ tokens _ round rest => ?_
  · cases found with
    | some expr => exact .pure _
    | none => exact .pure _
  · constructor
    · intro h
      obtain ⟨found, _, hfound, rfl, rfl⟩ := h
      cases found with
      | some expr => exact ⟨expr, hfound, rfl⟩
      | none => exact ⟨hfound, rfl⟩
    · cases round with
      | again contents' =>
        intro h
        obtain ⟨expr, hexpr, rfl⟩ := h
        exact ⟨some expr, rest, hexpr, rfl, rfl⟩
      | done out =>
        intro h
        obtain ⟨hend, rfl⟩ := h
        exact ⟨none, rest, hend, rfl, rfl⟩

theorem parses_program :
    Parses file last n standard.program fun tokens block rest =>
      Program file tokens block.contents rest ∧ block.origin = {} := by
  have hmany {tokens rest : List Token} {contents : List Expr} :
      Many (Expression file .lowest) AtStop tokens contents rest ∧ rest = [] ↔
        Program file tokens contents rest := by
    constructor
    · intro h
      obtain ⟨hmany, hnil⟩ := h
      induction hmany with
      | stop h => exact .stop ⟨h.1.symm, hnil⟩
      | more h _ ih => exact .more h (ih hnil)
    · intro h
      induction h with
      | stop h =>
        obtain ⟨hskip, rfl⟩ := h
        exact ⟨.stop ⟨hskip.symm, ahead_nil⟩, rfl⟩
      | more h _ ih => exact ⟨.more h ih.1, ih.2⟩
  refine (Parses.bind (.collect parses_programRound (fun _ _ _ h => h.takes.length_lt) #[])
    fun contents => parses_end contents.toList (.fileParsed contents.size)).congr fun _ tokens _ block rest => ?_
  rw [← hmany]
  constructor
  · intro h
    obtain ⟨_, _, ⟨contents, hcontents, rfl⟩, rfl, rfl, rfl⟩ := h
    exact ⟨by simpa using hcontents, rfl⟩
  · intro h
    obtain ⟨⟨hcontents, rfl⟩, horigin⟩ := h
    obtain ⟨origin, contents⟩ := block
    cases horigin
    exact ⟨_, [], ⟨contents, hcontents, rfl⟩, rfl, by simp⟩

end Grammar

end Offside
