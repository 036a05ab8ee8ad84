import Offside.Proofs.Grammar.Operand

/-!
# What the rules for declarations parse

One lemma for each rule of `Offside.Grammar.Declaration`. Those with a body come down to
`Grammar.parses_body`.
-/

namespace Offside.Grammar

open ParseM (Parses closes_value closes_rightParen)
open Phrase

variable {file : String} {last : Token} {n : Nat} {inner : ExprParser}

/-! ## Bodies -/

/-- Newline tokens ahead make no difference to an expression. -/
theorem expression_dropWhile_iff {floor : Power} {tokens rest : List Token} {expr : Expr} :
    Expression file floor (tokens.dropWhile Token.isNewline) expr rest ↔
      Expression file floor tokens expr rest := by
  have hidem : (tokens.dropWhile Token.isNewline).dropWhile Token.isNewline =
      tokens.dropWhile Token.isNewline := dropWhile_eq_self (ahead_dropWhile _ _)
  constructor
  · intro h
    obtain ⟨hskip, hstart, hextend⟩ := h
    exact .intro (hidem ▸ hskip) hstart hextend
  · intro h
    obtain ⟨hskip, hstart, hextend⟩ := h
    exact .intro (hidem.trans hskip) hstart hextend

/-- The classes of the tokens that start expressions. -/
theorem kind_of_start {token : Token} {tokens rest : List Token} {expr : Expr}
    (h : Start file (token :: tokens) expr rest) :
    token.kind ∈ [.keyword, .integer, .float, .string, .identifier, .constant, .leftParen] := by
  have hkeyword {text : String} (h : token.isKeyword text = true) : token.kind = .keyword :=
    (Token.isKeyword_iff.1 h).1
  cases h with
  | literal h => cases hkind : token.kind <;> simp [Token.literal?, hkind] at h ⊢
  | reference hkind => simp [hkind]
  | unit hopen | group hopen | arguments hopen => simp [hopen]
  | moduleDef h | useDef h | functionDef h | ifElse h | ifOnly h => simp [hkeyword h]

/-- The first token of an expression after newline tokens. -/
theorem kind_of_expression {floor : Power} {tokens rest : List Token} {expr : Expr}
    (h : Expression file floor tokens expr rest) :
    Starts (·.kind ∈ [.keyword, .integer, .float, .string, .identifier, .constant, .leftParen])
      (tokens.dropWhile Token.isNewline) := by
  obtain ⟨hskip, hstart, -⟩ := h
  rw [hskip, starts_cons]
  exact kind_of_start hstart

theorem parses_statementRound (h : inner.Parses file last n) (found : Array Expr) :
    Parses file last n (statementRound inner found)
      (ParseM.Collects (Expression file .lowest) EndsBlock found) := by
  refine (Parses.bind .skipNewlines fun _ =>
    .iteAtEnd (p := fun token => token.kind = .outdent ∨ token.isEnd = true) (fun _ => by simp)
      (fun hlast => by simp [Token.isEnd, hlast.kind_eq]) (.pure _)
      (.bind (h.required .lowest) fun next => .pure _)).congr fun _ tokens hview round rest => ?_
  have hahead : Ahead (fun token => token.kind = .outdent ∨ token.isEnd = true)
      (tokens.dropWhile Token.isNewline) ↔
        Ahead (·.kind = .outdent) (tokens.dropWhile Token.isNewline) := by
    have hsuffix := List.dropWhile_suffix (l := tokens) Token.isNewline
    cases hskip : tokens.dropWhile Token.isNewline with
    | nil => simp
    | cons token others =>
      have := (hview token ((hskip ▸ hsuffix).subset List.mem_cons_self)).2
      simp [this]
  constructor
  · intro h
    obtain ⟨-, _, rfl, ⟨hend, rfl, rfl⟩ | ⟨hmore, expr, _, hexpr, rfl, rfl⟩⟩ := h
    · exact ⟨⟨rfl, hahead.1 hend⟩, rfl⟩
    · exact ⟨expr, expression_dropWhile_iff.1 hexpr, rfl⟩
  · cases round with
    | again next =>
      intro h
      obtain ⟨expr, hexpr, rfl⟩ := h
      obtain ⟨token, others, hskip, hkind⟩ := kind_of_expression hexpr
      refine ⟨(), _, rfl, .inr ⟨?_, expr, rest, expression_dropWhile_iff.2 hexpr, rfl, rfl⟩⟩
      rw [hskip, starts_cons, Token.isEnd]
      revert hkind
      cases token.kind <;> simp
    | done out =>
      intro h
      obtain ⟨⟨rfl, hend⟩, rfl⟩ := h
      exact ⟨(), _, rfl, .inl ⟨hahead.2 hend, rfl, rfl⟩⟩

theorem parses_statements (h : inner.Parses file last n) :
    Parses file last n (statements inner) (Statements file) := by
  refine (Parses.bind (.collect (parses_statementRound h) (fun _ _ _ h => h.takes.length_lt) #[])
    fun found => .pure found.toList).congr fun _ tokens _ contents rest => ?_
  constructor
  · intro h
    obtain ⟨_, _, ⟨contents, hcontents, rfl⟩, rfl, rfl⟩ := h
    simpa using hcontents
  · intro h
    exact ⟨_, rest, ⟨contents, h, rfl⟩, by simp⟩

theorem parses_pastNewline (expr : Expr) :
    Parses file last n (do
        if (← ParseM.peek).isNewline then
          ParseM.advance
          return expr
        else return expr) fun tokens whole rest => rest = pastNewline tokens ∧ whole = expr := by
  refine (Parses.ite (fun _ => Iff.rfl) (fun hlast => by simp [Token.isNewline, hlast.kind_eq])
    (.bind .advance fun _ => .pure expr) (.pure expr)).congr fun _ tokens _ whole rest => ?_
  cases tokens with
  | nil => simp [pastNewline, and_comm]
  | cons token tokens => cases h : token.isNewline <;> simp [pastNewline, h, and_comm]

theorem parses_body (h : inner.Parses file last n) :
    Parses file last n (body inner true) (Body file) := by
  refine (Parses.bind .skipNewlines fun _ => .ite (p := (·.kind = .indent)) (fun _ => beq_iff_eq)
    (fun hlast => by simp [hlast.kind_eq])
    (.bind .advance fun _ => .bind (parses_statements h) fun contents => .bind .advance fun _ =>
      parses_pastNewline (.block { contents }))
    (h .lowest .missingBody)).congr fun _ tokens _ expr rest => ?_
  constructor
  · intro h
    obtain ⟨-, _, rfl, ⟨⟨token, others, hskip, hindent⟩, -, _, rfl, contents, middle, hcontents, -, _,
      rfl, rfl, rfl⟩ | ⟨-, hexpr⟩⟩ := h
    · exact .block hskip hindent (by simpa [hskip] using hcontents) rfl
    · exact .single (expression_dropWhile_iff.1 hexpr)
  · intro h
    cases h with
    | block hskip hindent hcontents hrest =>
      refine ⟨(), _, rfl, .inl ⟨by simp [hskip, hindent], (), _, rfl, _, _, ?_, (), _, rfl, hrest, rfl⟩⟩
      simpa [hskip] using hcontents
    | single hexpr =>
      refine ⟨(), _, rfl, .inr ⟨?_, expression_dropWhile_iff.2 hexpr⟩⟩
      obtain ⟨token, others, hskip, hkind⟩ := kind_of_expression hexpr
      rw [hskip, ahead_cons]
      intro h
      simp [h] at hkind

/-! ## Modules and the use of them -/

theorem length_lt_of_takeNext {tokens middle : List Token} {token : Token}
    (hlen : tokens.length < n + 2) (h : tokens.tail = token :: middle) : middle.length < n + 1 := by
  have := congrArg List.length h
  rw [List.length_tail, List.length_cons] at this
  omega

theorem parses_moduleDef (h : inner.Parses file last (n + 1)) :
    Parses file last (n + 2) (moduleDef inner) fun tokens expr rest => ∃ name others body,
      tokens.tail = name :: others ∧ name.kind = .constant ∧ Body file others body rest ∧
        expr = .moduleDef {} name.value body.toBlock := by
  refine (Parses.bindWithin (.takeNextKind .constant (by decide)) (fun name =>
    .bind (parses_body h) fun body => .pure (Expr.moduleDef {} name.value body.toBlock))
    fun tokens name middle hlen _ h => length_lt_of_takeNext hlen h.1).congr
    fun _ tokens _ expr rest => ?_
  constructor
  · intro h
    obtain ⟨name, others, ⟨htail, hname⟩, body, _, hbody, rfl, rfl⟩ := h
    exact ⟨name, others, body, htail, hname, hbody, rfl⟩
  · intro h
    obtain ⟨name, others, body, htail, hname, hbody, rfl⟩ := h
    exact ⟨name, others, ⟨htail, hname⟩, body, rest, hbody, rfl, rfl⟩

theorem parses_moduleName : Parses file last n moduleName ModuleName := by
  refine (Parses.bind (.takeKind .constant (by decide)) fun token => .pure token.value).congr
    fun _ tokens _ name rest => ?_
  constructor
  · intro h
    obtain ⟨token, _, ⟨rfl, hkind⟩, rfl, rfl⟩ := h
    exact ⟨token, rfl, hkind, rfl⟩
  · intro h
    obtain ⟨token, rfl, hkind, rfl⟩ := h
    exact ⟨token, rest, ⟨rfl, hkind⟩, rfl, rfl⟩

theorem parses_useSegment : Parses file last n useSegment Segment := by
  rw [useSegment_eq]
  refine (Parses.ite (p := (·.value = "\x7b")) (fun _ => beq_iff_eq)
    (fun hlast => by simp [hlast.value_eq])
    (.bind .advance fun _ => .bind
      (.items (closes_value "\x7d") parses_moduleName
        fun _ _ _ h => ModuleName.takes h |>.length_lt) fun names =>
        .pure (UseSegment.alternatives names))
    (.bind (.takeKind .constant (by decide)) fun name => .pure (UseSegment.module name.value))).congr
    fun _ tokens hview segment rest => ?_
  constructor
  · intro h
    obtain ⟨⟨brace, others, rfl, hbrace⟩, -, _, rfl, names, _, hnames, rfl, rfl⟩
      | ⟨-, name, _, ⟨rfl, hname⟩, rfl, rfl⟩ := h
    · exact .alternatives hbrace hnames
    · exact .module hname
  · intro h
    cases h with
    | module hname =>
      have hproper := (hview _ List.mem_cons_self).proper
      refine .inr ⟨ahead_cons.2 ?_, _, _, ⟨rfl, hname⟩, rfl, rfl⟩
      exact hproper.value_ne ("\x7b", .special) (by simp [hname])
    | alternatives hbrace hnames =>
      exact .inl ⟨starts_cons.2 hbrace, (), _, rfl, _, _, hnames, rfl, rfl⟩

theorem parses_useRound (path : Array UseSegment) :
    Parses file last n (useRound path)
      (ParseM.Collects UseStep (Before (·.value ≠ "::")) path) := by
  refine (Parses.ite (p := (·.value = "::")) (fun _ => beq_iff_eq)
    (fun hlast => by simp [hlast.value_eq])
    (.bind .advance fun _ => .bind parses_useSegment fun segment => .pure _) (.pure _)).congr
    fun _ tokens _ round rest => ?_
  constructor
  · intro h
    obtain ⟨⟨colons, others, rfl, hcolons⟩, -, _, rfl, segment, _, hsegment, rfl, rfl⟩
      | ⟨hstop, rfl, rfl⟩ := h
    · exact ⟨segment, .intro hcolons hsegment, rfl⟩
    · exact ⟨⟨hstop, rfl⟩, rfl⟩
  · cases round with
    | again next =>
      intro h
      obtain ⟨segment, ⟨hcolons, hsegment⟩, rfl⟩ := h
      exact .inl ⟨starts_cons.2 hcolons, (), _, rfl, _, _, hsegment, rfl, rfl⟩
    | done out =>
      intro h
      obtain ⟨⟨hstop, rfl⟩, rfl⟩ := h
      exact .inr ⟨hstop, rfl, rfl⟩

theorem parses_useDef :
    Parses file last n useDef fun tokens expr rest => ∃ name others path,
      tokens.tail = name :: others ∧ name.kind = .constant ∧
        Many UseStep (Before (·.value ≠ "::")) others path rest ∧
          expr = .useDef {} (.module name.value :: path) := by
  refine (Parses.bind .advance fun _ => .bind (.takeKind .constant (by decide)) fun first =>
    .bind (.collect parses_useRound (fun _ _ _ h => h.takes.length_lt) #[.module first.value])
      fun path => .pure (Expr.useDef {} path.toList)).congr fun _ tokens _ expr rest => ?_
  constructor
  · intro h
    obtain ⟨-, _, rfl, name, others, ⟨htail, hname⟩, _, _, ⟨path, hpath, rfl⟩, rfl, rfl⟩ := h
    exact ⟨name, others, path, htail, hname, hpath, by simp⟩
  · intro h
    obtain ⟨name, others, path, htail, hname, hpath, rfl⟩ := h
    exact ⟨(), _, rfl, name, others, ⟨htail, hname⟩, _, rest, ⟨path, hpath, rfl⟩, by simp⟩

/-! ## Functions -/

theorem parses_parameter : Parses file last n parameter Param := by
  refine (Parses.bind (.takeKind .identifier (by decide)) fun name =>
    .bind (.takeText ":" (by decide)) fun _ => .bind TypeExpr.parses_parse fun type =>
      .pure ({ name := name.value, type } : Parameter)).congr fun _ tokens _ param rest => ?_
  constructor
  · intro h
    obtain ⟨name, _, ⟨rfl, hname⟩, colon, _, ⟨rfl, hcolon⟩, type, _, htype, rfl, rfl⟩ := h
    exact .intro hname hcolon htype
  · intro h
    obtain ⟨hname, hcolon, htype⟩ := h
    exact ⟨_, _, ⟨rfl, hname⟩, _, _, ⟨rfl, hcolon⟩, _, _, htype, rfl, rfl⟩

theorem parses_parameters : Parses file last n parameters Params := by
  refine (Parses.ifAhead (p := (·.kind = .identifier)) (fun token => by simp [Token.isIdentifier])
    (fun hlast => by simp [hlast.kind_eq])
    (.unread (.bind parses_parameter fun param => .pure [param]))
    (.ite (p := (·.kind = .leftParen)) (fun _ => beq_iff_eq) (fun hlast => by simp [hlast.kind_eq])
      (.bind .advance fun _ =>
        .items closes_rightParen parses_parameter fun _ _ _ h => h.takes.length_lt)
      (.pure []))).congr fun _ tokens _ params rest => ?_
  constructor
  · intro h
    obtain ⟨-, param, _, hparam, rfl, rfl⟩
      | ⟨hname, ⟨⟨token, others, rfl, hopen⟩, -, _, rfl, hparams⟩ | ⟨hopen, rfl, rfl⟩⟩ := h
    · exact .single hparam
    · exact .list hopen hparams
    · exact .none fun token htoken => ⟨hname token htoken, hopen token htoken⟩
  · intro h
    cases h with
    | single hparam =>
      refine .inl ⟨?_, _, _, hparam, rfl, rfl⟩
      obtain ⟨hname, -⟩ := hparam
      exact starts_cons.2 hname
    | list hopen hparams =>
      exact .inr ⟨by simp [hopen], .inl ⟨starts_cons.2 hopen, (), _, rfl, hparams⟩⟩
    | none h =>
      exact .inr ⟨fun token htoken => (h token htoken).1,
        .inr ⟨fun token htoken => (h token htoken).2, rfl, rfl⟩⟩

theorem parses_resultType : Parses file last n resultType Codomain := by
  refine (Parses.ite (p := (·.value = "->")) (fun _ => beq_iff_eq)
    (fun hlast => by simp [hlast.value_eq])
    (.bind .advance fun _ => .map some TypeExpr.parses_parse) (.pure none)).congr
    fun _ tokens _ result rest => ?_
  constructor
  · intro h
    obtain ⟨⟨arrow, others, rfl, harrow⟩, -, _, rfl, type, htype, rfl⟩ | ⟨hstop, rfl, rfl⟩ := h
    · exact .some harrow htype
    · exact .none hstop
  · intro h
    cases h with
    | some harrow htype => exact .inl ⟨starts_cons.2 harrow, (), _, rfl, _, htype, rfl⟩
    | none hstop => exact .inr ⟨hstop, rfl, rfl⟩

theorem parses_functionDef (h : inner.Parses file last (n + 1)) :
    Parses file last (n + 2) (functionDef inner) fun tokens expr rest =>
      ∃ name others params tokens₁ result tokens₂ body,
        tokens.tail = name :: others ∧ name.kind = .identifier ∧ Params others params tokens₁ ∧
          Codomain tokens₁ result tokens₂ ∧ Body file tokens₂ body rest ∧
            expr = .functionDef {} name.value params result body.toBlock := by
  rw [functionDef_eq]
  refine (Parses.bindWithin (.takeNextKind .identifier (by decide)) (fun name =>
    .bind parses_parameters fun params => .bind parses_resultType fun result =>
      .bind (parses_body h) fun body =>
        .pure (Expr.functionDef {} name.value params result body.toBlock))
    fun tokens name middle hlen _ h => length_lt_of_takeNext hlen h.1).congr
    fun _ tokens _ expr rest => ?_
  constructor
  · intro h
    obtain ⟨name, others, ⟨htail, hname⟩, params, tokens₁, hparams, result, tokens₂, hresult, body, _,
      hbody, rfl, rfl⟩ := h
    exact ⟨name, others, params, tokens₁, result, tokens₂, body, htail, hname, hparams, hresult, hbody,
      rfl⟩
  · intro h
    obtain ⟨name, others, params, tokens₁, result, tokens₂, body, htail, hname, hparams, hresult, hbody,
      rfl⟩ := h
    exact ⟨name, others, ⟨htail, hname⟩, params, tokens₁, hparams, result, tokens₂, hresult, body, rest,
      hbody, rfl, rfl⟩

/-! ## Conditionals -/

theorem parses_conditional (h : inner.Parses file last (n + 1)) :
    Parses file last (n + 2) (conditional inner) fun tokens expr rest =>
      ∃ condition tokens₁ whenTrue tokens₂, Expression file .lowest tokens.tail condition tokens₁ ∧
        Body file tokens₁ whenTrue tokens₂ ∧
          ((∃ next tokens₃ whenFalse, tokens₂.dropWhile Token.isNewline = next :: tokens₃ ∧
              next.isKeyword "else" = true ∧ Body file tokens₃ whenFalse rest ∧
                expr = .conditional {} condition whenTrue.toBlock whenFalse.toBlock) ∨
            rest = tokens₂.dropWhile Token.isNewline ∧
              Ahead (¬ ·.isKeyword "else" = true) rest ∧
                expr = .conditional {} condition whenTrue.toBlock {}) := by
  refine (Parses.next (.bind (h.required .lowest) fun condition => .bind (parses_body h) fun whenTrue =>
    .bind .skipNewlines fun _ => .ite (p := (·.isKeyword "else" = true)) (fun _ => Iff.rfl)
      (fun hlast => by simp [Token.isKeyword, hlast.kind_eq])
      (.bind .advance fun _ => .bind (parses_body h) fun whenFalse =>
        .pure (Expr.conditional {} condition whenTrue.toBlock whenFalse.toBlock))
      (.pure (Expr.conditional {} condition whenTrue.toBlock {})))).congr fun _ tokens _ expr rest => ?_
  constructor
  · intro h
    obtain ⟨condition, tokens₁, hcondition, whenTrue, tokens₂, htrue, -, _, rfl,
      ⟨⟨next, tokens₃, hskip, helse⟩, -, _, rfl, whenFalse, _, hfalse, rfl, rfl⟩
      | ⟨helse, rfl, rfl⟩⟩ := h
    · refine ⟨condition, tokens₁, whenTrue, tokens₂, hcondition, htrue,
        .inl ⟨next, tokens₃, whenFalse, hskip, helse, ?_, rfl⟩⟩
      simpa [hskip] using hfalse
    · exact ⟨condition, tokens₁, whenTrue, tokens₂, hcondition, htrue, .inr ⟨rfl, helse, rfl⟩⟩
  · intro h
    obtain ⟨condition, tokens₁, whenTrue, tokens₂, hcondition, htrue,
      ⟨next, tokens₃, whenFalse, hskip, helse, hfalse, rfl⟩ | ⟨rfl, helse, rfl⟩⟩ := h
    · refine ⟨condition, tokens₁, hcondition, whenTrue, tokens₂, htrue, (), _, rfl,
        .inl ⟨by simp [hskip, helse], (), _, rfl, whenFalse, rest, ?_, rfl, rfl⟩⟩
      simpa [hskip] using hfalse
    · exact ⟨condition, tokens₁, hcondition, whenTrue, tokens₂, htrue, (), _, rfl,
        .inr ⟨helse, rfl, rfl⟩⟩

end Offside.Grammar
