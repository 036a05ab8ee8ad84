import Offside.Proofs.Grammar.Extending

/-!
# Starting an expression

The rules for starting an expression are tried in order (`Grammar.Choice`). For the tokens of a text
the choice comes to `Phrase.Start`: what the rules parse starts an expression
(`Grammar.start_of_choice`), and a rule is chosen wherever one starts (`Grammar.choice_of_start`).
-/

namespace Offside

open ParseM (Parses)
open Phrase

variable {file : String} {last : Token} {n : Nat} {inner : ExprParser}

namespace Grammar

/-- A list of rules that start an expression, each with the phrase that it parses. -/
abbrev Rows := List (Starter × Phrase Expr)

/-- What the first rule that accepts the token ahead parses. -/
def Choice : Rows → Phrase Expr
  | [], _, _, _ => False
  | (rule, phrase) :: rows, tokens, start, rest =>
    Starts (rule.accepts · = true) tokens ∧ phrase tokens start rest ∨
      Ahead (¬ rule.accepts · = true) tokens ∧ Choice rows tokens start rest

/-- What starts with the given phrase, extended as far as it goes and stamped. -/
def Whole (file : String) (last : Token) (floor : Power) (phrase : Phrase Expr) :
    Phrase (Option Expr) := fun tokens found rest =>
  ∃ start middle whole, phrase tokens start middle ∧ Extension file floor start middle whole rest ∧
    found = some (whole.stamp { file, line := (tokens.headD last).line })

/-- The rest of an expression from its first token on, by the first rule that accepts that. -/
def startAt (rules : List Starter) (inner : ExprParser) (floor : Power) (token : Token) :
    ParseM (Option Expr) :=
  match rules.find? (·.accepts token) with
  | none => return none
  | some rule => do
    ParseM.note (.ruleStarted rule.name token)
    let start ← rule.parse inner
    let whole ← standard.extend inner floor start
    return some (whole.stamp { file := (← get).file, line := token.line })

theorem parses_whole (h : inner.Parses file last (n + 1)) (floor : Power) {rule : Starter}
    {phrase : Phrase Expr} (hrule : Parses file last (n + 2) (rule.parse inner) phrase) :
    Parses file last (n + 2) (do
        let token ← ParseM.peek
        ParseM.note (.ruleStarted rule.name token)
        let start ← rule.parse inner
        let whole ← standard.extend inner floor start
        return some (whole.stamp { file := (← get).file, line := token.line }))
      (Whole file last floor phrase) := by
  refine (Parses.bind .peek fun token => .bind (.note _) fun _ => .bind hrule fun start =>
    .bind (parses_extend h floor start) fun whole =>
      .getFile (m := fun file => pure (some (whole.stamp { file, line := token.line }))) (.pure _)).congr
    fun _ tokens _ found rest => ?_
  constructor
  · intro h
    obtain ⟨_, _, ⟨rfl, rfl⟩, -, _, rfl, start, middle, hstart, whole, _, hextend, rfl, rfl⟩ := h
    exact ⟨start, middle, whole, hstart, hextend, rfl⟩
  · intro h
    obtain ⟨start, middle, whole, hstart, hextend, rfl⟩ := h
    exact ⟨_, tokens, ⟨rfl, rfl⟩, (), tokens, rfl, start, middle, hstart, whole, rest, hextend, rfl, rfl⟩

theorem find?_cons_eq_none_iff {rule : Starter} {rules : List Starter} {token : Token} :
    (rule :: rules).find? (·.accepts token) = none ↔
      ¬ rule.accepts token = true ∧ rules.find? (·.accepts token) = none := by
  rw [List.find?_cons]
  cases rule.accepts token <;> simp

theorem startAt_cons (rule : Starter) (rules : List Starter) (inner : ExprParser) (floor : Power) :
    startAt (rule :: rules) inner floor = fun token =>
      if rule.accepts token then do
        ParseM.note (.ruleStarted rule.name token)
        let start ← rule.parse inner
        let whole ← standard.extend inner floor start
        return some (whole.stamp { file := (← get).file, line := token.line })
      else startAt rules inner floor token := by
  funext token
  rw [startAt, List.find?_cons]
  cases rule.accepts token <;> rfl

theorem parses_startAt (h : inner.Parses file last (n + 1)) (floor : Power) (rows : Rows)
    (hlast : last.IsLast → ∀ row ∈ rows, ¬ row.1.accepts last = true)
    (hrows : ∀ row ∈ rows, Parses file last (n + 2) (row.1.parse inner) row.2) :
    Parses file last (n + 2) (do startAt (rows.map Prod.fst) inner floor (← ParseM.peek))
      fun tokens found rest => Whole file last floor (Choice rows) tokens found rest ∨
        Ahead (fun token => (rows.map Prod.fst).find? (·.accepts token) = none) tokens ∧
          found = none ∧ rest = tokens := by
  induction rows with
  | nil =>
    refine (Parses.unread (.pure none)).congr fun _ tokens _ found rest => ?_
    cases tokens <;> simp [Whole, Choice]
  | cons row rows ih =>
    obtain ⟨rule, phrase⟩ := row
    rw [List.map_cons, startAt_cons]
    refine (Parses.ifAhead (fun _ => Iff.rfl) (fun h => hlast h _ List.mem_cons_self)
      (parses_whole h floor (hrows _ List.mem_cons_self))
      (ih (fun h row hrow => hlast h row (List.mem_cons_of_mem _ hrow))
        fun row hrow => hrows row (List.mem_cons_of_mem _ hrow))).congr
      fun _ tokens _ found rest => ?_
    constructor
    · intro h
      obtain ⟨haccepts, start, middle, whole, hstart, hextend, rfl⟩
        | ⟨haccepts, ⟨start, middle, whole, hstart, hextend, rfl⟩ | ⟨hnone, rfl, rfl⟩⟩ := h
      · exact .inl ⟨start, middle, whole, .inl ⟨haccepts, hstart⟩, hextend, rfl⟩
      · exact .inl ⟨start, middle, whole, .inr ⟨haccepts, hstart⟩, hextend, rfl⟩
      · exact .inr ⟨fun token htoken => find?_cons_eq_none_iff.2
          ⟨haccepts token htoken, hnone token htoken⟩, rfl, rfl⟩
    · intro h
      obtain ⟨start, middle, whole, ⟨haccepts, hstart⟩ | ⟨haccepts, hstart⟩, hextend, rfl⟩
        | ⟨hnone, rfl, rfl⟩ := h
      · exact .inl ⟨haccepts, start, middle, whole, hstart, hextend, rfl⟩
      · exact .inr ⟨haccepts, .inl ⟨start, middle, whole, hstart, hextend, rfl⟩⟩
      · exact .inr ⟨fun token htoken => (find?_cons_eq_none_iff.1 (hnone token htoken)).1,
          .inr ⟨fun token htoken => (find?_cons_eq_none_iff.1 (hnone token htoken)).2, rfl, rfl⟩⟩

/-- The phrases of the rules that start an expression, in the order of the rules. -/
def startPhrases (file : String) (last : Token) : List (Phrase Expr) :=
  let literal : Phrase Expr := fun tokens expr rest =>
    literalOf (tokens.headD last) = some expr ∧ rest = tokens.tail
  [literal, literal, literal, literal, literal,
    fun tokens expr rest => ∃ name others body, tokens.tail = name :: others ∧
      name.kind = .constant ∧ Body file others body rest ∧
        expr = .moduleDef {} name.value body.toBlock,
    fun tokens expr rest => ∃ name others path, tokens.tail = name :: others ∧
      name.kind = .constant ∧ Many UseStep (Before (·.value ≠ "::")) others path rest ∧
        expr = .useDef {} (.module name.value :: path),
    fun tokens expr rest => ∃ path name, Scope tokens.tail (path, name) rest ∧
      expr = .reference {} ((tokens.headD last).value :: path) name,
    fun tokens expr rest => Grouped file tokens.tail expr rest,
    fun tokens expr rest => ∃ name others params tokens₁ result tokens₂ body,
      tokens.tail = name :: others ∧ name.kind = .identifier ∧ Params others params tokens₁ ∧
        Codomain tokens₁ result tokens₂ ∧ Body file tokens₂ body rest ∧
          expr = .functionDef {} name.value params result body.toBlock,
    fun tokens expr rest => ∃ condition tokens₁ whenTrue tokens₂,
      Expression file .lowest tokens.tail condition tokens₁ ∧ Body file tokens₁ whenTrue tokens₂ ∧
        ((∃ next tokens₃ whenFalse, tokens₂.dropWhile Token.isNewline = next :: tokens₃ ∧
            next.isKeyword "else" = true ∧ Body file tokens₃ whenFalse rest ∧
              expr = .conditional {} condition whenTrue.toBlock whenFalse.toBlock) ∨
          rest = tokens₂.dropWhile Token.isNewline ∧
            Ahead (¬ ·.isKeyword "else" = true) rest ∧
              expr = .conditional {} condition whenTrue.toBlock {})]

/-- The rules that start an expression with their phrases. -/
def startRows (file : String) (last : Token) : Rows :=
  standardStarters.zip (startPhrases file last)

/-- There is a phrase for each rule, so the rows can be told by their numbers. -/
@[simp] theorem length_startRows : (startRows file last).length = 11 := by
  simp [startRows, standardStarters, startPhrases]

theorem starter?_eq (file : String) (last token : Token) : standard.starter? token =
    ((startRows file last).find? (·.1.accepts token)).map Prod.fst := by
  show standardStarters.find? (·.accepts token) = _
  rw [show standardStarters = (startRows file last).map Prod.fst from rfl, List.find?_map]
  rfl

theorem exists_mem_startRows (file : String) (last : Token) {rule : Starter}
    (hrule : rule ∈ standardStarters) :
    ∃ phrase ∈ startPhrases file last, (rule, phrase) ∈ startRows file last := by
  rw [show standardStarters = (startRows file last).map Prod.fst from rfl] at hrule
  obtain ⟨⟨_, phrase⟩, hrow, rfl⟩ := List.mem_map.1 hrule
  exact ⟨phrase, (List.of_mem_zip hrow).2, hrow⟩

theorem start_of_grouped {token : Token} {tokens rest : List Token} {expr : Expr}
    (hopen : token.kind = .leftParen) (h : Grouped file tokens expr rest) :
    Start file (token :: tokens) expr rest := by
  obtain ⟨close, rfl, hclose, rfl⟩ | ⟨-, first, middle, others, hfirst, hothers, rfl⟩ := h
  · exact .unit hopen hclose
  · cases others with
    | nil =>
      cases hothers with
      | close hclose => exact .group hopen hfirst hclose
    | cons second others => exact .arguments hopen hfirst hothers

theorem start_of_choice {tokens rest : List Token} {expr : Expr}
    (h : Choice (startRows file last) tokens expr rest) : Start file tokens expr rest := by
  have hliteral {token : Token} {others : List Token}
      (hkeyword : token.kind = .keyword → token.value = "true" ∨ token.value = "false")
      (h : literalOf token = some expr) : Start file (token :: others) expr others :=
    .literal (literalOf_eq hkeyword ▸ h)
  simp only [startRows, standardStarters, startPhrases, List.zip_cons_cons, List.zip_nil_left,
    Choice, and_false, or_false] at h
  cases tokens with
  | nil => simp at h
  | cons token others =>
    simp only [starts_cons, ahead_cons, List.headD_cons, List.tail_cons] at h
    obtain ⟨hword, h, rfl⟩ | ⟨-, ⟨hkind, h, rfl⟩ | ⟨-, ⟨hkind, h, rfl⟩ | ⟨-, ⟨hkind, h, rfl⟩ | ⟨-,
      ⟨hkind, h, rfl⟩ | ⟨-, ⟨hmodule, name, others, body, rfl, hname, hbody, rfl⟩ | ⟨-,
      ⟨huse, name, others, path, rfl, hname, hpath, rfl⟩ | ⟨-, ⟨hkind, path, name, hscope, rfl⟩ | ⟨-,
      ⟨hopen, h⟩ | ⟨-, ⟨hfn, name, others, params, tokens₁, result, tokens₂, body, rfl, hname, hparams,
        hresult, hbody, rfl⟩ | ⟨-, hif, condition, tokens₁, whenTrue, tokens₂, hcondition, htrue, h⟩⟩⟩⟩⟩⟩⟩⟩⟩⟩ := h
    · exact hliteral (fun _ => by simpa using hword) h
    · exact hliteral (fun hkeyword => by simp [hkeyword] at hkind) h
    · exact hliteral (fun hkeyword => by simp [hkeyword] at hkind) h
    · exact hliteral (fun hkeyword => by simp [hkeyword] at hkind) h
    · exact hliteral (fun hkeyword => by simp [Token.isIdentifier, hkeyword] at hkind) h
    · exact .moduleDef hmodule hname hbody
    · exact .useDef huse hname hpath
    · exact .reference (beq_iff_eq.1 hkind) hscope
    · exact start_of_grouped (beq_iff_eq.1 hopen) h
    · exact .functionDef hfn hname hparams hresult hbody
    · obtain ⟨next, tokens₃, whenFalse, hskip, helse, hfalse, rfl⟩ | ⟨hrest, helse, rfl⟩ := h
      · exact .ifElse hif hcondition htrue hskip helse hfalse
      · exact .ifOnly hif hcondition htrue hrest helse

theorem choice_cons_iff {rows : Rows} {token : Token} {others rest : List Token} {expr : Expr} :
    Choice rows (token :: others) expr rest ↔ ∃ row, rows.find? (·.1.accepts token) = some row ∧
      row.2 (token :: others) expr rest := by
  induction rows with
  | nil => simp [Choice]
  | cons row rows ih =>
    obtain ⟨rule, phrase⟩ := row
    rw [Choice, List.find?_cons, ih, starts_cons, ahead_cons]
    cases rule.accepts token <;> simp

theorem word_ne_of_proper {token : Token} (h : token.Proper) (hkind : token.kind ≠ .keyword) :
    token.value ≠ "true" ∧ token.value ≠ "false" :=
  ⟨h.value_ne ("true", .keyword) hkind, h.value_ne ("false", .keyword) hkind⟩

/-- No expression starts with a closing parenthesis. -/
theorem ahead_ne_close {token : Token} {others rest : List Token} {expr : Expr}
    (hview : ∀ token' ∈ token :: others, token'.InView)
    (h : Expression file .lowest others expr rest) : Ahead (·.value ≠ ")") others := by
  intro first hfirst hclose
  have hmem : first ∈ token :: others := List.mem_cons_of_mem _ (List.mem_of_mem_head? hfirst)
  have hkind : first.kind = .rightParen := (hview first hmem).proper (")", .rightParen) (by decide) hclose
  obtain ⟨next, tokens, hskip, hnext⟩ := kind_of_expression h
  cases others with
  | nil => cases hfirst
  | cons _ others =>
    cases hfirst
    rw [List.dropWhile_cons_of_neg (by simp [Token.isNewline, hkind])] at hskip
    cases hskip
    simp [hkind] at hnext

theorem choice_of_grouped {token : Token} {others rest : List Token} {expr : Expr}
    (hview : ∀ token' ∈ token :: others, token'.InView) (hopen : token.kind = .leftParen)
    (h : Grouped file others expr rest) :
    Choice (startRows file last) (token :: others) expr rest := by
  obtain ⟨htrue, hfalse⟩ := word_ne_of_proper (hview token List.mem_cons_self).proper (by simp [hopen])
  refine choice_cons_iff.2 ⟨(startRows file last)[8], ?_, h⟩
  simp [startRows, standardStarters, startPhrases, htrue, hfalse, hopen, Token.isIdentifier,
    Token.isConstant, Token.isKeyword]

theorem choice_of_literal {token : Token} {others : List Token} {expr : Expr}
    (hproper : token.Proper) (h : token.literal? = some expr) :
    Choice (startRows file last) (token :: others) expr others := by
  rw [choice_cons_iff]
  by_cases hkeyword : token.kind = .keyword
  · have hvalue : token.value = "true" ∨ token.value = "false" := by
      simp only [Token.literal?, hkeyword] at h
      split at h
      · exact .inl ‹_›
      · split at h
        · exact .inr ‹_›
        · cases h
    refine ⟨(startRows file last)[0], ?_, (literalOf_eq fun _ => hvalue).trans h, rfl⟩
    rcases hvalue with hvalue | hvalue <;>
      simp [startRows, standardStarters, startPhrases, hvalue]
  · obtain ⟨htrue, hfalse⟩ := word_ne_of_proper hproper hkeyword
    have hphrase := (literalOf_eq fun hkind => absurd hkind hkeyword).trans h
    cases hkind : token.kind with
    | integer =>
      exact ⟨(startRows file last)[1], by simp [startRows, standardStarters, startPhrases, htrue,
        hfalse, hkind], hphrase, rfl⟩
    | float =>
      exact ⟨(startRows file last)[2], by simp [startRows, standardStarters, startPhrases, htrue,
        hfalse, hkind], hphrase, rfl⟩
    | string =>
      exact ⟨(startRows file last)[3], by simp [startRows, standardStarters, startPhrases, htrue,
        hfalse, hkind], hphrase, rfl⟩
    | identifier =>
      exact ⟨(startRows file last)[4], by simp [startRows, standardStarters, startPhrases, htrue,
        hfalse, hkind, Token.isIdentifier], hphrase, rfl⟩
    | keyword => exact absurd hkind hkeyword
    | _ => simp [Token.literal?, hkind] at h

theorem choice_of_start {tokens rest : List Token} {expr : Expr}
    (hview : ∀ token ∈ tokens, token.InView) (h : Start file tokens expr rest) :
    Choice (startRows file last) tokens expr rest := by
  cases h with
  | literal h => exact choice_of_literal (hview _ List.mem_cons_self).proper h
  | @reference token _ _ _ _ hkind hscope =>
    obtain ⟨htrue, hfalse⟩ := word_ne_of_proper (hview token List.mem_cons_self).proper (by simp [hkind])
    refine choice_cons_iff.2 ⟨(startRows file last)[7], ?_, _, _, hscope, rfl⟩
    simp [startRows, standardStarters, startPhrases, htrue, hfalse, hkind, Token.isIdentifier,
      Token.isConstant, Token.isKeyword]
  | unit hopen hclose => exact choice_of_grouped hview hopen (.inl ⟨_, rfl, hclose, rfl⟩)
  | group hopen hexpr hclose =>
    exact choice_of_grouped hview hopen
      (.inr ⟨ahead_ne_close hview hexpr, _, _, [], hexpr, .close hclose, rfl⟩)
  | arguments hopen hfirst hothers =>
    exact choice_of_grouped hview hopen
      (.inr ⟨ahead_ne_close hview hfirst, _, _, _, hfirst, hothers, rfl⟩)
  | moduleDef hmodule hname hbody =>
    obtain ⟨hkind, hvalue⟩ := Token.isKeyword_iff.1 hmodule
    refine choice_cons_iff.2 ⟨(startRows file last)[5], ?_, _, _, _, rfl, hname, hbody, rfl⟩
    simp [startRows, standardStarters, startPhrases, hkind, hvalue, Token.isIdentifier,
      Token.isKeyword]
  | useDef huse hname hpath =>
    obtain ⟨hkind, hvalue⟩ := Token.isKeyword_iff.1 huse
    refine choice_cons_iff.2 ⟨(startRows file last)[6], ?_, _, _, _, rfl, hname, hpath, rfl⟩
    simp [startRows, standardStarters, startPhrases, hkind, hvalue, Token.isIdentifier,
      Token.isKeyword]
  | functionDef hfn hname hparams hresult hbody =>
    obtain ⟨hkind, hvalue⟩ := Token.isKeyword_iff.1 hfn
    refine choice_cons_iff.2 ⟨(startRows file last)[9], ?_, _, _, _, _, _, _, _, rfl, hname, hparams,
      hresult, hbody, rfl⟩
    simp [startRows, standardStarters, startPhrases, hkind, hvalue, Token.isIdentifier,
      Token.isKeyword, Token.isConstant]
  | ifElse hif hcondition htrue hskip helse hfalse =>
    obtain ⟨hkind, hvalue⟩ := Token.isKeyword_iff.1 hif
    refine choice_cons_iff.2 ⟨(startRows file last)[10], ?_, _, _, _, _, hcondition, htrue,
      .inl ⟨_, _, _, hskip, helse, hfalse, rfl⟩⟩
    simp [startRows, standardStarters, startPhrases, hkind, hvalue, Token.isIdentifier,
      Token.isKeyword, Token.isConstant]
  | ifOnly hif hcondition htrue hrest helse =>
    obtain ⟨hkind, hvalue⟩ := Token.isKeyword_iff.1 hif
    refine choice_cons_iff.2 ⟨(startRows file last)[10], ?_, _, _, _, _, hcondition, htrue,
      .inr ⟨hrest, helse, rfl⟩⟩
    simp [startRows, standardStarters, startPhrases, hkind, hvalue, Token.isIdentifier,
      Token.isKeyword, Token.isConstant]

end Grammar

end Offside
