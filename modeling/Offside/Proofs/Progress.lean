import Offside.Proofs.Grammar.Standard

/-!
# Steps take tokens

A rule of the grammar that answers has taken a token (`Grammar.rulesConsume`), and so has every
round of a loop that is followed by another one (`Grammar.roundsProgress`). The expressions inside
are parsed to any depth, perhaps too small a one.
-/

namespace Offside

open ParseM
open Phrase (Takes)

namespace ParseM

variable {α β σ : Type}

/-- Where the parser answers it has taken a token. -/
def Consumes (m : ParseM α) : Prop :=
  ∀ (file : String) (last : Token) (cursor after : Cursor) (a : α), cursor.Sound file last →
    m cursor = .ok a after → after.view.length < cursor.view.length

theorem Consumes.of_parses {m : ParseM α}
    (h : ∀ file last, last.IsLast → ∃ p, Parses file last 0 m p ∧
      ∀ tokens a rest, p tokens a rest → Takes tokens rest) : Consumes m := by
  intro file last cursor after a hcursor hrun
  obtain ⟨p, hparses, htakes⟩ := h file last hcursor.isLast
  exact (htakes _ _ _ (hparses.sound hcursor hrun).2).length_lt

/-- Each round but the last has taken a token. -/
def Progresses (round : σ → ParseM (Round σ β)) : Prop :=
  ∀ (file : String) (last : Token) (cursor after : Cursor) (state next : σ),
    cursor.Sound file last → round state cursor = .ok (.again next) after →
      after.view.length < cursor.view.length

theorem Progresses.of_parses {round : σ → ParseM (Round σ β)}
    (h : ∀ file last state, ∃ p : Phrase (Round σ β), Parses file last 0 (round state) p ∧
      ∀ tokens next rest, p tokens (.again next) rest → rest.length < tokens.length) :
    Progresses round := by
  intro file last cursor after state next hcursor hrun
  obtain ⟨p, hparses, hlt⟩ := h file last state
  exact hlt _ _ _ (hparses.sound hcursor hrun).2

/-- A loop that collects values progresses if each of them takes a token. -/
theorem Progresses.collect {round : Array α → ParseM (Round (Array α) (Array α))}
    (h : ∀ file last, ∃ more stop, (∀ found,
      Parses file last 0 (round found) (Collects more stop found)) ∧
        ∀ tokens a rest, more tokens a rest → rest.length < tokens.length) : Progresses round := by
  refine .of_parses fun file last found => ?_
  obtain ⟨more, stop, hround, hlt⟩ := h file last
  refine ⟨_, hround found, fun tokens next rest hagain => ?_⟩
  obtain ⟨a, hmore, -⟩ := hagain
  exact hlt _ _ _ hmore

theorem Progresses.items {closes : Token → Bool} {closing message : String} {item : ParseM α}
    {p : Phrase α} (hcloses : Closes closes closing) (hitem : ∀ file last, Parses file last 0 item p)
    (htakes : ∀ tokens a rest, p tokens a rest → Takes tokens rest) :
    Progresses (itemRound closes closing message item) :=
  .collect fun file last => ⟨NextItem closing p, _, .itemRound hcloses (hitem file last),
    fun _ _ _ hnext => hnext.length_lt fun _ _ _ h => (htakes _ _ _ h).length_lt⟩

end ParseM

/-! ## Rules -/

theorem TypeExpr.consumes_parseWithin (depth : Nat) : Consumes (parseWithin depth) :=
  .of_parses fun _ _ _ => ⟨_, (parses_parseWithin depth).mono (Nat.zero_le _), fun _ _ _ h => h.takes⟩

theorem TypeExpr.consumes_parse : Consumes parse :=
  .of_parses fun _ _ _ => ⟨_, parses_parse, fun _ _ _ h => h.takes⟩

namespace Grammar

variable {file : String} {last : Token} {expr : Expr}

/-- What takes a token after the first one takes a token. -/
theorem takes_of_tail {tokens rest : List Token} (h : Takes tokens.tail rest) : Takes tokens rest := by
  cases tokens with
  | nil => exact absurd rfl h.1
  | cons token tokens => exact .of_suffix h.suffix

/-- The phrases of the rules that start an expression take a token, also where the rule does not
accept the first one. -/
theorem takes_startPhrases (hlast : last.IsLast) {tokens rest : List Token} :
    ∀ phrase ∈ startPhrases file last, phrase tokens expr rest → Takes tokens rest := by
  have hliteral : literalOf (tokens.headD last) = some expr ∧ rest = tokens.tail →
      Takes tokens rest := by
    rintro ⟨h, rfl⟩
    cases tokens with
    | nil => simp [literalOf, Token.literal?, hlast.kind_eq] at h
    | cons token tokens => exact .of_suffix List.suffix_rfl
  simp only [startPhrases, List.forall_mem_cons]
  refine ⟨hliteral, hliteral, hliteral, hliteral, hliteral, ?_, ?_, ?_, ?_, ?_, ?_, by simp⟩
  · rintro ⟨name, others, body, htail, -, hbody, -⟩
    exact takes_of_tail (htail ▸ .of_suffix hbody.takes.suffix)
  · rintro ⟨name, others, path, htail, -, hpath, -⟩
    exact takes_of_tail (htail ▸ .of_suffix (Phrase.UsePath.suffix hpath))
  · rintro ⟨path, name, hscope, -⟩
    exact takes_of_tail hscope.takes
  · rintro (⟨close, htail, -⟩ | ⟨-, first, middle, others, hfirst, hothers, -⟩)
    · exact takes_of_tail (htail ▸ .of_suffix List.suffix_rfl)
    · exact takes_of_tail (hfirst.takes.trans hothers.takes.suffix)
  · rintro ⟨name, others, params, tokens₁, result, tokens₂, body, htail, -, hparams, hresult, hbody, -⟩
    exact takes_of_tail (htail ▸
      .of_suffix (hbody.takes.suffix.trans (hresult.suffix.trans hparams.suffix)))
  · rintro ⟨condition, tokens₁, whenTrue, tokens₂, hcondition, htrue, h⟩
    have hskip : tokens₂.dropWhile Token.isNewline <:+ tokens₁ :=
      (List.dropWhile_suffix _).trans htrue.takes.suffix
    refine takes_of_tail (hcondition.takes.trans ?_)
    obtain ⟨next, tokens₃, whenFalse, heq, -, hfalse, -⟩ | ⟨rfl, -⟩ := h
    · rw [heq] at hskip
      exact hfalse.takes.suffix.trans ((List.suffix_cons _ _).trans hskip)
    · exact hskip

/-- The rules consume, with `inner` for the expressions inside. -/
structure RulesConsume (inner : ExprParser) : Prop where
  starters : ∀ rule ∈ standard.starters, Consumes (rule.parse inner)
  extenders : ∀ rule ∈ standard.extenders, ∀ left power, Consumes (rule.parse inner left power)

theorem consumes_starter (depth : Nat) {rule : Starter} (hrule : rule ∈ standardStarters) :
    Consumes (rule.parse (standard.expressionWithin depth)) := by
  refine .of_parses fun file last hlast => ?_
  obtain ⟨phrase, hphrase, hrow⟩ := exists_mem_startRows file last hrule
  exact ⟨phrase, (parses_startRows (parses_expressionWithin depth) _ hrow).mono (Nat.zero_le _),
    fun _ _ _ => takes_startPhrases hlast phrase hphrase⟩

theorem consumes_extender (depth : Nat) (left : Expr) (power : Power) :
    ∀ rule ∈ standardExtenders,
      Consumes (rule.parse (standard.expressionWithin depth) left power) := by
  have hinner (file : String) (last : Token) :
      (standard.expressionWithin depth).Parses file last (depth + 1) := parses_expressionWithin depth
  have hbinary : Consumes (binary (standard.expressionWithin depth) left power) :=
    .of_parses fun file last _ => ⟨_, (parses_binary (hinner file last) left power).mono
      (Nat.zero_le _), fun _ _ _ ⟨_, hright, _⟩ => takes_of_tail hright.takes⟩
  have hassignment : Consumes (assignment (standard.expressionWithin depth) left power) :=
    .of_parses fun file last _ => ⟨_, (parses_assignment (hinner file last) left power).mono
      (Nat.zero_le _), fun _ _ _ ⟨_, hvalue, _⟩ => takes_of_tail hvalue.takes⟩
  have hcall : Consumes (call (standard.expressionWithin depth) left power) :=
    .of_parses fun file last _ => ⟨_, (parses_call (hinner file last) left power).mono
      (Nat.zero_le _), fun _ _ _ ⟨_, htarget, _⟩ => takes_of_tail htarget.takes⟩
  simpa only [standardExtenders, operator, List.forall_mem_cons, hbinary, true_and] using
    ⟨hassignment, hcall, by simp⟩

theorem rulesConsume (depth : Nat) : RulesConsume (standard.expressionWithin depth) where
  starters _ := consumes_starter depth
  extenders rule hrule left power := consumes_extender depth left power rule hrule

/-! ## Rounds -/

/-- The loops of the grammar progress, with `inner` for the expressions inside and `innerType` for
the types. -/
structure RoundsProgress (inner : ExprParser) (innerType : ParseM TypeExpr) : Prop where
  newlines : Progresses newlineRound
  names (message : String) : Progresses (itemRound (·.value == "\x7d") "\x7d" message moduleName)
  parameters (message : String) :
    Progresses (itemRound (·.kind == .rightParen) ")" message parameter)
  entries (message : String) :
    Progresses (itemRound (·.value == ")") ")" message (TypeExpr.parseEntry innerType))
  domain (message : String) : Progresses (itemRound (·.value == ")") ")" message innerType)
  typePath : Progresses TypeExpr.pathRound
  scope : Progresses scopeRound
  usePath : Progresses useRound
  arguments (message : String) : Progresses (argumentRound inner message)
  statements : Progresses (statementRound inner)
  extensions (floor : Power) : Progresses (standard.extendRound inner floor)
  program : Progresses standard.programRound

theorem roundsProgress (depth : Nat) :
    RoundsProgress (standard.expressionWithin depth) (TypeExpr.parseWithin depth) where
  newlines := .of_parses fun _ _ state => ⟨_, .newlineRound state, fun _ _ _ h => h.length_lt⟩
  names _ := .items (closes_value "\x7d") (fun _ _ => parses_moduleName) fun _ _ _ h => h.takes
  parameters _ := .items closes_rightParen (fun _ _ => parses_parameter) fun _ _ _ h => h.takes
  entries _ := .items (closes_value ")")
    (fun _ _ => (TypeExpr.parses_parseEntry (TypeExpr.parses_parseWithin depth)).mono (Nat.zero_le _))
    fun _ _ _ h => h.takes
  domain _ := .items (closes_value ")")
    (fun _ _ => (TypeExpr.parses_parseWithin depth).mono (Nat.zero_le _)) fun _ _ _ h => h.takes
  typePath := .collect fun _ _ => ⟨_, _, TypeExpr.parses_pathRound,
    fun _ _ _ => TypeExpr.length_lt_of_pathStep⟩
  scope := .of_parses fun _ _ modules =>
    ⟨_, parses_scopeRound modules, fun _ _ _ => length_lt_of_scopeRound⟩
  usePath := .collect fun _ _ => ⟨_, _, parses_useRound, fun _ _ _ h => h.takes.length_lt⟩
  arguments message := .collect fun _ _ => ⟨_, _, fun args =>
    (parses_argumentRound (parses_expressionWithin depth) message args).mono (Nat.zero_le _),
    fun _ _ _ h => h.length_lt⟩
  statements := .collect fun _ _ => ⟨_, _, fun found =>
    (parses_statementRound (parses_expressionWithin depth) found).mono (Nat.zero_le _),
    fun _ _ _ h => h.takes.length_lt⟩
  extensions floor := .of_parses fun _ _ left => ⟨_,
    (parses_extendRound (parses_expressionWithin depth) floor left).mono (Nat.zero_le _),
    fun _ _ _ => length_lt_of_extendRound⟩
  program := .collect fun _ _ => ⟨_, _, parses_programRound, fun _ _ _ h => h.takes.length_lt⟩

end Grammar

end Offside
