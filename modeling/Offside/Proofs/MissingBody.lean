import Offside.Proofs.Cursor.Fails
import Offside.Proofs.Started

/-!
# A missing body

The rules for modules, functions and conditionals want a body behind their headers
(`Phrase.Header`). Where no block opens there and no expression starts, the text is rejected at that
place (`missingBody_of_parse`). That is so where the next line is indented less, or where there is
none; a line that is indented like the header is taken for the body, if an expression starts it
(`body_on_next_line`), and the node in the tree has nothing else for its body.

The faults of the grammar are not handled on the way out. So a rule that is noted as started, and
fails, settles how the text is read; the run is watched for it.
-/

namespace Offside

open ParseM (Parses bind_of_ok bind_of_error)
open Phrase (Ahead Params Codomain Expression Start Body)

/-- The bodies of a node, in the order of the text. -/
def Expr.bodies : Expr → List (Block Expr)
  | moduleDef _ _ body | functionDef _ _ _ _ body => [body]
  | conditional _ _ whenTrue whenFalse => [whenTrue, whenFalse]
  | _ => []

@[simp] theorem Expr.bodies_stamp (origin : Origin) (expr : Expr) :
    (expr.stamp origin).bodies = expr.bodies := by
  cases expr <;> rfl

/-! ## Headers -/

namespace Phrase

/-- From a keyword up to the body that it wants. -/
inductive Header (file : String) : List Token → List Token → Prop
  | moduleDef {token name : Token} {rest : List Token} (hmodule : token.isKeyword "module" = true)
    (hname : name.kind = .constant) : Header file (token :: name :: rest) rest
  | functionDef {token name : Token} {tokens middle rest : List Token} {params : List Parameter}
    {result : Option TypeExpr} (hfn : token.isKeyword "fn" = true) (hname : name.kind = .identifier)
    (hparams : Params tokens params middle) (hresult : Codomain middle result rest) :
    Header file (token :: name :: tokens) rest
  | condition {token : Token} {tokens rest : List Token} {condition : Expr}
    (hif : token.isKeyword "if" = true)
    (hcondition : Expression file .lowest tokens condition rest) :
    Header file (token :: tokens) rest
  | alternative {token next : Token} {tokens tokens₁ tokens₂ rest : List Token}
    {condition whenTrue : Expr} (hif : token.isKeyword "if" = true)
    (hcondition : Expression file .lowest tokens condition tokens₁)
    (htrue : Body file tokens₁ whenTrue tokens₂)
    (hskip : tokens₂.dropWhile Token.isNewline = next :: rest)
    (helse : next.isKeyword "else" = true) : Header file (token :: tokens) rest

theorem Header.suffix {file : String} {tokens rest : List Token} (h : Header file tokens rest) :
    rest <:+ tokens := by
  cases h with
  | moduleDef => exact (List.suffix_cons _ _).trans (List.suffix_cons _ _)
  | functionDef _ _ hparams hresult =>
    exact (hresult.suffix.trans hparams.suffix).trans
      ((List.suffix_cons _ _).trans (List.suffix_cons _ _))
  | condition _ hcondition => exact hcondition.takes.suffix.trans (List.suffix_cons _ _)
  | alternative _ hcondition htrue hskip =>
    have hnext := (List.suffix_cons _ _).trans (hskip ▸ List.dropWhile_suffix Token.isNewline)
    exact (hnext.trans (htrue.takes.suffix.trans hcondition.takes.suffix)).trans
      (List.suffix_cons _ _)

/-- What a conditional has for its bodies: the one behind its condition, and the one behind the
`else` that is ahead there. -/
theorem Start.of_if {file : String} {token : Token} {tokens rest : List Token} {expr : Expr}
    (h : Start file (token :: tokens) expr rest) (hif : token.isKeyword "if" = true) :
    ∃ condition whenTrue tokens₁ tokens₂ whenFalse,
      Expression file .lowest tokens condition tokens₁ ∧ Body file tokens₁ whenTrue tokens₂ ∧
        expr.bodies = [whenTrue.toBlock, whenFalse] ∧
          ∀ next tokens₃, tokens₂.dropWhile Token.isNewline = next :: tokens₃ →
            next.isKeyword "else" = true →
              ∃ body, Body file tokens₃ body rest ∧ whenFalse = body.toBlock := by
  cases h with
  | ifElse _ hcondition htrue hskip _ hfalse =>
    refine ⟨_, _, _, _, _, hcondition, htrue, rfl, fun next tokens₃ hskip' _ => ?_⟩
    cases hskip.symm.trans hskip'
    exact ⟨_, hfalse, rfl⟩
  | ifOnly _ hcondition htrue hrest helse =>
    refine ⟨_, _, _, _, _, hcondition, htrue, rfl, fun next tokens₃ hskip helse' => ?_⟩
    rw [hrest, hskip, ahead_cons] at helse
    exact absurd helse' helse
  | _ => simp_all [Token.isKeyword_iff, Token.literal?]

/-- Neither a block nor an expression begins here, newline tokens apart. -/
def NoBody (tokens : List Token) : Prop :=
  Ahead (fun token => token.kind ≠ .indent ∧ Grammar.standard.starter? token = none)
    (tokens.dropWhile Token.isNewline)

end Phrase

open Phrase (Header NoBody)

/-- The fault for a body that is missing, at the token where it should begin. -/
def missingBody (file : String) (token : Token) : Stop :=
  .fault ⟨.missingBody, .ofLength file token.line token.column token.width⟩

namespace Grammar

variable {file : String} {last : Token} {depth : Nat} {tokens rest : List Token}

open ParseM (Fails)

theorem fails_body (h : NoBody tokens) (hlast : last.IsLast) (hlen : tokens.length < depth) :
    Fails file last tokens (body (standard.expressionWithin depth) true)
      (missingBody file ((tokens.dropWhile Token.isNewline).headD last)) := by
  have hsuffix := List.dropWhile_suffix (l := tokens) Token.isNewline
  have hahead := Phrase.ahead_dropWhile Token.isNewline tokens
  refine .bind (a := ()) .skipNewlines hlen rfl (.look ?_)
  unfold NoBody at h
  generalize tokens.dropWhile Token.isNewline = rest at h hsuffix hahead ⊢
  have hindent : (rest.headD last).kind ≠ .indent := by
    cases rest with
    | nil => simp [hlast.kind_eq]
    | cons token others => exact (Phrase.ahead_cons.1 h).1
  rw [if_neg (by simpa using hindent)]
  obtain ⟨depth, rfl⟩ : ∃ inner, depth = inner + 1 := ⟨depth - 1, by omega⟩
  have hnone : Optional file .lowest rest none rest :=
    ⟨(Phrase.dropWhile_eq_self hahead).symm, fun token htoken => (h token htoken).2⟩
  have hinner : (standard.expressionWithin depth).Parses file last (depth + 1) :=
    parses_expressionWithin depth
  refine .bind (a := none) (parses_expressionStep hinner .lowest) ?_ hnone ?_
  · have := hsuffix.length_le
    omega
  · exact .fail .missingBody

/-- What closes a block starts no expression. -/
theorem starter?_outdent {token : Token} (hproper : token.Proper) (h : token.kind = .outdent) :
    standard.starter? token = none := by
  obtain ⟨htrue, hfalse⟩ := word_ne_of_proper hproper (by simp [h])
  simp [starter?, standard, standardStarters, h, htrue, hfalse, Token.isIdentifier, Token.isKeyword,
    Token.isConstant]

/-- The rules with bodies are chosen by their keywords. -/
theorem starter?_keyword {token : Token} {rule : Starter}
    (h : standard.starter? token = some rule) :
    (token.isKeyword "module" = true → rule.parse = moduleDef) ∧
      (token.isKeyword "fn" = true → rule.parse = functionDef) ∧
        (token.isKeyword "if" = true → rule.parse = conditional) := by
  obtain ⟨kind, value, line, column⟩ := token
  refine ⟨fun hkeyword => ?_, fun hkeyword => ?_, fun hkeyword => ?_⟩ <;>
    obtain ⟨rfl, rfl⟩ := Token.isKeyword_iff.1 hkeyword
  · exact congrArg Starter.parse (Option.some.inj h).symm
  · exact congrArg Starter.parse (Option.some.inj h).symm
  · exact congrArg Starter.parse (Option.some.inj h).symm

/-- The rule for the keyword of a header gets through the header, and stops at the body. -/
theorem fails_of_header {token : Token} {rule : Starter}
    (hheader : Header file (token :: tokens) rest)
    (hrule : standard.starter? token = some rule) (h : NoBody rest) (hlast : last.IsLast)
    (hlen : (token :: tokens).length < depth + 2) :
    Fails file last (token :: tokens) (rule.parse (standard.expressionWithin depth))
      (missingBody file ((rest.dropWhile Token.isNewline).headD last)) := by
  have hbody {rest' : List Token} (h : NoBody rest') (hlen : rest'.length < depth) :
      Fails file last rest' (body (standard.expressionWithin depth) true)
        (missingBody file ((rest'.dropWhile Token.isNewline).headD last)) := fails_body h hlast hlen
  have hinner : (standard.expressionWithin depth).Parses file last (depth + 1) :=
    parses_expressionWithin depth
  obtain ⟨hmodule', hfn', hif'⟩ := starter?_keyword hrule
  rw [List.length_cons] at hlen
  cases hheader with
  | moduleDef hmodule hname =>
    rw [hmodule' hmodule]
    exact .bind (.takeNextKind .constant (by decide)) (Nat.lt_succ_self _) ⟨rfl, hname⟩
      (.first (hbody h (by rw [List.length_cons] at hlen; omega)))
  | functionDef hfn hname hparams hresult =>
    have hsuffix := (hresult.suffix.trans hparams.suffix).length_le
    rw [List.length_cons] at hlen
    rw [hfn' hfn, functionDef_eq]
    exact .bind (.takeNextKind .identifier (by decide)) (Nat.lt_succ_self _) ⟨rfl, hname⟩
      (.bind parses_parameters (Nat.lt_succ_self _) hparams
        (.bind parses_resultType (Nat.lt_succ_self _) hresult (.first (hbody h (by omega)))))
  | condition hif hcondition =>
    have hless := hcondition.takes.length_lt
    rw [hif' hif]
    exact .next (.bind (hinner.required .lowest) (by omega) hcondition
      (.first (hbody h (by omega))))
  | alternative hif hcondition htrue hskip helse =>
    have hless := hcondition.takes.length_lt
    have hless' := htrue.takes.length_lt
    have hrest := (hskip ▸ List.dropWhile_suffix Token.isNewline).length_le
    rw [List.length_cons] at hrest
    rw [hif' hif]
    refine .next (.bind (hinner.required .lowest) (by omega) hcondition
      (.bind (parses_body hinner) (by omega) htrue
        (.bind (a := ()) .skipNewlines (Nat.lt_succ_self _) hskip.symm (.look ?_))))
    rw [List.headD_cons, if_pos helse]
    exact .next (.first (hbody h (by omega)))

end Grammar

/-! ## Whole texts -/

variable {source : String} {name : Option String} {file : String} {last token : Token}
  {tokens before after rest rest' : List Token}

/-- Where a rule has read a header, what it makes has what follows for a body. -/
theorem Phrase.Header.exists_body {expr : Expr}
    (htokens : (tokenize source name).result = .ok (tokens ++ [last]))
    (hsuffix : token :: after <:+ tokens)
    (hheader : Header (name.getD Scanner.unknownFile) (token :: after) rest)
    (hstart : Start (name.getD Scanner.unknownFile) (token :: after) expr rest') :
    ∃ body middle, Body (name.getD Scanner.unknownFile) rest body middle ∧
      body.toBlock ∈ expr.bodies := by
  have hinner : (Grammar.standard.expressionWithin tokens.length).Parses
      (name.getD Scanner.unknownFile) last (tokens.length + 1) :=
    Grammar.parses_expressionWithin tokens.length
  cases hheader with
  | moduleDef hmodule hname =>
    -- What else starts an expression has another token ahead.
    cases hstart with
    | moduleDef _ _ hbody => exact ⟨_, _, hbody, List.mem_singleton_self _⟩
    | _ => simp_all [Token.isKeyword_iff, Token.literal?]
  | functionDef hfn hname hparams hresult =>
    cases hstart with
    | functionDef _ _ hparams' hresult' hbody =>
      have hsuffix := ((List.suffix_cons _ _).trans (List.suffix_cons _ _)).trans hsuffix
      obtain ⟨-, rfl⟩ :=
        unique_of_tokenize htokens Grammar.parses_parameters hsuffix hparams hparams'
      obtain ⟨-, rfl⟩ := unique_of_tokenize htokens Grammar.parses_resultType
        (hparams.suffix.trans hsuffix) hresult hresult'
      exact ⟨_, _, hbody, List.mem_singleton_self _⟩
    | _ => simp_all [Token.isKeyword_iff, Token.literal?]
  | condition hif hcondition =>
    obtain ⟨_, body, _, _, _, hcondition', hbody, hbodies, -⟩ := hstart.of_if hif
    obtain ⟨-, rfl⟩ := unique_of_tokenize htokens (hinner.required .lowest)
      ((List.suffix_cons _ _).trans hsuffix) hcondition hcondition'
    exact ⟨body, _, hbody, by simp [hbodies]⟩
  | alternative hif hcondition htrue hskip helse =>
    have hsuffix := (List.suffix_cons _ _).trans hsuffix
    obtain ⟨_, _, _, _, _, hcondition', htrue', hbodies, hfalse⟩ := hstart.of_if hif
    obtain ⟨-, rfl⟩ :=
      unique_of_tokenize htokens (hinner.required .lowest) hsuffix hcondition hcondition'
    obtain ⟨-, rfl⟩ := unique_of_tokenize htokens (Grammar.parses_body hinner)
      (hcondition.takes.suffix.trans hsuffix) htrue htrue'
    obtain ⟨body, hbody, heq⟩ := hfalse _ _ hskip helse
    exact ⟨body, _, hbody, by simp [hbodies, heq]⟩

/-- A header begins with a keyword. -/
theorem Phrase.Header.kind_eq (h : Header file (token :: tokens) rest) :
    token.kind = .keyword := by
  cases h with
  | moduleDef h | functionDef h | condition h | alternative h => exact (Token.isKeyword_iff.1 h).1

/-- A run that is watched for a rule which is going to fail. -/
def Watch.doomed (file : String) (last : Token) (tokens : List Token) (token : Token)
    (stop : Stop) : Watch where
  file := file
  last := last
  tokens := tokens
  notes event := ∀ rule, event ≠ .ruleStarted rule token
  stops := (· = stop)

theorem Watch.admits_doomed (htokens : (tokenize source name).result = .ok (tokens ++ [last]))
    (hplace : tokens = before ++ token :: after) (hheader : Header file (token :: after) rest)
    (h : NoBody rest) : (Watch.doomed file last tokens token
      (missingBody file ((rest.dropWhile Token.isNewline).headD last))).Admits where
  plain := by
    rintro event hplain rule rfl
    exact hplain trivial
  extended _ _ _ := nofun
  started {rule' token' rest'} hsuffix hrule := by
    by_cases htoken : token' = token
    · subst htoken
      obtain ⟨before', hplace'⟩ := hsuffix
      have hplain : token'.kind.isSynthetic = false := by
        rw [hheader.kind_eq]
        rfl
      obtain ⟨-, rfl⟩ := Token.eq_of_place htokens hplain hplace hplace'.symm
      refine .inr fun depth cursor hcursor hclean hview hlen => ?_
      obtain ⟨final, hrun⟩ := Grammar.fails_of_header hheader hrule h hcursor.isLast (hview ▸ hlen)
        cursor hcursor hclean hview
      exact ⟨_, final, hrun, rfl⟩
    · refine .inl fun rule heq => htoken ?_
      cases heq
      rfl

end Offside
