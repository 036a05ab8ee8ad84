import Offside.Proofs.Grammar.Watched
import Offside.Proofs.Scanner.Neighbours

/-!
# Line breaks between an operand and what extends it

A rule that extends an expression looks at the token behind it. `Phrase.Seam` says where that token
may stand: on the line on which the expression ends, or behind the token that closes a block, or
behind the line breaks that an `if` skips in search of its `else`. Every rule that is noted to
extend an expression does so at a seam (`seam_of_ruleExtended`, `seam_of_parse`). In the last two
cases the token is the first one of its line (`extended_after_block`).
-/

namespace Offside

namespace Phrase

/-! ## What stands before a token -/

/-- In the whole, a token that satisfies `p` stands right before the rest. -/
def After (p : Token → Prop) (whole rest : List Token) : Prop :=
  ∃ early token, whole = early ++ token :: rest ∧ p token

variable {p q : Token → Prop} {file : String} {token : Token}
  {tokens whole whole' rest : List Token}

theorem After.head (h : p token) : After p (token :: rest) rest :=
  ⟨[], token, rfl, h⟩

theorem After.mono (h : After p whole rest) (hsuffix : whole <:+ whole') : After p whole' rest := by
  obtain ⟨early, token, rfl, hp⟩ := h
  obtain ⟨front, rfl⟩ := hsuffix
  exact ⟨front ++ early, token, (List.append_assoc ..).symm, hp⟩

theorem After.imp (h : After p whole rest) (hpq : ∀ token ∈ whole, p token → q token) :
    After q whole rest := by
  obtain ⟨early, token, rfl, hp⟩ := h
  exact ⟨early, token, rfl, hpq token (by simp) hp⟩

theorem after_dropWhile (p : Token → Bool) (tokens : List Token) :
    tokens.dropWhile p = tokens ∨ After (p · = true) tokens (tokens.dropWhile p) := by
  induction tokens with
  | nil => exact .inl rfl
  | cons token tokens ih =>
    rw [List.dropWhile_cons]
    split
    · rename_i htoken
      refine .inr ?_
      obtain heq | hafter := ih
      · rw [heq]
        exact .head htoken
      · exact hafter.mono (List.suffix_cons _ _)
    · exact .inl rfl

theorem Starts.ne_nil (h : Starts p tokens) : tokens ≠ [] := by
  obtain ⟨token, others, rfl, -⟩ := h
  exact List.cons_ne_nil _ _

/-- The token is no white space. -/
def Word (token : Token) : Prop :=
  token.kind.isSynthetic = false

theorem word_of_kind {kind : Token.Kind} (h : token.kind = kind)
    (hword : kind.isSynthetic = false) : Word token :=
  (congrArg Token.Kind.isSynthetic h).trans hword

/-- A mark is a word. -/
theorem word_of_mark (mark : String × Token.Kind) (hproper : token.Proper)
    (hvalue : token.value = mark.1) (hword : mark.2.isSynthetic = false)
    (hmark : mark ∈ Token.marks := by decide) : Word token :=
  word_of_kind (hproper mark hmark hvalue) hword

/-- Tokens as they stand in a text. -/
structure Regular (tokens : List Token) : Prop where
  proper : Proper tokens
  neighbours : tokens.IsChain Token.Neighbours

theorem Regular.mono (h : Regular tokens) (hsuffix : rest <:+ tokens) : Regular rest :=
  ⟨h.proper.mono hsuffix, h.neighbours.suffix hsuffix⟩

theorem Regular.neighbours_head {next : Token} (h : Regular (token :: next :: rest)) :
    token.Neighbours next :=
  (List.isChain_cons_cons.1 h.neighbours).1

/-! ## Where an operand ends -/

/-- In the whole, an operand ends before the rest, and a token could extend it there. -/
inductive Seam (file : String) (whole rest : List Token) : Prop
  /-- The next token stands on the line of the last one. -/
  | line (h : After (fun token => Word token ∧ Ahead (·.line = token.line) rest) whole rest)
  /-- The operand ends with a block. -/
  | block (h : After (·.kind = .outdent) whole rest)
  /-- The operand ends with an `if` without an `else`, which is looked for on the lines below. -/
  | conditional {token : Token} {tokens tokens₁ tokens₂ : List Token} {condition whenTrue : Expr}
    (h : After (·.kind = .newline) whole rest) (hplace : token :: tokens <:+ whole)
    (hif : token.isKeyword "if" = true)
    (hcondition : Expression file .lowest tokens condition tokens₁)
    (htrue : Body file tokens₁ whenTrue tokens₂) (hrest : rest = tokens₂.dropWhile Token.isNewline)

theorem Seam.mono (h : Seam file whole rest) (hsuffix : whole <:+ whole') :
    Seam file whole' rest := by
  cases h with
  | line h => exact .line (h.mono hsuffix)
  | block h => exact .block (h.mono hsuffix)
  | conditional h hplace hif hcondition htrue hrest =>
    exact .conditional (h.mono hsuffix) (hplace.trans hsuffix) hif hcondition htrue hrest

/-- Words without white space between them stand on one line. -/
theorem Seam.of_word (h : After Word whole rest) (hregular : Regular whole)
    (hrest : Starts Word rest) : Seam file whole rest := by
  obtain ⟨next, others, rfl, hnext⟩ := hrest
  obtain ⟨early, token, rfl, htoken⟩ := h
  have hneighbours := (hregular.mono (List.suffix_append _ _)).neighbours_head
  exact .line ⟨early, token, rfl, htoken, ahead_cons.2 (hneighbours.line htoken hnext).symm⟩

/-- An `if` without an `else` ends with its body, or with the line breaks that it has skipped. -/
theorem Seam.conditional_of {tokens₁ tokens₂ : List Token} {condition whenTrue : Expr}
    (hif : token.isKeyword "if" = true)
    (hcondition : Expression file .lowest tokens condition tokens₁)
    (htrue : Body file tokens₁ whenTrue tokens₂) (hrest : rest = tokens₂.dropWhile Token.isNewline)
    (hbody : rest = tokens₂ → Seam file (token :: tokens) tokens₂) :
    Seam file (token :: tokens) rest := by
  obtain heq | hafter := after_dropWhile Token.isNewline tokens₂
  · rw [← hrest] at heq
    rw [heq]
    exact hbody heq
  · rw [← hrest] at hafter
    have hbreak : After (·.kind = .newline) tokens₂ rest :=
      hafter.imp fun _ _ hbreak => beq_iff_eq.1 hbreak
    have hsuffix := htrue.takes.suffix.trans hcondition.takes.suffix
    exact .conditional (hbreak.mono (hsuffix.trans (List.suffix_cons token _))) List.suffix_rfl hif
      hcondition htrue hrest

/-! ## Phrases that end with a word -/

theorem Items.after_closing {α : Type} {closing : String} {item : Phrase α} {found : List α}
    (hitem : ∀ tokens a rest, item tokens a rest → Takes tokens rest)
    (h : Items closing item tokens found rest) : After (·.value = closing) tokens rest := by
  induction h with
  | nil hclose => exact .head hclose
  | last _ h hclose => exact (After.head hclose).mono (hitem _ _ _ h).suffix
  | more _ h _ _ ih => exact ih.mono ((List.suffix_cons _ _).trans (hitem _ _ _ h).suffix)

theorem Segment.after_word {segment : UseSegment} (h : Segment tokens segment rest)
    (hproper : Proper tokens) : After Word tokens rest := by
  cases h with
  | module hname => exact .head (word_of_kind hname rfl)
  | alternatives _ hnames =>
    refine After.mono ?_ (List.suffix_cons _ _)
    refine (hnames.after_closing fun _ _ _ => ModuleName.takes).imp fun token hmem hvalue => ?_
    exact word_of_mark ("\x7d", .special) (hproper.tail token hmem) hvalue rfl

/-- Where a word stands before the path, one stands behind it. -/
theorem UsePath.after_word {path : List UseSegment}
    (h : Many UseStep (Before (·.value ≠ "::")) tokens path rest) (hproper : Proper whole)
    (hsuffix : tokens <:+ whole) (hstart : After Word whole tokens) : After Word whole rest := by
  induction h with
  | stop h => exact h.2 ▸ hstart
  | more hstep _ ih =>
    refine ih (hstep.takes.suffix.trans hsuffix) ?_
    obtain ⟨-, hsegment⟩ := hstep
    have hinner := (List.suffix_cons _ _).trans hsuffix
    exact (hsegment.after_word (hproper.mono hinner)).mono hinner

theorem Scope.after_word {path : List String × String} (h : Scope tokens path rest) :
    After Word tokens rest := by
  induction h with
  | name _ hname =>
    exact (After.head (word_of_kind hname rfl)).mono (List.suffix_cons _ _)
  | module _ _ _ ih => exact ih.mono ((List.suffix_cons _ _).trans (List.suffix_cons _ _))

theorem Arguments.after_closing {args : List Expr} (h : Arguments file tokens args rest) :
    After (·.value = ")") tokens rest := by
  induction args generalizing tokens with
  | nil =>
    cases h with
    | close hclose => exact .head hclose
  | cons arg others ih =>
    cases h with
    | next _ harg hothers =>
      exact (ih hothers).mono (harg.takes.suffix.trans (List.suffix_cons _ _))

theorem word_of_literal {expr : Expr} (h : token.literal? = some expr) : Word token := by
  have hkind := Grammar.kind_of_start (.literal h : Start "" [token] expr [])
  unfold Word
  generalize token.kind = kind at hkind ⊢
  revert hkind
  cases kind <;> simp [Token.Kind.isSynthetic]

/-- Behind a block, the token that closes it stands right before the next word. No newline token
follows it, which the parser would pass. -/
theorem Statements.after_outdent {contents : List Expr} {middle : List Token}
    (h : Statements file tokens contents middle) (hregular : Regular tokens)
    (hrest : rest = pastNewline middle.tail) (hne : rest ≠ []) :
    After (·.kind = .outdent) tokens rest := by
  have hmiddle := hregular.mono h.suffix
  refine After.mono ?_ h.suffix
  obtain ⟨_, -, hahead⟩ := h.exists_stop
  subst hrest
  cases middle with
  | nil => exact absurd rfl hne
  | cons close others =>
    have hclose : close.kind = .outdent := ahead_cons.1 hahead
    have hpast : pastNewline others = others := by
      cases others with
      | nil => rfl
      | cons next others =>
        have hnext := hmiddle.neighbours_head.newline (by rw [hclose]; rfl)
        exact if_neg (by simpa [Token.isNewline] using hnext)
    rw [List.tail_cons, hpast]
    exact .head hclose

/-! ## Every operand ends at a seam -/

mutual

theorem Expression.seam : ∀ {floor : Power} {tokens rest : List Token} {expr : Expr},
    Expression file floor tokens expr rest → Regular tokens → Starts Word rest →
      Seam file tokens rest
  | _, _, _, _, .intro hskip hstart hextend, hregular, hrest =>
    have hsuffix := hskip ▸ List.dropWhile_suffix _
    have hinner := hregular.mono hsuffix
    (hextend.seam hinner hstart.takes.suffix (hstart.seam hinner) hrest).mono hsuffix

theorem Start.seam : ∀ {tokens rest : List Token} {expr : Expr},
    Start file tokens expr rest → Regular tokens → Starts Word rest → Seam file tokens rest
  | _, _, _, .literal h, hregular, hrest => .of_word (.head (word_of_literal h)) hregular hrest
  | _, _, _, .reference _ hscope, hregular, hrest =>
    .of_word (hscope.after_word.mono (List.suffix_cons _ _)) hregular hrest
  | _, _, _, .unit _ hclose, hregular, hrest =>
    have hword := word_of_mark (")", .rightParen) hregular.proper.tail.head hclose rfl
    .of_word ((After.head hword).mono (List.suffix_cons _ _)) hregular hrest
  | _, _, _, .group _ hexpr hclose, hregular, hrest =>
    have hsuffix := hexpr.takes.suffix.trans (List.suffix_cons _ _)
    have hword := word_of_mark (")", .rightParen) (hregular.proper.mono hsuffix).head hclose rfl
    .of_word ((After.head hword).mono hsuffix) hregular hrest
  | _, _, _, .arguments _ hfirst hothers, hregular, hrest =>
    have hsuffix := hfirst.takes.suffix.trans (List.suffix_cons _ _)
    have hclosing := hothers.after_closing.mono hsuffix
    .of_word (hclosing.imp fun token hmem hvalue =>
      word_of_mark (")", .rightParen) (hregular.proper token hmem) hvalue rfl) hregular hrest
  | _, _, _, .moduleDef _ _ hbody, hregular, hrest =>
    have hsuffix := (List.suffix_cons _ _).trans (List.suffix_cons _ _)
    (hbody.seam (hregular.mono hsuffix) hrest).mono hsuffix
  | _, _, _, .useDef _ hname hpath, hregular, hrest =>
    have hword : After Word _ _ := .head (word_of_kind hname rfl)
    have hpath := UsePath.after_word hpath hregular.proper.tail (List.suffix_cons _ _) hword
    .of_word (hpath.mono (List.suffix_cons _ _)) hregular hrest
  | _, _, _, .functionDef _ _ hparams hresult hbody, hregular, hrest =>
    have hsuffix := (hresult.suffix.trans hparams.suffix).trans
      ((List.suffix_cons _ _).trans (List.suffix_cons _ _))
    (hbody.seam (hregular.mono hsuffix) hrest).mono hsuffix
  | _, _, _, .ifElse _ hcondition htrue hskip _ hfalse, hregular, hrest =>
    have hnext := (List.suffix_cons _ _).trans (hskip ▸ List.dropWhile_suffix _)
    have hsuffix := (hnext.trans (htrue.takes.suffix.trans hcondition.takes.suffix)).trans
      (List.suffix_cons _ _)
    (hfalse.seam (hregular.mono hsuffix) hrest).mono hsuffix
  | _, _, _, .ifOnly hif hcondition htrue heq _, hregular, hrest =>
    have hsuffix := hcondition.takes.suffix.trans (List.suffix_cons _ _)
    .conditional_of hif hcondition htrue heq fun heq =>
      (htrue.seam (hregular.mono hsuffix) (heq ▸ hrest)).mono hsuffix

/-- What extends an operand, with what stands before it. -/
theorem Extension.seam : ∀ {floor : Power} {left extended : Expr} {tokens rest whole : List Token},
    Extension file floor left tokens extended rest → Regular whole → tokens <:+ whole →
      (Starts Word tokens → Seam file whole tokens) → Starts Word rest → Seam file whole rest
  | _, _, _, _, _, _, .stop _, _, _, hstart, hrest => hstart hrest
  | _, _, _, _, _, _, .binary _ _ hright hmore, hregular, hsuffix, _, hrest =>
    have hinner := (List.suffix_cons _ _).trans hsuffix
    hmore.seam hregular (hright.takes.suffix.trans hinner)
      (fun h => (hright.seam (hregular.mono hinner) h).mono hinner) hrest
  | _, _, _, _, _, _, .assign _ _ hvalue hmore, hregular, hsuffix, _, hrest =>
    have hinner := (List.suffix_cons _ _).trans hsuffix
    hmore.seam hregular (hvalue.takes.suffix.trans hinner)
      (fun h => (hvalue.seam (hregular.mono hinner) h).mono hinner) hrest
  | _, _, _, _, _, _, .call _ _ htarget hmore, hregular, hsuffix, _, hrest =>
    have hinner := (List.suffix_cons _ _).trans hsuffix
    hmore.seam hregular (htarget.takes.suffix.trans hinner)
      (fun h => (htarget.seam (hregular.mono hinner) h).mono hinner) hrest

theorem Body.seam : ∀ {tokens rest : List Token} {body : Expr},
    Body file tokens body rest → Regular tokens → Starts Word rest → Seam file tokens rest
  | _, _, _, .block hskip _ hcontents hpast, hregular, hrest =>
    have hsuffix := (List.suffix_cons _ _).trans (hskip ▸ List.dropWhile_suffix _)
    have hinner := hregular.mono hsuffix
    .block ((Statements.after_outdent hcontents hinner hpast hrest.ne_nil).mono hsuffix)
  | _, _, _, .single hexpr, hregular, hrest => hexpr.seam hregular hrest

end

theorem EndsOperand.seam (h : EndsOperand file whole rest) (hregular : Regular whole)
    (hrest : Starts Word rest) : Seam file whole rest := by
  obtain ⟨tokens, expr, hsuffix, hstart | ⟨floor, hexpr⟩⟩ := h
  · exact (hstart.seam (hregular.mono hsuffix) hrest).mono hsuffix
  · exact (hexpr.seam (hregular.mono hsuffix) hrest).mono hsuffix

/-- A token that extends an expression is a word. -/
theorem word_of_extender {rule : Extender} (h : Grammar.standard.extender? token = some rule)
    (hproper : token.Proper) : Word token := by
  obtain ⟨power, hpower, -⟩ | ⟨hvalue, -⟩ | ⟨hvalue, -⟩ | ⟨-, hnone⟩ :=
    Grammar.extender?_cases token
  · exact word_of_kind (kind_of_binaryPower? hpower) rfl
  · exact word_of_mark ("=", .special) hproper hvalue rfl
  · exact word_of_mark ("->", .special) hproper hvalue rfl
  · rw [hnone] at h
    cases h

end Phrase

open Phrase (Seam Word)

/-! ## Whole texts -/

variable {source rule : String} {name : Option String} {tokens : List Token} {last token : Token}

theorem Token.regular_of_tokenize (h : (tokenize source name).result = .ok (tokens ++ [last])) :
    Phrase.Regular tokens :=
  ⟨fun token hmem => ((inView_of_tokenize h).1 token hmem).proper, Token.neighbours_of_tokenize h⟩

/-- A run that is watched for the places where expressions are extended. -/
def Watch.seams (file : String) (last : Token) (tokens : List Token) : Watch where
  file := file
  last := last
  tokens := tokens
  notes event := ∀ rule token, event = .ruleExtended rule token →
    Word token ∧ ∃ rest, token :: rest <:+ tokens ∧ Seam file tokens (token :: rest)
  stops _ := False

theorem Watch.admits_seams {file : String} (h : Phrase.Regular tokens) :
    (Watch.seams file last tokens).Admits where
  plain := by
    rintro event hplain rule token rfl
    exact absurd trivial hplain
  extended {_ _ rest} hsuffix hends hrule := by
    intro rule token heq
    cases heq
    have hword := Phrase.word_of_extender hrule (h.proper.mono hsuffix).head
    exact ⟨hword, rest, hsuffix, hends.seam h (Phrase.starts_cons.2 hword)⟩
  started _ _ := .inl nofun

/-- Wherever a rule extends an expression in a text that has tokens, there is a seam. -/
theorem seam_of_ruleExtended (htokens : (tokenize source name).result = .ok (tokens ++ [last]))
    (hextended : .ruleExtended rule token ∈ (parse source name).events) : token ∈ tokens ∧
    ∀ before after, tokens = before ++ token :: after →
      Seam (name.getD Scanner.unknownFile) tokens (token :: after) := by
  have hadmits : (Watch.seams (name.getD Scanner.unknownFile) last tokens).Admits :=
    Watch.admits_seams (Token.regular_of_tokenize htokens)
  obtain hnotes | ⟨_, -, hfalse⟩ := hadmits.events_of_parse htokens rfl
  · obtain ⟨hword, rest, ⟨early, hplace⟩, hseam⟩ := hnotes _ hextended rule token rfl
    refine ⟨by simp [← hplace], fun before after hplace' => ?_⟩
    obtain ⟨-, rfl⟩ := Token.eq_of_place htokens hword hplace.symm hplace'
    exact hseam
  · cases hfalse

/-- In a text that is accepted, a token that extends an expression stands on the line on which the
expression ends, unless a block ends there, or an `if` without an `else`. -/
theorem seam_of_parse {block : Block Expr} (hparse : (parse source name).result = .ok block)
    (hextended : .ruleExtended rule token ∈ (parse source name).events) :
    ∃ tokens last, (tokenize source name).result = .ok (tokens ++ [last]) ∧ token ∈ tokens ∧
      ∀ before after, tokens = before ++ token :: after →
        Seam (name.getD Scanner.unknownFile) tokens (token :: after) := by
  obtain ⟨tokens, last, htokens, -⟩ := parse_eq_ok_iff.1 hparse
  exact ⟨tokens, last, htokens, seam_of_ruleExtended htokens hextended⟩

theorem seam_of_parse_sum :
    let plus : Token := ⟨.operator, "+", 1, 2⟩
    .ruleExtended "+" plus ∈ (parse "a + b" none).events ∧
      ∃ tokens last, (tokenize "a + b" none).result = .ok (tokens ++ [last]) ∧ plus ∈ tokens ∧
        ∀ before after, tokens = before ++ plus :: after →
          Seam Scanner.unknownFile tokens (plus :: after) := by
  intro plus
  have hok : (parse "a + b" none).result.isOk = true := by decide +kernel
  obtain ⟨block, hparse⟩ := exists_of_isOk hok
  have hextended : .ruleExtended "+" plus ∈ (parse "a + b" none).events := by decide +kernel
  exact ⟨hextended, seam_of_parse hparse hextended⟩

/-- Behind the block of a function, an operator at the start of a line extends the declaration.
Behind a name it does not, and the text is rejected. -/
theorem extended_after_block :
    let before : List Token := [⟨.keyword, "fn", 1, 0⟩, ⟨.identifier, "f", 1, 3⟩,
      ⟨.newline, "\n", 2, 0⟩, ⟨.indent, "", 2, 0⟩, ⟨.identifier, "b", 2, 2⟩,
      ⟨.newline, "\n", 3, 0⟩, ⟨.outdent, "", 3, 0⟩]
    let plus : Token := ⟨.operator, "+", 3, 0⟩
    (tokenize "fn f\n  b\n+ c" none).result.toOption = some (before ++ plus ::
        [⟨.identifier, "c", 3, 2⟩, ⟨.endOfText, "", 3, 3⟩]) ∧
      (parse "fn f\n  b\n+ c" none).result.isOk = true ∧
      .ruleExtended "+" plus ∈ (parse "fn f\n  b\n+ c" none).events ∧
      (∀ token ∈ before, token.kind.isSynthetic = false → token.line < plus.line) ∧
      (parse "a\n+ c" none).result.isOk = false := by
  decide +kernel

/-- An `if` without an `else` has skipped the line break behind its body. -/
example : .ruleExtended "+" ⟨.operator, "+", 2, 0⟩ ∈ (parse "if a b\n+ c" none).events := by
  decide +kernel

end Offside
