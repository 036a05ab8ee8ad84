import Offside.Proofs.Cursor.Fails
import Offside.Proofs.Leaves
import Offside.Proofs.Scanner.Reads
import Offside.Proofs.Scanner.Steps
import Offside.Proofs.Text.Integer
import Offside.Proofs.Token.Longest

/-!
# Literals

What a text denotes that is one literal. A numeral without a point denotes its value, or is a fault
where that has more than 64 bits (`parse_numeral`). A text between quotes denotes what is between
them, if that can be read piece by piece (`parse_quoted_iff`): a piece is a backslash and the
character that it protects, or any other character that stands for itself (`Pattern.Piece`).

Either is one token (`tokenize_of_cut`), so that one rule of the grammar settles what becomes of the
text: it yields the literal (`parse_of_literal`), or a fault at the token (`parse_of_noInteger`).
-/

namespace Offside

open ParseM (Fails)
open Pattern (IsSign IsDigits)

/-! ## Texts of one token -/

section OneToken

variable {source : String} {kind : Token.Kind}

/-- A text that begins with no space is scanned from its beginning. -/
theorem Scanner.skipSpaces_ofText {c : Char} {text : List Char} (hsource : source.toList = c :: text)
    (hspace : c ≠ ' ') (file : Option String) :
    (ofText source file).skipSpaces = ofText source file := by
  have hdrop : (c :: text).dropWhile (· == ' ') = c :: text :=
    List.dropWhile_cons_of_neg (by simpa using hspace)
  have htake : (c :: text).takeWhile (· == ' ') = [] :=
    List.takeWhile_cons_of_neg (by simpa using hspace)
  show { ofText source file with
    rest := source.toList.dropWhile (· == ' ')
    column := 0 + (source.toList.takeWhile (· == ' ')).length } = ofText source file
  rw [hsource, hdrop, htake, ← hsource]
  rfl

/-- A text that is cut off whole has one token. -/
theorem tokenize_of_cut (file : Option String)
    (h : Token.cut? source.toList = some (kind, source, [])) : ∃ last,
      (tokenize source file).result = .ok ([⟨kind, source, 1, 0⟩] ++ [last]) := by
  obtain ⟨c, others, hsource, hspace, -⟩ := Token.exists_head_of_cut? h
  let scanner := Scanner.ofText source file
  have hskip : scanner.skipSpaces = scanner := Scanner.skipSpaces_ofText hsource hspace file
  have hcut : Token.cut? scanner.skipSpaces.rest = some (kind, source, []) := by rwa [hskip]
  obtain ⟨hresult, hnext⟩ := (Scanner.Step.cut (show scanner.pending = [] from rfl) hcut).next_eq
  rw [hskip] at hresult hnext
  have hend : Token.isEnd ⟨kind, source, 1, 0⟩ = false := by
    have hkind := Token.Kind.isSynthetic_of_cut? h
    cases kind <;> first | rfl | cases hkind
  have hat : scanner.next.2.At [0] [] := by
    rw [hnext]
    exact ⟨rfl, rfl, rfl⟩
  exact ⟨_, tokenize_eq_ok_iff.2 ⟨_, .step hresult hend .refl, hat.ends rfl⟩⟩

/-- A literal by itself is a program. -/
theorem parse_of_literal {expr : Expr} (file : Option String)
    (h : Token.cut? source.toList = some (kind, source, []))
    (hliteral : Token.literal? ⟨kind, source, 1, 0⟩ = some expr) :
    (parse source file).result =
      .ok { contents := [expr.stamp ⟨file.getD Scanner.unknownFile, 1⟩] } := by
  obtain ⟨last, htokens⟩ := tokenize_of_cut file h
  have hskip : [(⟨kind, source, 1, 0⟩ : Token)].dropWhile Token.isNewline =
      [⟨kind, source, 1, 0⟩] := by
    refine List.dropWhile_cons_of_neg fun hnewline => ?_
    cases beq_iff_eq.1 hnewline
    cases hliteral
  exact parse_eq_ok_iff.2 ⟨_, last, htokens, rfl,
    .more (.intro hskip (.literal hliteral) (.stop (by simp))) (.stop ⟨rfl, rfl⟩)⟩

/-- The rule for a literal has failed. -/
theorem Grammar.fails_primary {file : String} {last token : Token} {tokens : List Token}
    (h : literalOf token = none) : Fails file last (token :: tokens) primary
      (.fault ⟨literalFault token, .ofLength file token.line token.column token.width⟩) := by
  rw [primary_eq]
  refine .bind .consume (Nat.lt_succ_self _) ⟨rfl, rfl⟩ ?_
  rw [List.headD_cons, h]
  exact .failAt token _

/-- Where the rule for the first token fails, the text is rejected. -/
theorem Grammar.fails_program {file : String} {last token : Token} {tokens : List Token}
    {rule : Starter} {stop : Stop} (hnewline : ¬ token.isNewline = true)
    (hrule : standard.starter? token = some rule)
    (h : ∀ inner, Fails file last (token :: tokens) (rule.parse inner) stop) :
    Fails file last (token :: tokens) standard.program stop := by
  refine .first (.loop (.first ?_))
  refine .getBudget (m := fun depth => standard.expressionWithin depth .lowest)
    fun depth hdepth => ?_
  obtain ⟨depth, rfl⟩ : ∃ before, depth = before + 1 := ⟨depth - 1, by omega⟩
  refine .bind (a := ()) .skipNewlines (Nat.lt_succ_self _)
    (List.dropWhile_cons_of_neg hnewline).symm (.look ?_)
  rw [List.headD_cons, hrule]
  exact .bind (a := ()) (.note _) (Nat.lt_succ_self _) rfl (.first (h _))

theorem parse_of_fails {file : Option String} {tokens : List Token} {last : Token} {stop : Stop}
    (htokens : (tokenize source file).result = .ok (tokens ++ [last]))
    (h : Fails (file.getD Scanner.unknownFile) last tokens Grammar.standard.program stop) :
    (parse source file).result = .error stop := by
  obtain ⟨cursor, hcursor⟩ :=
    Cursor.exists_ofText #[.fileOpened (file.getD Scanner.unknownFile)] htokens
  obtain ⟨hsound, hview⟩ := Cursor.sound_ofText hcursor
  obtain ⟨hclean, heq⟩ := (hview _).1 htokens
  obtain ⟨rfl, hlast⟩ := List.append_inj' heq rfl
  cases hlast
  obtain ⟨after, hrun⟩ := h cursor hsound hclean rfl
  rw [parse_result, hcursor]
  dsimp only
  rw [hrun]

end OneToken

/-! ## Integers -/

section Integers

variable {sign digits suffix : List Char}

/-- A numeral without a point is cut off whole. -/
theorem Token.cut?_numeral (hsign : IsSign sign) (hdigits : IsDigits digits)
    (hsuffix : suffix = [] ∨ suffix = ['L']) : cut? (sign ++ (digits ++ suffix)) =
      some (.integer, String.ofList (sign ++ (digits ++ suffix)), []) := by
  have hinteger := Pattern.split?_integer hsign hdigits hsuffix
  have hdecimal := Pattern.split?_decimal_of_integer hinteger
  rw [cut?_eq, Pattern.table, List.findSome?_cons, List.findSome?_cons, cutBy?, cutBy?, hdecimal,
    hinteger]
  rfl

theorem Grammar.exists_starter?_integer {token : Token} (h : token.kind = .integer) :
    ∃ rule, standard.starter? token = some rule ∧ rule.parse = fun _ => primary := by
  cases hbool : token.value == "true" || token.value == "false" <;>
    simp [starter?, standard, standardStarters, h, hbool]

/-- A numeral that is no integer of 64 bits is a fault. -/
theorem parse_of_noInteger {source : String} (file : Option String)
    (h : Token.cut? source.toList = some (.integer, source, []))
    (hnone : Text.int64OfText? source = none) : (parse source file).result =
      .error (.fault ⟨.invalidNumber source,
        .ofLength (file.getD Scanner.unknownFile) 1 0 (max 1 source.length)⟩) := by
  obtain ⟨last, htokens⟩ := tokenize_of_cut file h
  let token : Token := ⟨.integer, source, 1, 0⟩
  obtain ⟨rule, hrule, hparse⟩ := Grammar.exists_starter?_integer (show token.kind = _ from rfl)
  have hliteral : Grammar.literalOf token = none := by
    simp [Grammar.literalOf, Token.literal?, token, hnone]
  have hnewline : ¬ token.isNewline = true := by simp [Token.isNewline, token]
  refine parse_of_fails htokens (Grammar.fails_program hnewline hrule fun inner => ?_)
  rw [hparse]
  exact Grammar.fails_primary hliteral

/-- A numeral denotes its value, whatever zeros it begins with and whether or not an `L` ends it, if
the value has 64 bits. Otherwise it is a fault over its whole length. Each integer of 64 bits is
denoted by its own digits. -/
theorem parse_numeral (file : Option String) (hsign : IsSign sign) (hdigits : IsDigits digits)
    (hsuffix : suffix = [] ∨ suffix = ['L']) :
    let text := String.ofList (sign ++ (digits ++ suffix))
    let value := Text.numeralValue sign digits
    let name := file.getD Scanner.unknownFile
    (-2 ^ 63 ≤ value → value ≤ 2 ^ 63 - 1 → ∃ n : Int64, n.toInt = value ∧
      (parse text file).result = .ok { contents := [.intLit ⟨name, 1⟩ n] }) ∧
    (¬ (-2 ^ 63 ≤ value ∧ value ≤ 2 ^ 63 - 1) → ∃ span : Span, span.file = name ∧ span.line = 1 ∧
      span.column = 0 ∧ span.length = text.length ∧
        (parse text file).result = .error (.fault ⟨.invalidNumber text, span⟩)) ∧
    ∀ n : Int64, (parse (toString n.toInt) file).result =
      .ok { contents := [.intLit ⟨name, 1⟩ n] } := by
  have hliteral {text : String} {n : Int64}
      (hcut : Token.cut? text.toList = some (.integer, text, []))
      (hread : Text.int64OfText? text = some n) : (parse text file).result =
        .ok { contents := [.intLit ⟨file.getD Scanner.unknownFile, 1⟩ n] } := by
    have hexpr : Token.literal? ⟨.integer, text, 1, 0⟩ = some (.intLit {} n) := by
      simp [Token.literal?, hread]
    exact parse_of_literal file hcut hexpr
  intro text value name
  have hcut : Token.cut? text.toList = some (.integer, text, []) := by
    rw [String.toList_ofList]
    exact Token.cut?_numeral hsign hdigits hsuffix
  have hread := Text.int64OfText?_numeral hsign hdigits hsuffix
  refine ⟨fun hlow hhigh => ?_, fun hrange => ?_, fun n => ?_⟩
  · rw [if_pos ⟨hlow, hhigh⟩] at hread
    exact ⟨Int64.ofInt value, Int64.toInt_ofInt_of_le hlow (by omega), hliteral hcut hread⟩
  · rw [if_neg hrange] at hread
    have hpos : 0 < text.length := by
      have := List.length_pos_iff.2 hdigits.ne_nil
      rw [String.length_ofList, List.length_append, List.length_append]
      omega
    refine ⟨_, rfl, rfl, rfl, ?_, parse_of_noInteger file hcut hread⟩
    show max (max 1 text.length) 1 = text.length
    omega
  · obtain ⟨sign, digits, htext, hsign, hdigits, -⟩ := Text.exists_toList_toString n.toInt
    have hcut := Token.cut?_numeral (hsign.imp_right .inr) hdigits (.inl rfl)
    rw [List.append_nil, ← htext, String.ofList_toList] at hcut
    exact hliteral hcut (Text.int64OfText?_toString n)

/-- The sign is part of the numeral: the least integer of 64 bits has no negation among them. -/
theorem parse_numeral_least :
    let digits := "9223372036854775808".toList
    IsSign ['-'] ∧ IsSign [] ∧ IsDigits digits ∧
      (∃ n : Int64, n.toInt = -2 ^ 63 ∧ (parse "-9223372036854775808L" none).result =
        .ok { contents := [.intLit ⟨Scanner.unknownFile, 1⟩ n] }) ∧
      ∃ span : Span, span.length = 20 ∧ (parse "9223372036854775808L" none).result =
        .error (.fault ⟨.invalidNumber "9223372036854775808L", span⟩) := by
  intro digits
  have hdigits : IsDigits digits :=
    ⟨by decide +kernel, List.all_eq_true.1 (by decide +kernel)⟩
  have hnegative : Text.numeralValue ['-'] digits = -2 ^ 63 := by decide +kernel
  have hpositive : Text.numeralValue [] digits = 2 ^ 63 := by decide +kernel
  obtain ⟨hleast, -, -⟩ := parse_numeral none (.inr (.inr rfl)) hdigits (.inr rfl)
  obtain ⟨-, hbeyond, -⟩ := parse_numeral none (.inl rfl) hdigits (.inr rfl)
  rw [hnegative] at hleast
  rw [hpositive] at hbeyond
  obtain ⟨span, -, -, -, hlength, hfault⟩ := hbeyond (by decide)
  exact ⟨.inr (.inr rfl), .inl rfl, hdigits, hleast (by decide) (by decide), span,
    hlength.trans (by decide +kernel), hfault⟩

end Integers

/-! ## Strings -/

theorem Grammar.unquoted_ofList (quote : Char) (body : List Char) :
    unquoted (String.ofList (quote :: (body ++ [quote]))) = String.ofList body := by
  rw [unquoted, String.toList_ofList, List.drop_one, List.tail_cons, List.dropLast_concat]

section Strings

variable {quote : Char} {source : String} {text : List Char}

/-- The first token of a text that begins with a quote is a string. -/
theorem string_of_tokenize {file : Option String} {tokens : List Token} {token last : Token}
    (hquote : quote = '"' ∨ quote = '\'') (hsource : source.toList = quote :: text)
    (h : (tokenize source file).result = .ok (token :: tokens ++ [last])) : ∃ body rest,
      Pattern.splitQuoted quote text = some (body, rest) ∧ token.kind = .string ∧
        token.value = String.ofList (quote :: body) := by
  obtain ⟨after, hdelivers, -⟩ := tokenize_eq_ok_iff.1 h
  obtain ⟨middle, hstep, -, -⟩ := hdelivers.exists_step
  have hspace : quote ≠ ' ' ∧ quote ≠ '\n' := by
    obtain rfl | rfl := hquote <;> decide
  have hskip : (Scanner.ofText source file).skipSpaces.rest = quote :: text := by
    rw [Scanner.skipSpaces_ofText hsource hspace.1]
    exact hsource
  cases hstep with
  | release hpending => cases hpending
  | stop _ hrest => cases hskip.symm.trans hrest
  | lineBreak _ hrest =>
    cases hskip.symm.trans hrest
    exact absurd rfl hspace.2
  | cut _ hcut =>
    rw [hskip, Token.cut?_quote hquote] at hcut
    obtain ⟨⟨body, rest⟩, hbody, heq⟩ := Option.map_eq_some_iff.1 hcut
    cases heq
    exact ⟨body, _, hbody, rfl, rfl⟩

/-- A text between quotes denotes what is between them, as it stands there, if and only if that can
be read piece by piece. -/
theorem parse_quoted_iff (file : Option String) (hquote : quote = '"' ∨ quote = '\'')
    (body : String) :
    let source := String.singleton quote ++ body ++ String.singleton quote
    ((∃ origin, (parse source file).result = .ok { contents := [.stringLit origin body] }) ↔
      Pattern.Quotable quote body.toList) ∧
    (Pattern.Quotable quote body.toList → (parse source file).result =
      .ok { contents := [.stringLit ⟨file.getD Scanner.unknownFile, 1⟩ body] }) := by
  intro source
  have hchars : source.toList = quote :: (body.toList ++ [quote]) := by
    simp [source]
  have hparse (h : Pattern.Quotable quote body.toList) : (parse source file).result =
      .ok { contents := [.stringLit ⟨file.getD Scanner.unknownFile, 1⟩ body] } := by
    have hescape : quote ≠ '\\' := by
      obtain rfl | rfl := hquote <;> decide
    have hcut : Token.cut? source.toList = some (.string, source, []) := by
      rw [hchars, Token.cut?_quote hquote, Pattern.splitQuoted_of_quotable hescape h,
        Option.map_some]
      dsimp only
      rw [← hchars, String.ofList_toList]
    have hexpr : Token.literal? ⟨.string, source, 1, 0⟩ = some (.stringLit {} body) := by
      have hbody := Grammar.unquoted_ofList quote body.toList
      rw [← hchars, String.ofList_toList, String.ofList_toList] at hbody
      exact congrArg (fun text => some (Expr.stringLit {} text)) hbody
    exact parse_of_literal file hcut hexpr
  refine ⟨⟨fun h => ?_, fun h => ⟨_, hparse h⟩⟩, hparse⟩
  obtain ⟨origin, h⟩ := h
  obtain ⟨tokens, last, htokens, -, hprogram⟩ := parse_eq_ok_iff.1 h
  obtain ⟨hview, -⟩ := inView_of_tokenize htokens
  have hleaves : Token.leaves tokens = [some (.string body)] :=
    hprogram.leaves fun token hmem => (hview token hmem).proper
  cases tokens with
  | nil => cases hleaves
  | cons token tokens =>
    obtain ⟨all, rest, hall, hkind, hvalue⟩ := string_of_tokenize hquote hchars htokens
    obtain ⟨-, inner, hinner, rfl⟩ := Pattern.exists_quotable_of_splitQuoted hall
    rw [Token.leaves_cons_of_isContent (by simp [Token.isContent, hkind])] at hleaves
    have hleaf := (List.cons.inj hleaves).1
    rw [Token.leaf?, hkind, hvalue, ← Grammar.unquoted_eq, Grammar.unquoted_ofList] at hleaf
    cases hleaf
    rwa [String.toList_ofList]

/-- A quote that is protected does not close the text, and a backslash that is protected does not
protect. -/
theorem parse_quoted_escapes :
    let body := "it\\'s\\\\"
    Pattern.Quotable '\'' body.toList ∧ (parse "'it\\'s\\\\'" none).result =
      .ok { contents := [.stringLit ⟨Scanner.unknownFile, 1⟩ body] } := by
  intro body
  have hbody : Pattern.Quotable '\'' body.toList := by
    refine ⟨[['i'], ['t'], ['\\', '\''], ['s'], ['\\', '\\']], ?_, by decide +kernel⟩
    simp only [List.forall_mem_cons]
    exact ⟨.plain (by decide) (by decide) (by decide), .plain (by decide) (by decide) (by decide),
      .escape (by decide), .plain (by decide) (by decide) (by decide), .escape (by decide), nofun⟩
  exact ⟨hbody, (parse_quoted_iff none (.inr rfl) body).2 hbody⟩

end Strings

end Offside
