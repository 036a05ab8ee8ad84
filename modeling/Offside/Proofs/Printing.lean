import Offside.Proofs.Expr.Printing

/-!
# Parsing undoes printing

The tokens of a printed statement spell the statement in front of any tokens that do not go on with
it (`Phrase.exists_lineTokens`), and so those of a program spell the program. A printed program is
therefore parsed into its own statements (`parse_print`).
-/

namespace Offside

/-- A token that no statement before it goes on with. -/
structure Token.IsApart (token : Token) : Prop where
  isNewline : ¬ token.isNewline = true
  power : ¬ Power.lowest < token.power
  isKeyword : ¬ token.isKeyword "else" = true

namespace Phrase

open Offside.Expr
open Token (Moved)

variable {file : String} {tokens rest : List Token}

/-! ## Headers -/

theorem listed_names {names : List String} (h : names.all Text.isConstant = true) :
    Listed ModuleName "\x7d" (names.map fun name => [.bare .constant name]) names := by
  induction names with
  | nil => exact .nil
  | cons name names ih =>
    rw [List.all_cons, Bool.and_eq_true] at h
    refine .cons (starts_cons.2 fun hclose => ?_) (fun rest _ => ⟨_, rfl, rfl, rfl⟩) (ih h.2)
    rw [show name = "\x7d" from hclose] at h
    exact absurd h.1 (by decide)

theorem segment_tokens {segment : UseSegment} (h : segment.isSpellable = true)
    (rest : List Token) : Segment (segment.tokens ++ rest) segment rest := by
  cases segment with
  | module name => exact .module rfl
  | alternatives names =>
    have hnames : Listed ModuleName (Token.bare .special "\x7d").value _ _ := listed_names h
    rw [UseSegment.tokens, List.cons_append, List.append_assoc]
    exact .alternatives rfl (hnames.items (by decide))

theorem path_useTokens {path : List UseSegment}
    (h : ∀ segment ∈ path, segment.isSpellable = true) (hrest : Ahead (· ∈ closers) rest) :
    Many UseStep (Before (·.value ≠ "::"))
      (path.flatMap (fun segment => .bare .special "::" :: segment.tokens) ++ rest) path rest := by
  induction path with
  | nil => exact .stop ⟨fun token htoken => (facts_of_closer token (hrest token htoken)).2.2.1, rfl⟩
  | cons segment path ih =>
    obtain ⟨hsegment, hpath⟩ := List.forall_mem_cons.1 h
    rw [List.flatMap_cons, List.cons_append, List.cons_append, List.append_assoc]
    exact .more (.intro rfl (segment_tokens hsegment _)) (ih hpath)

theorem codomain_tokens {result : Option TypeExpr} (h : result.all TypeExpr.isSpellable = true)
    (hrest : Ahead (· ∈ closers) rest) : Codomain (resultTokens result ++ rest) result rest := by
  cases result with
  | none => exact .none fun token htoken => (facts_of_closer token (hrest token htoken)).2.1
  | some type => exact .some rfl (typeTerm_tokens type rest h hrest)

theorem listed_params {params : List Parameter} (h : params.all Parameter.isSpellable = true) :
    Listed Param ")" (params.map Parameter.tokens) (params.map (Parameter.stamp {})) := by
  induction params with
  | nil => exact .nil
  | cons param params ih =>
    rw [List.all_cons, Parameter.isSpellable, Bool.and_eq_true, Bool.and_eq_true] at h
    obtain ⟨⟨hname, htype⟩, hparams⟩ := h
    refine .cons (starts_cons.2 fun hclose => ?_) (fun rest hrest => ?_) (ih hparams)
    · rw [show param.name = ")" from hclose] at hname
      exact absurd hname (by decide)
    · exact .intro rfl rfl (typeTerm_tokens param.type rest htype hrest)

theorem start_useTokens {path : List UseSegment} (h : isUsePath path = true)
    (hrest : Ahead (· ∈ closers) rest) :
    Start file (useTokens path ++ rest) (.useDef {} path) rest := by
  match path, h with
  | .module name :: path, h =>
    have hpath := path_useTokens (fun segment hmem => all_of_isUsePath h segment (.tail _ hmem)) hrest
    have hstart : Start file (.bare .keyword "use" :: .bare .constant name :: _)
      (.useDef {} (.module name :: path)) rest := .useDef rfl rfl hpath
    simpa [useTokens, intercalate_cons, List.flatMap_map, UseSegment.tokens] using hstart

theorem start_functionTokens (name : String) {params : List Parameter} {result : Option TypeExpr}
    {contents : List Expr} {others : List Token}
    (hparams : params.all Parameter.isSpellable = true)
    (hresult : result.all TypeExpr.isSpellable = true)
    (hbody : Body file (.bare .newline "\n" :: others) (.block { contents }) rest) :
    Start file (functionTokens name params result ++ .bare .newline "\n" :: others)
      (.functionDef {} name (params.map (Parameter.stamp {})) result { contents }) rest := by
  have hclose : Ahead (· ∈ closers) (.bare .newline "\n" :: others) := ahead_cons.2 (by decide)
  obtain ⟨heq, hitems⟩ : _ ∧ Items ")" Param _ _ (resultTokens result ++ .bare .newline "\n" :: others) :=
    (listed_params hparams).parens
  rw [functionTokens, List.cons_append, List.cons_append, List.append_assoc, heq]
  exact .functionDef rfl rfl (.list rfl hitems) (codomain_tokens hresult hclose) hbody

/-! ## Statements -/

theorem power_of_proper {token : Token} (h : token.Proper) (hoperator : token.kind ≠ .operator)
    (hspecial : token.kind ≠ .special) : token.power = .lowest := by
  have hnone : token.binaryPower? = none := by
    rw [Token.binaryPower?, if_neg hoperator]
  rw [Token.power, hnone]
  dsimp only
  rw [if_neg (h.value_ne ("=", .special) hspecial), if_neg (h.value_ne ("->", .special) hspecial)]

theorem isApart_of_proper {token : Token} (h : token.Proper)
    (hkind : token.kind ∈ [Token.Kind.identifier, .integer, .string, .constant]) :
    token.IsApart := by
  have hplain : ∀ kind ∈ [Token.Kind.identifier, .integer, .string, .constant],
      kind ≠ .operator ∧ kind ≠ .special ∧ kind ≠ .newline ∧ kind ≠ .keyword := by
    decide
  obtain ⟨hoperator, hspecial, hnewline, hkeyword⟩ := hplain _ hkind
  refine ⟨by simp [Token.isNewline, hnewline], ?_, by simp [Token.isKeyword, hkeyword]⟩
  rw [power_of_proper h hoperator hspecial]
  decide

/-- An expression goes on with no statement before it. -/
theorem starts_tokens_of_isSpellable {expr : Expr} (h : expr.isSpellable = true) :
    Starts Token.IsApart expr.tokens := by
  have hproper := (spells_spelling expr h [0] [] nofun).proper
  have happly {kind : Token.Kind} {value : String} {others : List Token}
      (heq : expr.tokens = .bare kind value :: others)
      (hkind : kind ∈ [Token.Kind.identifier, .integer, .string, .constant]) :
      Starts Token.IsApart expr.tokens := by
    rw [heq] at hproper ⊢
    exact starts_cons.2 (isApart_of_proper (hproper _ List.mem_cons_self) hkind)
  cases expr with
  | identifier | intLit | stringLit => exact happly rfl (by decide)
  | boolLit _ value => cases value <;> exact starts_cons.2 ⟨by decide, by decide, by decide⟩
  | reference _ modules name =>
    cases modules with
    | nil => cases h
    | cons module modules => exact happly (intercalate_cons _ _ _) (by decide)
  | binary | assign | call => exact starts_cons.2 ⟨by decide, by decide, by decide⟩
  | block | moduleDef | useDef | floatLit | arguments | parameter | functionDef | conditional =>
    cases h

theorem ahead_lineTokens {expr : Expr} (h : expr.isPrintable = true) (rest : List Token) :
    Ahead Token.IsApart (expr.lineTokens ++ rest) := by
  cases expr with
  | moduleDef | useDef | functionDef | conditional =>
    exact ahead_cons.2 ⟨by decide, by decide, by decide⟩
  | identifier | intLit | boolLit | stringLit | reference | binary | assign | call =>
    rw [lineTokens, List.append_assoc]
    · exact (starts_tokens_of_isSpellable h).ahead_append _
    all_goals exact nofun
  | block | floatLit | arguments | parameter => cases h

theorem ahead_linesTokens {exprs : List Expr} (h : arePrintable exprs = true)
    (hrest : Ahead Token.IsApart rest) :
    Ahead Token.IsApart (linesTokens exprs ++ rest) := by
  cases exprs with
  | nil => exact hrest
  | cons expr exprs =>
    rw [arePrintable, Bool.and_eq_true] at h
    rw [linesTokens, List.append_assoc]
    exact ahead_lineTokens h.1 _

/-- A newline token before an expression is no matter. -/
theorem Expression.newline {floor : Power} {expr : Expr}
    (h : Expression file floor tokens expr rest) :
    Expression file floor (.bare .newline "\n" :: tokens) expr rest := by
  cases h with
  | intro hskip hstart hextend =>
    exact .intro (by rw [List.dropWhile_cons_of_pos rfl, hskip]) hstart hextend

/-- What ends statements also ends them past a newline token. -/
def SkipsNewline (stop : List Token → List Token → Prop) : Prop :=
  ∀ tokens rest, stop tokens rest → stop (.bare .newline "\n" :: tokens) rest

theorem Many.newline {stop : List Token → List Token → Prop} {found : List Expr}
    (h : Many (Expression file .lowest) stop tokens found rest) (hstop : SkipsNewline stop) :
    Many (Expression file .lowest) stop (.bare .newline "\n" :: tokens) found rest := by
  cases h with
  | stop hend => exact .stop (hstop _ _ hend)
  | more hexpr hothers => exact .more hexpr.newline hothers

theorem skipsNewline_endsBlock : SkipsNewline EndsBlock :=
  fun _ _ h => ⟨h.1, h.2⟩

/-- The tokens spell a statement with the same bare form, up to the rest or to a newline token before
it. -/
def Statement (file : String) (expr : Expr) (tokens rest : List Token) : Prop :=
  ∃ expr' rest', Expression file .lowest tokens expr' rest' ∧ expr'.bare = expr.bare ∧
    (rest' = rest ∨ rest' = .bare .newline "\n" :: rest)

/-- What starts an expression is a statement where no token goes on with it. -/
theorem Start.statement {start expr : Expr} {middle : List Token}
    (h : Start file tokens start middle) (hbare : start.bare = expr.bare)
    (hrest : Ahead Token.IsApart rest)
    (hmiddle : middle = rest ∨ middle = .bare .newline "\n" :: rest) :
    Statement file expr tokens rest := by
  have hpower : Ahead (¬ Power.lowest < ·.power) middle := by
    rcases hmiddle with rfl | rfl
    · exact fun token htoken => (hrest token htoken).power
    · exact ahead_cons.2 (by decide)
  obtain ⟨expr', hexpr, hsame⟩ := h.exists_expression (.stop hpower)
  exact ⟨expr', middle, hexpr, hsame.trans hbare, hmiddle⟩

theorem Operates.statement {expr : Expr} (h : Operates file tokens expr)
    (hrest : Ahead Token.IsApart rest) :
    Statement file expr (tokens ++ .bare .newline "\n" :: rest) rest := by
  obtain ⟨start, hstart, hbare⟩ := h (.bare .newline "\n" :: rest)
  exact hstart.statement hbare hrest (.inr rfl)

theorem blockTokens_append (header body rest : List Token) :
    blockTokens header body ++ rest = header ++ .bare .newline "\n" :: .bare .indent "" ::
      (body ++ .bare .outdent "" :: rest) := by
  simp [blockTokens]

mutual

/-- The tokens of a printed statement spell one with the same bare form in front of any tokens that
do not go on with it. -/
theorem statement_lineTokens (file : String) : ∀ (expr : Expr) (rest : List Token),
    expr.isPrintable = true → Ahead Token.IsApart rest →
      Statement file expr (expr.lineTokens ++ rest) rest
  | .moduleDef _ name body, rest, h, hrest => by
    rw [isPrintable, Bool.and_eq_true] at h
    obtain ⟨contents, hbody, hsame⟩ :=
      exists_body file body rest h.2 fun token htoken => (hrest token htoken).isNewline
    have hstart : Start file (.bare .keyword "module" :: .bare .constant name :: _)
      (.moduleDef {} name { contents }) rest := .moduleDef rfl rfl hbody
    rw [lineTokens, blockTokens_append]
    exact hstart.statement (bare_moduleDef_congr hsame) hrest (.inl rfl)
  | .useDef _ path, rest, h, hrest => by
    have hclose : Ahead (· ∈ closers) (.bare .newline "\n" :: rest) := ahead_cons.2 (by decide)
    have hstart : Start file _ _ _ := start_useTokens h hclose
    rw [lineTokens, List.append_assoc]
    exact hstart.statement rfl hrest (.inr rfl)
  | .functionDef _ name params result body, rest, h, hrest => by
    simp only [isPrintable, Bool.and_eq_true] at h
    obtain ⟨⟨⟨-, hparams⟩, hresult⟩, hbody⟩ := h
    obtain ⟨contents, hbody, hsame⟩ :=
      exists_body file body rest hbody fun token htoken => (hrest token htoken).isNewline
    have hstart := start_functionTokens name hparams hresult hbody
    have hstamp : (params.map (Parameter.stamp {})).map (Parameter.stamp {}) =
        params.map (Parameter.stamp {}) := by
      rw [List.map_map]
      rfl
    rw [lineTokens, blockTokens_append]
    exact hstart.statement (bare_functionDef_congr hstamp hsame) hrest (.inl rfl)
  | .conditional _ condition whenTrue whenFalse, rest, h, hrest => by
    simp only [isPrintable, Bool.and_eq_true, Bool.or_eq_true] at h
    obtain ⟨⟨hcondition, htrue⟩, hfalse⟩ := h
    have hnewline : Ahead (¬ ·.isNewline = true) rest :=
      fun token htoken => (hrest token htoken).isNewline
    have hclose {others} : Ahead (· ∈ closers) (.bare .newline "\n" :: others) :=
      ahead_cons.2 (by decide)
    obtain hoperates := operates_tokens file condition hcondition
    rw [lineTokens, List.append_assoc, blockTokens_append]
    by_cases hempty : whenFalse.contents.isEmpty = true
    · rw [if_pos hempty, List.nil_append]
      obtain ⟨contents, htrue, hsame⟩ := exists_body file whenTrue rest htrue hnewline
      obtain ⟨condition', hcondition, hbare⟩ := hoperates.expression hclose
      have hfalse : bareBlock {} = bareBlock whenFalse := by
        rw [bareBlock_eq, bareBlock_eq, List.isEmpty_iff.1 hempty]
      have hstart : Start file (.bare .keyword "if" :: _)
        (.conditional {} condition' { contents } {}) rest :=
        .ifOnly rfl hcondition htrue (dropWhile_eq_self hnewline).symm
          fun token htoken => (hrest token htoken).isKeyword
      exact hstart.statement (bare_conditional_congr hbare hsame hfalse) hrest (.inl rfl)
    · rw [if_neg hempty, blockTokens_append]
      obtain ⟨contents', hfalse, hsame'⟩ :=
        exists_body file whenFalse rest (hfalse.resolve_left hempty) hnewline
      obtain ⟨contents, htrue, hsame⟩ :=
        exists_body file whenTrue (.bare .keyword "else" :: _) htrue (ahead_cons.2 (by decide))
      obtain ⟨condition', hcondition, hbare⟩ := hoperates.expression hclose
      have hstart : Start file (.bare .keyword "if" :: _)
        (.conditional {} condition' { contents } { contents := contents' }) rest :=
        .ifElse rfl hcondition htrue rfl rfl hfalse
      exact hstart.statement (bare_conditional_congr hbare hsame hsame') hrest (.inl rfl)
  | .identifier .., _, h, hrest | .intLit .., _, h, hrest | .boolLit .., _, h, hrest
  | .stringLit .., _, h, hrest | .reference .., _, h, hrest | .binary .., _, h, hrest
  | .assign .., _, h, hrest | .call .., _, h, hrest => by
    rw [lineTokens, List.append_assoc]
    · exact (operates_tokens file _ h).statement hrest
    all_goals exact nofun
  | .block _, _, h, _ | .floatLit .., _, h, _ | .arguments .., _, h, _ | .parameter _, _, h, _ => by
    cases h

theorem exists_linesTokens (file : String) : ∀ (exprs : List Expr)
    (stop : List Token → List Token → Prop) (rest final : List Token),
    arePrintable exprs = true → SkipsNewline stop → Ahead Token.IsApart rest → stop rest final →
      ∃ found, Many (Expression file .lowest) stop (linesTokens exprs ++ rest) found final ∧
        bareAll found = bareAll exprs
  | [], _, _, _, _, _, _, hend => ⟨[], .stop hend, rfl⟩
  | expr :: exprs, stop, rest, final, h, hstop, hrest, hend => by
    rw [arePrintable, Bool.and_eq_true] at h
    obtain ⟨found, hfound, hsame⟩ :=
      exists_linesTokens file exprs stop rest final h.2 hstop hrest hend
    obtain ⟨expr', rest', hexpr, hbare, hrest'⟩ :=
      statement_lineTokens file expr _ h.1 (ahead_linesTokens h.2 hrest)
    rw [linesTokens, List.append_assoc]
    refine ⟨expr' :: found, .more hexpr ?_, by rw [bareAll, bareAll, hbare, hsame]⟩
    rcases hrest' with rfl | rfl
    · exact hfound
    · exact Many.newline hfound hstop

theorem exists_body (file : String) : ∀ (body : Block Expr) (rest : List Token),
    isPrintableBody body = true → Ahead (¬ ·.isNewline = true) rest → ∃ contents,
      Body file (.bare .newline "\n" :: .bare .indent "" ::
        (bodyTokens body ++ .bare .outdent "" :: rest)) (.block { contents }) rest ∧
        bareBlock { contents } = bareBlock body
  | ⟨_, contents⟩, rest, h, hrest => by
    rw [isPrintableBody, Bool.and_eq_true] at h
    have houtdent : Ahead Token.IsApart (.bare .outdent "" :: rest) :=
      ahead_cons.2 ⟨by decide, by decide, by decide⟩
    obtain ⟨found, hfound, hsame⟩ := exists_linesTokens file contents EndsBlock _
      (.bare .outdent "" :: rest) h.2 skipsNewline_endsBlock houtdent ⟨rfl, ahead_cons.2 rfl⟩
    refine ⟨found, .block rfl rfl hfound (pastNewline_eq_self hrest).symm, ?_⟩
    rw [bareBlock, bareBlock, hsame]

end

/-! ## Programs -/

theorem skipsNewline_endsProgram :
    SkipsNewline fun tokens rest => tokens.dropWhile Token.isNewline = rest ∧ rest = [] :=
  fun _ _ h => h

theorem Program.moved {tokens' : List Token} {contents : List Expr}
    (h : Program file tokens contents rest) (hmoved : Moved [] tokens tokens') :
    ∃ contents', Program file tokens' contents' [] ∧ bareAll contents' = bareAll contents := by
  induction h generalizing tokens' with
  | stop hend =>
    obtain ⟨hskip, rfl⟩ := hend
    have hmoved := hmoved.dropWhile fun _ => rfl
    rw [hskip] at hmoved
    generalize hskip' : List.dropWhile _ tokens' = others at hmoved
    cases hmoved
    exact ⟨[], .stop ⟨hskip', rfl⟩, rfl⟩
  | more hexpr _ ih =>
    obtain ⟨expr', middle', hexpr', hbare, hmiddle⟩ := hexpr.moved hmoved fun _ => rfl
    obtain ⟨contents', hcontents, hsame⟩ := ih hmiddle
    exact ⟨expr' :: contents', .more hexpr' hcontents, by rw [bareAll, bareAll, hbare, hsame]⟩

end Phrase

open Offside.Expr Phrase

theorem reads_print {program : List Expr} (h : arePrintable program = true) :
    Scanner.Reads [0] (print program).toList (linesTokens program) [0] [] := by
  by_cases hempty : program = []
  · rw [hempty]
    exact .refl
  · exact (lays_printedAll program 0 hempty h).reads

/-- A printed program is parsed into its own statements. -/
theorem parse_print {program : List Expr} (h : arePrintable program = true)
    (file : Option String) : ∃ block, (parse (print program) file).result = .ok block ∧
      block.contents.map bare = program.map bare := by
  obtain ⟨contents, hprogram, hsame⟩ := exists_linesTokens (file.getD Scanner.unknownFile) program
    _ [] [] h skipsNewline_endsProgram ahead_nil ⟨rfl, rfl⟩
  rw [List.append_nil] at hprogram
  obtain ⟨found, last, htokens, hmoved⟩ := exists_tokenize_of_reads file (reads_print h) rfl
  obtain ⟨contents', hprogram', hsame'⟩ := Program.moved hprogram hmoved
  refine ⟨{ contents := contents' }, parse_eq_ok_iff.2 ⟨found, last, htokens, rfl, hprogram'⟩, ?_⟩
  rw [← bareAll_eq_map, ← bareAll_eq_map, hsame', hsame]

theorem parse_print_nested :
    let program : List Expr := [
      useDef {} [.module "A", .alternatives ["B", "C"]],
      moduleDef {} "M" { contents := [
        functionDef {} "f" [{ name := "a", type := .array (.named ["A"]) }] (some (.named ["B"]))
          { contents := [
            conditional {} (binary {} (identifier {} "a") "==" (intLit {} (-1)))
              { contents := [
                conditional {} (boolLit {} true)
                  { contents := [call {} (reference {} ["A"] "g") [identifier {} "a"]] } {}] }
              { contents := [assign {} (identifier {} "a") (stringLit {} "b")] }] }] },
      identifier {} "c"]
    print program = "use A::\x7bB, C\x7d\nmodule M\n  fn f(a: []A) -> B\n    if (a == -1)\n" ++
        "      if true\n        (a -> A::g)\n    else\n      (a = \"b\")\nc\n" ∧
      ∃ block, (parse (print program) none).result = .ok block ∧
        block.contents.map bare = program.map bare := by
  intro program
  exact ⟨by decide +kernel, parse_print (by decide +kernel) none⟩

end Offside
