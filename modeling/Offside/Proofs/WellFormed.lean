import Offside.Proofs.Expr.WellFormed
import Offside.Proofs.Phrase.Written
import Offside.Proofs.Positions

/-!
# Parsed trees are well formed

Every tree that a text is parsed as is well formed, with lists of any length but one
(`wellFormed_of_parse`). A text without a comma has no list but the empty one
(`arguments_eq_nil_of_parse`).

Most of that is in the rules of the grammar. What they take from the scanner is that tokens are
written as they are read (`Phrase.Written`).
-/

namespace Offside

namespace Phrase

open Offside.Expr (WellFormed)

/-! ## Tokens -/

/-- Written tokens, where `lists` holds of the lengths that lists of arguments in them can have: it is
a comma that makes a list of two or more. -/
structure Admits (lists : Nat → Prop) (tokens : List Token) : Prop extends Written tokens where
  empty : lists 0
  single : ¬ lists 1
  several : ∀ token ∈ tokens, token.value = "," → ∀ count, 2 ≤ count → lists count

variable {token : Token} {tokens rest : List Token} {lists : Nat → Prop}

theorem Admits.mono (h : Admits lists tokens) (hsuffix : rest <:+ tokens) : Admits lists rest :=
  ⟨h.toWritten.mono hsuffix, h.empty, h.single,
    fun token hmem => h.several token (hsuffix.subset hmem)⟩

theorem Admits.tail (h : Admits lists (token :: tokens)) : Admits lists tokens :=
  h.mono (List.suffix_cons _ _)

theorem Admits.skip {others : List Token} (h : Admits lists tokens)
    (hskip : tokens.dropWhile Token.isNewline = token :: others) : Admits lists (token :: others) :=
  h.mono (hskip ▸ List.dropWhile_suffix _)

/-! ## Phrases -/

variable {file : String}

theorem names_of_items {closing : String} {tokens rest : List Token} {names : List String}
    (h : Items closing ModuleName tokens names rest) (hworded : Worded tokens) :
    names.all Text.isConstant = true := by
  have hname {tokens rest : List Token} {name : String} (h : ModuleName tokens name rest)
      (hworded : Worded tokens) : Text.isConstant name = true := by
    obtain ⟨token, rfl, hkind, rfl⟩ := h
    exact hworded.head.constant hkind
  induction h with
  | nil => rfl
  | last _ h => simp [hname h hworded]
  | more _ h _ _ ih =>
    rw [List.all_cons, hname h hworded, ih (hworded.mono h.takes.suffix).tail, Bool.and_self]

theorem Segment.isSpellable {tokens rest : List Token} {segment : UseSegment}
    (h : Segment tokens segment rest) (hworded : Worded tokens) : segment.isSpellable = true := by
  cases h with
  | module hname => exact hworded.head.constant hname
  | alternatives _ hnames => exact names_of_items hnames hworded.tail

theorem UsePath.all_isSpellable {tokens rest : List Token} {path : List UseSegment}
    (h : Many UseStep (Before (·.value ≠ "::")) tokens path rest) (hworded : Worded tokens) :
    path.all UseSegment.isSpellable = true := by
  induction h with
  | stop => rfl
  | more h _ ih =>
    have hrest := hworded.mono h.takes.suffix
    obtain ⟨-, hsegment⟩ := h
    rw [List.all_cons, hsegment.isSpellable hworded.tail, ih hrest, Bool.and_self]

theorem Scope.names {tokens rest : List Token} {path : List String × String}
    (h : Scope tokens path rest) (hworded : Worded tokens) :
    (∀ module ∈ path.1, Text.isConstant module = true) ∧ Text.isIdentifier path.2 = true := by
  induction h with
  | name _ hname => exact ⟨by simp, hworded.tail.head.identifier hname⟩
  | module _ hmodule _ ih =>
    obtain ⟨hmodules, hname⟩ := ih hworded.tail.tail
    exact ⟨List.forall_mem_cons.2 ⟨hworded.tail.head.constant hmodule, hmodules⟩, hname⟩

theorem Param.isSpellable {tokens rest : List Token} {param : Parameter}
    (h : Param tokens param rest) (hworded : Worded tokens) : param.isSpellable = true := by
  cases h with
  | intro hname _ htype =>
    rw [Parameter.isSpellable, hworded.head.identifier hname, htype.isSpellable hworded.tail.tail,
      Bool.and_self]

theorem Params.isSpellable {tokens rest : List Token} {params : List Parameter}
    (h : Params tokens params rest) (hworded : Worded tokens) :
    ∀ param ∈ params, param.isSpellable = true := by
  cases h with
  | single h => exact List.forall_mem_singleton.2 (h.isSpellable hworded)
  | @list _ tokens _ _ _ h =>
    replace hworded := hworded.tail
    induction h with
    | nil => simp
    | last _ h => exact List.forall_mem_singleton.2 (h.isSpellable hworded)
    | more _ h _ _ ih =>
      exact List.forall_mem_cons.2
        ⟨h.isSpellable hworded, ih (hworded.mono h.takes.suffix).tail⟩
  | none => simp

end Phrase

open Phrase

/-! ## Literals -/

theorem Token.wellFormed_of_literal {lists : Nat → Prop} {token : Token} {expr : Expr}
    (h : token.literal? = some expr)
    (hworded : token.Worded) (hline : token.kind = .string → '\n' ∉ token.value.toList) :
    expr.WellFormed lists := by
  unfold Token.literal? at h
  split at h
  · split at h
    · cases h
      exact .boolLit
    · split at h <;> cases h
      exact .boolLit
  · obtain ⟨value, -, rfl⟩ := Option.map_eq_some_iff.1 h
    exact .intLit
  · obtain ⟨value, -, rfl⟩ := Option.map_eq_some_iff.1 h
    exact .floatLit
  · rename_i hkind
    cases h
    refine .stringLit fun hmem => hline hkind ?_
    rw [Grammar.unquoted, String.toList_ofList] at hmem
    exact List.mem_of_mem_drop (List.dropLast_subset _ hmem)
  · rename_i hkind
    cases h
    exact .identifier (hworded.identifier hkind)
  · cases h

/-! ## Expressions -/

namespace Phrase

variable {file : String} {lists : Nat → Prop}

/-- The statements of a body, at least one. -/
structure Occupied (lists : Nat → Prop) (body : Block Expr) : Prop where
  ne_nil : body.contents ≠ []
  statements : ∀ statement ∈ body.contents, statement.WellFormed lists

/-- There is a comma between two arguments. -/
theorem Arguments.exists_comma {tokens rest : List Token} {arg : Expr} {others : List Expr}
    (h : Arguments file tokens (arg :: others) rest) : ∃ token ∈ tokens, token.value = "," := by
  cases h with
  | next hcomma => exact ⟨_, List.mem_cons_self, hcomma⟩

/-- A block that opens is not closed at once. -/
theorem Statements.ne_nil {tokens rest : List Token} {contents : List Expr}
    (h : Statements file tokens contents rest)
    (hplain : Starts (·.kind.isSynthetic = false) tokens) : contents ≠ [] := by
  rintro rfl
  cases h with
  | stop hend =>
    obtain ⟨rfl, hend⟩ := hend
    cases tokens with
    | nil => simp [Starts] at hplain
    | cons token tokens =>
      rw [starts_cons] at hplain
      rw [List.dropWhile_cons_of_neg (by simp [Token.isNewline_of_plain hplain]), ahead_cons] at hend
      rw [hend] at hplain
      cases hplain

mutual

theorem Expression.wellFormed : ∀ {floor : Power} {tokens rest : List Token} {expr : Expr},
    Expression file floor tokens expr rest → Admits lists tokens → expr.WellFormed lists
  | _, _, _, _, .intro hskip hstart hextend, h => by
    have hfirst := h.skip hskip
    have hbegin := hstart.wellFormed hfirst
    exact (hextend.wellFormed hbegin (hfirst.mono hstart.takes.suffix)).stamp _

theorem Start.wellFormed : ∀ {tokens rest : List Token} {expr : Expr},
    Start file tokens expr rest → Admits lists tokens → expr.WellFormed lists
  | _, _, _, .literal hliteral, h =>
    Token.wellFormed_of_literal hliteral h.worded.head (h.oneLine _ List.mem_cons_self)
  | _, _, _, .reference hkind hscope, h => by
    obtain ⟨hmodules, hname⟩ := hscope.names h.worded.tail
    exact .reference (List.cons_ne_nil _ _)
      (List.forall_mem_cons.2 ⟨h.worded.head.constant hkind, hmodules⟩) hname
  | _, _, _, .unit _ _, h => .arguments h.empty (by simp)
  | _, _, _, .group _ hexpr _, h => hexpr.wellFormed h.tail
  | _, _, _, .arguments _ hfirst hothers, h => by
    have hfirst' := hfirst.wellFormed h.tail
    have hothers' := hothers.wellFormed (h.tail.mono hfirst.takes.suffix)
    obtain ⟨comma, hmem, hcomma⟩ := hothers.exists_comma
    have hlength := h.several comma (List.mem_cons_of_mem _ (hfirst.takes.suffix.subset hmem)) hcomma
    exact .arguments (hlength _ (by simp)) (List.forall_mem_cons.2 ⟨hfirst', hothers'⟩)
  | _, _, _, .moduleDef _ hname hbody, h => by
    obtain ⟨hne, hstatements⟩ := hbody.occupied h.tail.tail
    exact .moduleDef (h.worded.tail.head.constant hname) hne hstatements
  | _, _, _, .useDef _ hname hpath, h => by
    refine .useDef ?_
    rw [Expr.isUsePath, h.worded.tail.head.constant hname,
      UsePath.all_isSpellable hpath h.worded.tail.tail, Bool.and_self]
  | _, _, _, .functionDef _ hname hparams hresult hbody, h => by
    have hafter := h.tail.tail.mono hparams.suffix
    obtain ⟨hne, hstatements⟩ := hbody.occupied (hafter.mono hresult.suffix)
    exact .functionDef (h.worded.tail.head.identifier hname) (hparams.isSpellable h.worded.tail.tail)
      (hresult.isSpellable hafter.worded) hne hstatements
  | _, _, _, .ifElse _ hcondition htrue hskip _ hfalse, h => by
    have hafter := h.tail.mono hcondition.takes.suffix
    obtain ⟨hne, hwhenTrue⟩ := htrue.occupied hafter
    obtain ⟨-, hwhenFalse⟩ := hfalse.occupied ((hafter.mono htrue.takes.suffix).skip hskip).tail
    exact .conditional (hcondition.wellFormed h.tail) hne hwhenTrue hwhenFalse
  | _, _, _, .ifOnly _ hcondition htrue _ _, h => by
    obtain ⟨hne, hwhenTrue⟩ := htrue.occupied (h.tail.mono hcondition.takes.suffix)
    exact .conditional (hcondition.wellFormed h.tail) hne hwhenTrue (by simp)

theorem Extension.wellFormed : ∀ {floor : Power} {left whole : Expr} {tokens rest : List Token},
    Extension file floor left tokens whole rest → left.WellFormed lists → Admits lists tokens →
      whole.WellFormed lists
  | _, _, _, _, _, .stop _, hleft, _ => hleft
  | _, _, _, _, _, .binary hpower _ hright hrest, hleft, h =>
    hrest.wellFormed (.binary hleft (List.mem_map_of_mem (mem_of_binaryPower? hpower))
      (hright.wellFormed h.tail))
      (h.tail.mono hright.takes.suffix)
  | _, _, _, _, _, .assign _ _ hvalue hrest, hleft, h =>
    hrest.wellFormed (.assign hleft (hvalue.wellFormed h.tail)) (h.tail.mono hvalue.takes.suffix)
  | _, _, _, _, _, .call _ _ htarget hrest, hleft, h =>
    hrest.wellFormed (hleft.call_callArguments (htarget.wellFormed h.tail) h.single)
      (h.tail.mono htarget.takes.suffix)

theorem Arguments.wellFormed : ∀ {tokens rest : List Token} {args : List Expr},
    Arguments file tokens args rest → Admits lists tokens → ∀ arg ∈ args, arg.WellFormed lists
  | _, _, _, .close _, _ => by simp
  | _, _, _, .next _ harg hothers, h =>
    List.forall_mem_cons.2 ⟨harg.wellFormed h.tail,
      hothers.wellFormed (h.tail.mono harg.takes.suffix)⟩

theorem Body.occupied : ∀ {tokens rest : List Token} {body : Expr},
    Body file tokens body rest → Admits lists tokens → Occupied lists body.toBlock
  | _, _, _, .block hskip hindent hcontents _, h => by
    have hfirst := h.skip hskip
    exact ⟨Statements.ne_nil hcontents (hfirst.opens _ _ List.suffix_rfl hindent),
      Statements.wellFormed hcontents hfirst.tail⟩
  | _, _, _, .single hexpr, h => by
    rw [Expr.toBlock_of_kind_ne hexpr.kind_ne]
    exact ⟨List.cons_ne_nil _ _, List.forall_mem_singleton.2 (hexpr.wellFormed h)⟩

theorem Statements.wellFormed : ∀ {tokens rest : List Token} {contents : List Expr},
    Statements file tokens contents rest → Admits lists tokens →
      ∀ statement ∈ contents, statement.WellFormed lists
  | _, _, _, .stop _, _ => by simp
  | _, _, _, .more hexpr hrest, h =>
    List.forall_mem_cons.2 ⟨hexpr.wellFormed h,
      Statements.wellFormed hrest (h.mono hexpr.takes.suffix)⟩

end

theorem Program.wellFormed {tokens rest : List Token} {contents : List Expr}
    (h : Program file tokens contents rest) (hwritten : Admits lists tokens) :
    ∀ statement ∈ contents, statement.WellFormed lists := by
  induction h with
  | stop => simp
  | more hexpr _ ih =>
    exact List.forall_mem_cons.2
      ⟨hexpr.wellFormed hwritten, ih (hwritten.mono hexpr.takes.suffix)⟩

end Phrase

variable {source : String} {file : Option String} {block : Block Expr}

/-- Which lists of arguments there are is up to the commas of the text. -/
theorem wellFormed_of_program {lists : Nat → Prop} (hempty : lists 0) (hsingle : ¬ lists 1)
    (h : (parse source file).result = .ok block)
    (hseveral : ∀ tokens, (tokenize source file).result = .ok tokens →
      ∀ token ∈ tokens, token.value = "," → ∀ count, 2 ≤ count → lists count) :
    ∀ statement ∈ block.contents, statement.WellFormed lists := by
  obtain ⟨tokens, last, htokens, -, hprogram⟩ := parse_eq_ok_iff.1 h
  exact hprogram.wellFormed ⟨written_of_tokenize htokens, hempty, hsingle, fun token hmem =>
    hseveral _ htokens token (List.mem_append_left _ hmem)⟩

/-- The statements of an accepted text are well formed, and so is all that is in them. No list of
arguments has exactly one. -/
theorem wellFormed_of_parse (h : (parse source file).result = .ok block) :
    ∀ statement ∈ block.contents, statement.WellFormed (· ≠ 1) :=
  wellFormed_of_program (by simp) (by simp) h fun _ _ _ _ _ count hcount => by omega

/-- Declarations, a conditional, and arguments that no call takes. -/
theorem wellFormed_of_parse_module :
    let source := "use A::\x7bB, C\x7d\nmodule M\n  fn f(x: A::B)\n    if x\n\n      (x, 1) -> A::g\n" ++
      "    else\n      () + \"s\"\n  (f, ())"
    ∃ block, (parse source none).result = .ok block ∧
      ∀ statement ∈ block.contents, statement.WellFormed (· ≠ 1) := by
  intro source
  obtain ⟨block, hblock⟩ := exists_of_isOk
    (by decide +kernel : (parse source none).result.isOk = true)
  exact ⟨block, hblock, wellFormed_of_parse hblock⟩

/-- Without a comma between its tokens a text has no list of arguments but the empty one. -/
theorem arguments_eq_nil_of_parse {tokens : List Token} (h : (parse source file).result = .ok block)
    (htokens : (tokenize source file).result = .ok tokens)
    (hcomma : ∀ token ∈ tokens, token.value ≠ ",") (origin : Origin) (args : List Expr)
    (hin : Expr.Within (.arguments origin args) (.block block)) : args = [] := by
  have hlists : ∀ statement ∈ block.contents, statement.WellFormed (· = 0) := by
    refine wellFormed_of_program rfl (by simp) h fun others hothers token hmem hvalue => ?_
    rw [htokens] at hothers
    cases hothers
    exact absurd hvalue (hcomma token hmem)
  exact List.length_eq_zero_iff.1 ((Expr.Part.block hlists).within hin).length_arguments

end Offside
