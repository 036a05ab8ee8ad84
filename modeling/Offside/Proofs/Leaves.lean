import Mathlib.Data.List.Forall2
import Offside.Proofs.Expr.Leaves
import Offside.Proofs.Program

/-!
# No token is lost

The leaves of the tree of a text (`Expr.leaves`) are the values of its tokens (`Token.leaf?`,
`Token.Says`), each once and in order: `leaves_of_parse`.

The proof is one induction over phrases: what carries a value in the tokens of a phrase is what its
tree has for leaves, in front of what carries a value in the tokens after it.
-/

namespace Offside

namespace Phrase

/-! ## Types -/

theorem Path.leaves {tokens rest : List Token} {path : List String} (h : Path tokens path rest)
    (hproper : Proper tokens) :
    Token.leaves tokens = (path.map Leaf.constant).map some ++ Token.leaves rest := by
  induction h with
  | stop h => rw [h.2]; rfl
  | more h _ ih =>
    obtain ⟨hcolons, hname⟩ := h
    rw [Token.leaves_mark hproper.head ("::", .special) hcolons, Token.leaves_constant hname,
      ih hproper.tail.tail]
    rfl

mutual

theorem TypeTerm.leaves : ∀ {tokens rest : List Token} {type : TypeExpr},
    TypeTerm tokens type rest → Proper tokens →
      Token.leaves tokens = type.leaves.map some ++ Token.leaves rest
  | _, _, _, .tuple hopen hentries, hproper => by
    rw [Token.leaves_mark hproper.head ("(", .leftParen) hopen, leaves_entries hentries hproper.tail,
      TypeExpr.leaves]
  | _, _, _, .array hopen hclose helement, hproper => by
    rw [Token.leaves_mark hproper.head ("[", .special) hopen,
      Token.leaves_mark hproper.tail.head ("]", .special) hclose,
      helement.leaves hproper.tail.tail, TypeExpr.leaves]
  | _, _, _, .function hfn hparams hresult, hproper => by
    rw [Token.leaves_keyword hfn, hparams.leaves hproper.tail,
      hresult.leaves (hproper.tail.mono hparams.suffix), TypeExpr.leaves, List.map_append,
      List.append_assoc]
  | _, _, _, .named hname hpath, hproper => by
    rw [Token.leaves_constant hname, Path.leaves hpath hproper.tail]
    rfl

theorem leaves_entries : ∀ {tokens rest : List Token} {entries : List (Option String × TypeExpr)},
    Items ")" Entry tokens entries rest → Proper tokens →
      Token.leaves tokens = (TypeExpr.entryLeaves entries).map some ++ Token.leaves rest
  | _, _, _, .nil hclose, hproper => by
    rw [Token.leaves_mark hproper.head (")", .rightParen) hclose]
    rfl
  | _, _, _, .last _ hitem hclose, hproper => by
    have hclose' := (hproper.mono hitem.takes.suffix).head
    rw [hitem.leaves hproper, Token.leaves_mark hclose' (")", .rightParen) hclose]
  | _, _, _, .more _ hitem hcomma hrest, hproper => by
    have hcomma' := hproper.mono hitem.takes.suffix
    rw [TypeExpr.entryLeaves_cons, hitem.leaves hproper,
      Token.leaves_mark hcomma'.head (",", .special) hcomma, leaves_entries hrest hcomma'.tail,
      List.map_append, List.append_assoc]

theorem Entry.leaves : ∀ {tokens rest : List Token} {entry : Option String × TypeExpr},
    Entry tokens entry rest → Proper tokens →
      Token.leaves tokens = (TypeExpr.entryLeaves [entry]).map some ++ Token.leaves rest
  | _, _, _, .named hname hcolon htype, hproper => by
    rw [Token.leaves_identifier hname, Token.leaves_mark hproper.tail.head (":", .special) hcolon,
      htype.leaves hproper.tail.tail]
    simp [TypeExpr.entryLeaves]
  | _, _, _, .unnamed _ htype, hproper => by
    rw [htype.leaves hproper]
    simp [TypeExpr.entryLeaves]

theorem leaves_types : ∀ {tokens rest : List Token} {types : List TypeExpr},
    Items ")" TypeTerm tokens types rest → Proper tokens →
      Token.leaves tokens = (TypeExpr.allLeaves types).map some ++ Token.leaves rest
  | _, _, _, .nil hclose, hproper => by
    rw [Token.leaves_mark hproper.head (")", .rightParen) hclose]
    rfl
  | _, _, _, .last _ hitem hclose, hproper => by
    have hclose' := (hproper.mono hitem.takes.suffix).head
    rw [hitem.leaves hproper, Token.leaves_mark hclose' (")", .rightParen) hclose]
    simp [TypeExpr.allLeaves]
  | _, _, _, .more _ hitem hcomma hrest, hproper => by
    have hcomma' := hproper.mono hitem.takes.suffix
    rw [hitem.leaves hproper, Token.leaves_mark hcomma'.head (",", .special) hcomma,
      leaves_types hrest hcomma'.tail, TypeExpr.allLeaves, List.map_append, List.append_assoc]

theorem Domain.leaves : ∀ {tokens rest : List Token} {params : List TypeExpr},
    Domain tokens params rest → Proper tokens →
      Token.leaves tokens = (TypeExpr.allLeaves params).map some ++ Token.leaves rest
  | _, _, _, .list hopen hparams, hproper => by
    rw [Token.leaves_mark hproper.head ("(", .leftParen) hopen, leaves_types hparams hproper.tail]
  | _, _, _, .single _ htype, hproper => by
    rw [htype.leaves hproper]
    simp [TypeExpr.allLeaves]
  | _, _, _, .none _, _ => rfl

theorem Codomain.leaves : ∀ {tokens rest : List Token} {result : Option TypeExpr},
    Codomain tokens result rest → Proper tokens →
      Token.leaves tokens = (TypeExpr.resultLeaves result).map some ++ Token.leaves rest
  | _, _, _, .some harrow htype, hproper => by
    rw [Token.leaves_mark hproper.head ("->", .special) harrow, htype.leaves hproper.tail]
    rfl
  | _, _, _, .none _, _ => rfl

end

/-! ## Declarations and expressions -/

theorem Items.leaves {α : Type} {closing : String} {item : Phrase α} {leaves : α → List Leaf}
    {tokens rest : List Token} {found : List α}
    (hclosing : closing = ")" ∨ closing = "\x7d")
    (htakes : ∀ tokens a rest, item tokens a rest → Takes tokens rest)
    (hitem : ∀ tokens a rest, item tokens a rest → Proper tokens →
      Token.leaves tokens = (leaves a).map some ++ Token.leaves rest)
    (h : Items closing item tokens found rest) (hproper : Proper tokens) :
    Token.leaves tokens = (found.flatMap leaves).map some ++ Token.leaves rest := by
  have hclose {token : Token} {tokens : List Token} (htoken : token.Proper)
      (hvalue : token.value = closing) : Token.leaves (token :: tokens) = Token.leaves tokens := by
    rcases hclosing with rfl | rfl
    · exact Token.leaves_mark htoken (")", .rightParen) hvalue
    · exact Token.leaves_mark htoken ("\x7d", .special) hvalue
  induction h with
  | nil hvalue => rw [hclose hproper.head hvalue]; rfl
  | last _ h hvalue =>
    have hproper' := hproper.mono (htakes _ _ _ h).suffix
    rw [hitem _ _ _ h hproper, hclose hproper'.head hvalue, List.flatMap_singleton]
  | more _ h hcomma _ ih =>
    have hproper' := hproper.mono (htakes _ _ _ h).suffix
    rw [hitem _ _ _ h hproper, Token.leaves_mark hproper'.head (",", .special) hcomma,
      ih hproper'.tail, List.flatMap_cons, List.map_append, List.append_assoc]

theorem ModuleName.leaves {tokens rest : List Token} {name : String}
    (h : ModuleName tokens name rest) :
    Token.leaves tokens = some (.constant name) :: Token.leaves rest := by
  obtain ⟨token, rfl, hkind, rfl⟩ := h
  exact Token.leaves_constant hkind

theorem Segment.leaves {tokens rest : List Token} {segment : UseSegment}
    (h : Segment tokens segment rest) (hproper : Proper tokens) :
    Token.leaves tokens = segment.leaves.map some ++ Token.leaves rest := by
  cases h with
  | module hname => exact Token.leaves_constant hname
  | @alternatives _ _ _ names hbrace hnames =>
    have hitem (tokens : List Token) (name : String) (rest : List Token)
        (h : ModuleName tokens name rest) (_ : Proper tokens) :
        Token.leaves tokens = [Leaf.constant name].map some ++ Token.leaves rest := h.leaves
    rw [Token.leaves_mark hproper.head ("\x7b", .special) hbrace,
      hnames.leaves (.inr rfl) (fun _ _ _ => ModuleName.takes) hitem hproper.tail,
      UseSegment.leaves, List.map_eq_flatMap (f := Leaf.constant)]

theorem UsePath.leaves {tokens rest : List Token} {path : List UseSegment}
    (h : Many UseStep (Before (·.value ≠ "::")) tokens path rest) (hproper : Proper tokens) :
    Token.leaves tokens = (path.flatMap UseSegment.leaves).map some ++ Token.leaves rest := by
  induction h with
  | stop h => rw [h.2]; rfl
  | more h _ ih =>
    have hproper' := hproper.mono h.takes.suffix
    obtain ⟨hcolons, hsegment⟩ := h
    rw [Token.leaves_mark hproper.head ("::", .special) hcolons, hsegment.leaves hproper.tail,
      ih hproper', List.flatMap_cons, List.map_append, List.append_assoc]

theorem Scope.leaves {tokens rest : List Token} {path : List String × String}
    (h : Scope tokens path rest) (hproper : Proper tokens) :
    Token.leaves tokens =
      (path.1.map Leaf.constant ++ [Leaf.identifier path.2]).map some ++ Token.leaves rest := by
  induction h with
  | name hcolons hname =>
    rw [Token.leaves_mark hproper.head ("::", .special) hcolons, Token.leaves_identifier hname]
    rfl
  | module hcolons hmodule _ ih =>
    rw [Token.leaves_mark hproper.head ("::", .special) hcolons, Token.leaves_constant hmodule,
      ih hproper.tail.tail]
    rfl

theorem Param.leaves {tokens rest : List Token} {param : Parameter} (h : Param tokens param rest)
    (hproper : Proper tokens) :
    Token.leaves tokens = param.leaves.map some ++ Token.leaves rest := by
  obtain ⟨hname, hcolon, htype⟩ := h
  rw [Token.leaves_identifier hname, Token.leaves_mark hproper.tail.head (":", .special) hcolon,
    htype.leaves hproper.tail.tail]
  rfl

theorem Params.leaves {tokens rest : List Token} {params : List Parameter}
    (h : Params tokens params rest) (hproper : Proper tokens) :
    Token.leaves tokens = (params.flatMap Parameter.leaves).map some ++ Token.leaves rest := by
  cases h with
  | single hparam => rw [hparam.leaves hproper, List.flatMap_singleton]
  | list hopen hparams =>
    rw [Token.leaves_shape (by simp [hopen]), hparams.leaves (.inl rfl)
      (fun _ _ _ h => h.takes) (fun _ _ _ h => h.leaves) hproper.tail]
  | none => rfl

variable {file : String}

theorem leaves_literal {token : Token} {tokens : List Token} {expr : Expr}
    (h : token.literal? = some expr) :
    Token.leaves (token :: tokens) = expr.leaves.map some ++ Token.leaves tokens := by
  obtain ⟨hcontent, hleaf⟩ : token.isContent = true ∧ [token.leaf?] = expr.leaves.map some := by
    simp only [Token.literal?] at h
    split at h
    · rename_i hkind
      split at h
      · cases h
        simp [Token.isContent, Token.leaf?, Expr.leaves, *]
      · split at h
        · cases h
          simp [Token.isContent, Token.leaf?, Expr.leaves, *]
        · cases h
    · rename_i hkind
      obtain ⟨value, hvalue, rfl⟩ := Option.map_eq_some_iff.1 h
      simp [Token.isContent, Token.leaf?, hkind, Expr.leaves, hvalue]
    · rename_i hkind
      obtain ⟨value, hvalue, rfl⟩ := Option.map_eq_some_iff.1 h
      simp [Token.isContent, Token.leaf?, hkind, Expr.leaves, hvalue]
    · rename_i hkind
      cases h
      simp [Token.isContent, Token.leaf?, hkind, Expr.leaves, Grammar.unquoted_eq]
    · rename_i hkind
      cases h
      simp [Token.isContent, Token.leaf?, hkind, Expr.leaves]
    · cases h
  rw [Token.leaves_cons_of_isContent hcontent, ← hleaf]
  rfl

theorem leaves_pastNewline (tokens : List Token) :
    Token.leaves (pastNewline tokens) = Token.leaves tokens := by
  cases tokens with
  | nil => rfl
  | cons token tokens =>
    rw [pastNewline]
    split
    · rename_i hnewline
      have hkind : token.kind = .newline := beq_iff_eq.1 hnewline
      rw [Token.leaves_shape (by simp [hkind])]
    · rfl

/-- The end of a block carries no value. -/
theorem leaves_of_endsBlock {tokens middle : List Token} (h : EndsBlock tokens middle) :
    Token.leaves (pastNewline middle.tail) = Token.leaves middle := by
  rw [leaves_pastNewline]
  cases middle with
  | nil => rfl
  | cons token others =>
    have hkind : token.kind = .outdent := ahead_cons.1 h.2
    rw [List.tail_cons, Token.leaves_shape (by simp [hkind])]

mutual

theorem Expression.leaves : ∀ {floor : Power} {tokens rest : List Token} {expr : Expr},
    Expression file floor tokens expr rest → Proper tokens →
      Token.leaves tokens = expr.leaves.map some ++ Token.leaves rest
  | _, tokens, _, _, .intro hskip hstart hextend, hproper => by
    have hproper' := hproper.mono (List.dropWhile_suffix Token.isNewline)
    rw [← Token.leaves_dropWhile]
    rw [hskip] at hproper' ⊢
    rw [hstart.leaves hproper', Expr.leaves_stamp]
    exact (hextend.leaves (hproper'.mono hstart.takes.suffix)).symm

theorem Start.leaves : ∀ {tokens rest : List Token} {expr : Expr},
    Start file tokens expr rest → Proper tokens →
      Token.leaves tokens = expr.leaves.map some ++ Token.leaves rest
  | _, _, _, .literal h, _ => leaves_literal h
  | _, _, _, .reference hkind hscope, hproper => by
    rw [Token.leaves_constant hkind, hscope.leaves hproper.tail]
    rfl
  | _, _, _, .unit hopen hclose, hproper => by
    rw [Token.leaves_shape (by simp [hopen]),
      Token.leaves_mark hproper.tail.head (")", .rightParen) hclose]
    rfl
  | _, _, _, .group hopen hexpr hclose, hproper => by
    have hproper' := hproper.tail.mono hexpr.takes.suffix
    rw [Token.leaves_shape (by simp [hopen]), hexpr.leaves hproper.tail,
      Token.leaves_mark hproper'.head (")", .rightParen) hclose]
  | _, _, _, .arguments hopen hfirst hothers, hproper => by
    rw [Token.leaves_shape (by simp [hopen]), hfirst.leaves hproper.tail,
      hothers.leaves (hproper.tail.mono hfirst.takes.suffix)]
    simp [Expr.leaves, Expr.leavesAll]
  | _, _, _, .moduleDef hmodule hname hbody, hproper => by
    rw [Token.leaves_keyword hmodule, Token.leaves_constant hname, hbody.leaves hproper.tail.tail]
    simp [Expr.leaves]
  | _, _, _, .useDef huse hname hpath, hproper => by
    rw [Token.leaves_keyword huse, Token.leaves_constant hname,
      UsePath.leaves hpath hproper.tail.tail]
    rfl
  | _, _, _, .functionDef hfn hname hparams hresult hbody, hproper => by
    have hproper₁ := hproper.tail.tail.mono hparams.suffix
    rw [Token.leaves_keyword hfn, Token.leaves_identifier hname, hparams.leaves hproper.tail.tail,
      hresult.leaves hproper₁, hbody.leaves (hproper₁.mono hresult.suffix)]
    simp [Expr.leaves]
  | _, _, _, .ifElse hif hcondition htrue hskip helse hfalse, hproper => by
    have hproper₁ := hproper.tail.mono hcondition.takes.suffix
    have hproper₂ := hproper₁.mono htrue.takes.suffix
    have hproper₃ := hproper₂.mono (List.dropWhile_suffix Token.isNewline)
    rw [hskip] at hproper₃
    rw [Token.leaves_keyword hif, hcondition.leaves hproper.tail, htrue.leaves hproper₁,
      ← Token.leaves_dropWhile, hskip, Token.leaves_keyword helse, hfalse.leaves hproper₃.tail]
    simp [Expr.leaves]
  | _, _, _, .ifOnly hif hcondition htrue hrest _, hproper => by
    have hproper₁ := hproper.tail.mono hcondition.takes.suffix
    rw [Token.leaves_keyword hif, hcondition.leaves hproper.tail, htrue.leaves hproper₁, hrest,
      Token.leaves_dropWhile]
    simp [Expr.leaves, Expr.leavesBlock, Expr.leavesAll]

theorem Extension.leaves : ∀ {floor : Power} {left whole : Expr} {tokens rest : List Token},
    Extension file floor left tokens whole rest → Proper tokens →
      whole.leaves.map some ++ Token.leaves rest = left.leaves.map some ++ Token.leaves tokens
  | _, _, _, _, _, .stop _, _ => rfl
  | _, _, _, _, _, .binary hpower _ hright hrest, hproper => by
    have hkind := kind_of_binaryPower? hpower
    rw [hrest.leaves (hproper.tail.mono hright.takes.suffix), Token.leaves_operator hkind,
      hright.leaves hproper.tail]
    simp [Expr.leaves]
  | _, _, _, _, _, .assign hequals _ hvalue hrest, hproper => by
    rw [hrest.leaves (hproper.tail.mono hvalue.takes.suffix),
      Token.leaves_mark hproper.head ("=", .special) hequals, hvalue.leaves hproper.tail]
    simp [Expr.leaves]
  | _, _, _, _, _, .call harrow _ htarget hrest, hproper => by
    rw [hrest.leaves (hproper.tail.mono htarget.takes.suffix),
      Token.leaves_mark hproper.head ("->", .special) harrow, htarget.leaves hproper.tail]
    simp [Expr.leaves]

theorem Arguments.leaves : ∀ {tokens rest : List Token} {args : List Expr},
    Arguments file tokens args rest → Proper tokens →
      Token.leaves tokens = (Expr.leavesAll args).map some ++ Token.leaves rest
  | _, _, _, .close hclose, hproper => by
    rw [Token.leaves_mark hproper.head (")", .rightParen) hclose]
    rfl
  | _, _, _, .next hcomma harg hothers, hproper => by
    rw [Token.leaves_mark hproper.head (",", .special) hcomma, harg.leaves hproper.tail,
      hothers.leaves (hproper.tail.mono harg.takes.suffix), Expr.leavesAll, List.map_append,
      List.append_assoc]

theorem Body.leaves : ∀ {tokens rest : List Token} {body : Expr},
    Body file tokens body rest → Proper tokens →
      Token.leaves tokens = body.leaves.map some ++ Token.leaves rest
  | _, _, _, .block hskip hindent hcontents hrest, hproper => by
    have hproper' := hproper.mono (List.dropWhile_suffix Token.isNewline)
    rw [hskip] at hproper'
    rw [← Token.leaves_dropWhile, hskip, Token.leaves_shape (by simp [hindent]),
      Statements.leaves hcontents hproper'.tail, hrest]
    obtain ⟨_, hend⟩ := hcontents.exists_stop
    rw [leaves_of_endsBlock hend]
    rfl
  | _, _, _, .single hexpr, hproper => hexpr.leaves hproper

theorem Statements.leaves : ∀ {tokens rest : List Token} {contents : List Expr},
    Statements file tokens contents rest → Proper tokens →
      Token.leaves tokens = (Expr.leavesAll contents).map some ++ Token.leaves rest
  | _, _, _, .stop hend, _ => by
    rw [hend.1, Token.leaves_dropWhile]
    rfl
  | _, _, _, .more hexpr hrest, hproper => by
    rw [hexpr.leaves hproper, Statements.leaves hrest (hproper.mono hexpr.takes.suffix),
      Expr.leavesAll, List.map_append, List.append_assoc]

end

theorem Program.leaves {tokens rest : List Token} {contents : List Expr}
    (h : Program file tokens contents rest) (hproper : Proper tokens) :
    Token.leaves tokens = (Expr.leavesAll contents).map some := by
  induction h with
  | stop h =>
    rw [← Token.leaves_dropWhile, h.1, h.2]
    rfl
  | more hexpr _ ih =>
    rw [hexpr.leaves hproper, ih (hproper.mono hexpr.takes.suffix), Expr.leavesAll, List.map_append]

end Phrase

theorem Token.delivered_of_tokenize {source : String} {file : Option String} {tokens : List Token}
    (h : (tokenize source file).result = .ok tokens) : ∀ token ∈ tokens, token.Delivered := by
  intro token hmem
  obtain ⟨-, rfl⟩ := mapM_result_eq_ok_iff.1 h
  exact ⟨source, file, Cursor.mem_tokens hmem⟩

/-- The tokens of an accepted text that carry a value are the leaves of its tree, one for one and in
order. Each of them says its leaf. -/
theorem leaves_of_parse {source : String} {file : Option String} {block : Block Expr}
    (h : (parse source file).result = .ok block) :
    ∃ tokens, (tokenize source file).result = .ok tokens ∧
      (tokens.filter Token.isContent).map Token.leaf? = (Expr.block block).leaves.map some ∧
      List.Forall₂ Token.Says (tokens.filter Token.isContent) (Expr.block block).leaves := by
  obtain ⟨tokens, last, htokens, -, hprogram⟩ := parse_eq_ok_iff.1 h
  obtain ⟨hview, hlast⟩ := inView_of_tokenize htokens
  have hleaves : ((tokens ++ [last]).filter Token.isContent).map Token.leaf? =
      (Expr.block block).leaves.map some := by
    have hnone : [last].filter Token.isContent = [] := by
      simp [Token.isContent, hlast.kind_eq]
    rw [List.filter_append, hnone, List.append_nil]
    obtain ⟨origin, contents⟩ := block
    exact hprogram.leaves fun token hmem => (hview token hmem).proper
  have hpairs : List.Forall₂ (fun token leaf => token.leaf? = some leaf)
      ((tokens ++ [last]).filter Token.isContent) (Expr.block block).leaves := by
    have heq : List.Forall₂ Eq _ _ := List.forall₂_eq_eq_eq ▸ hleaves
    exact List.forall₂_map_left_iff.1 (List.forall₂_map_right_iff.1 heq)
  have hkept : ∀ token ∈ (tokens ++ [last]).filter Token.isContent,
      token.Delivered ∧ token.isContent = true := by
    intro token hmem
    obtain ⟨hmem, hcontent⟩ := List.mem_filter.1 hmem
    exact ⟨Token.delivered_of_tokenize htokens token hmem, hcontent⟩
  have hsaid := (List.forall₂_and_left _ _).2 ⟨hkept, hpairs⟩
  refine ⟨tokens ++ [last], htokens, hleaves, hsaid.imp ?_⟩
  rintro token leaf ⟨⟨hdelivered, hcontent⟩, hleaf⟩
  exact hdelivered.says hcontent hleaf

theorem leaves_of_parse_call :
    ∃ block tokens, (parse "(a, 1) -> g" none).result = .ok block ∧
      (tokenize "(a, 1) -> g" none).result = .ok tokens ∧
        (tokens.filter Token.isContent).map Token.leaf? = (Expr.block block).leaves.map some ∧
        List.Forall₂ Token.Says (tokens.filter Token.isContent) (Expr.block block).leaves := by
  obtain ⟨block, hblock⟩ := exists_of_isOk
    (by decide +kernel : (parse "(a, 1) -> g" none).result.isOk = true)
  obtain ⟨tokens, htokens, hleaves, hsays⟩ := leaves_of_parse hblock
  exact ⟨block, tokens, hblock, htokens, hleaves, hsays⟩

end Offside
