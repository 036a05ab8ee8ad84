import Offside.Proofs.Expr.Bare
import Offside.Proofs.Positions

/-!
# Lists of arguments that stay in the tree

A list in parentheses starts an expression wherever one may start, and the arrow behind it takes it
apart. Every list that is left in the tree of a text, unless it is the empty one, stands in the text
where no arrow reaches it: none follows it, or the list is the right operand of a token that binds at
least as strongly as an arrow (`leftover_of_parse`).

This cannot be said of an expression when it has been read, since it may be the list that an arrow
takes apart next. So the induction over phrases is about the nodes below an expression
(`Phrase.Expression.children_spent`), and the expression itself joins them where it becomes the child
of another (`Phrase.Expression.spent`, `Phrase.Operand.spent`).
-/

namespace Offside

namespace Phrase

/-- A list of arguments stands in the tokens where no arrow takes it. -/
inductive Leftover (file : String) (whole : List Token) (list : Expr) : Prop
  /-- No arrow follows the list. -/
  | apart {tokens rest : List Token} {start : Expr} (hplace : tokens <:+ whole)
    (hstart : Start file tokens start rest) (hlist : start.bare = list.bare)
    (harrow : Ahead (·.value ≠ "->") rest)
  /-- The list is the right operand of a token that binds at least as strongly as an arrow. -/
  | operand {operator : Token} {tokens rest : List Token} {start : Expr}
    (hplace : operator :: tokens <:+ whole) (hpower : Power.call ≤ operator.power)
    (hstart : Start file (tokens.dropWhile Token.isNewline) start rest)
    (hlist : start.bare = list.bare)

theorem Leftover.congr {file : String} {whole : List Token} {list list' : Expr}
    (h : Leftover file whole list) (hbare : list.bare = list'.bare) : Leftover file whole list' := by
  cases h with
  | apart hplace hstart hlist harrow => exact .apart hplace hstart (hlist.trans hbare) harrow
  | operand hplace hpower hstart hlist => exact .operand hplace hpower hstart (hlist.trans hbare)

end Phrase

open Phrase (Leftover)

/-! ## Trees -/

namespace Expr

/-- The lists of arguments in the tree are empty or left over. -/
inductive Spent (file : String) (whole : List Token) : Expr → Prop
  | node {expr : Expr}
    (hlist : expr.kind = .arguments → expr.children = [] ∨ Leftover file whole expr)
    (hchildren : ∀ child ∈ expr.children, Spent file whole child) : Spent file whole expr

variable {file : String} {whole : List Token}

theorem Spent.of_kind_ne {expr : Expr} (hkind : expr.kind ≠ .arguments)
    (hchildren : ∀ child ∈ expr.children, Spent file whole child) : Spent file whole expr :=
  .node (fun h => absurd h hkind) hchildren

theorem Spent.children {expr : Expr} (h : Spent file whole expr) :
    ∀ child ∈ expr.children, Spent file whole child := by
  cases h with
  | node _ hchildren => exact hchildren

theorem Spent.stamp (origin : Origin) {expr : Expr} (h : Spent file whole expr) :
    Spent file whole (expr.stamp origin) := by
  induction h with
  | @node expr hlist hchildren ih =>
    by_cases hblock : expr.kind = .block
    · rw [stamp_of_kind_eq hblock]
      exact .node hlist hchildren
    · refine .node (fun hkind => ?_) (forall_children_stamp hblock ih)
      rw [kind_stamp] at hkind
      rw [children_stamp hblock]
      obtain hnil | hleft := hlist hkind
      · exact .inl (by rw [hnil, List.map_nil])
      · exact .inr (hleft.congr (bare_stamp origin expr).symm)

theorem spent_children_stamp (origin : Origin) {expr : Expr}
    (h : ∀ child ∈ expr.children, Spent file whole child) :
    ∀ child ∈ (expr.stamp origin).children, Spent file whole child := by
  by_cases hblock : expr.kind = .block
  · rwa [stamp_of_kind_eq hblock]
  · exact forall_children_stamp hblock fun child hchild => (h child hchild).stamp origin

/-- A branch that is missing. -/
theorem spent_empty : Spent file whole (.block {}) :=
  .of_kind_ne nofun (by simp [children])

theorem Spent.toBlock {expr : Expr} (h : Spent file whole expr) :
    Spent file whole (.block expr.toBlock) := by
  by_cases hblock : expr.kind = .block
  · cases expr <;> first | exact h | cases hblock
  · rw [toBlock_of_kind_ne hblock]
    exact .of_kind_ne nofun (List.forall_mem_singleton.2 h)

theorem Spent.within {inner outer : Expr} (h : Spent file whole outer) (hin : Within inner outer) :
    Spent file whole inner := by
  induction hin with
  | refl => exact h
  | child hchild _ ih => exact ih (h.children _ hchild)

end Expr

open Offside.Expr (Spent)

/-! ## Phrases -/

namespace Phrase

variable {file : String} {whole : List Token}

theorem suffix_of_cons {token : Token} {tokens : List Token} (h : token :: tokens <:+ whole) :
    tokens <:+ whole :=
  (List.suffix_cons _ _).trans h

theorem suffix_of_skip {token : Token} {tokens others : List Token} (hsuffix : tokens <:+ whole)
    (hskip : tokens.dropWhile Token.isNewline = token :: others) : token :: others <:+ whole :=
  (hskip ▸ List.dropWhile_suffix _ : token :: others <:+ tokens).trans hsuffix

/-- Where an expression is read above the floor: an arrow still extends it there, or else the token
before it binds at least as strongly as an arrow. -/
inductive Placed (whole : List Token) : Power → List Token → Prop
  | loose {floor : Power} {tokens : List Token} (hsuffix : tokens <:+ whole)
    (hfloor : floor < .call) : Placed whole floor tokens
  | operand {operator : Token} {tokens : List Token} (hplace : operator :: tokens <:+ whole)
    (hpower : Power.call ≤ operator.power) : Placed whole operator.power tokens

theorem placed_lowest {tokens : List Token} (hsuffix : tokens <:+ whole) :
    Placed whole .lowest tokens :=
  .loose hsuffix (by decide)

theorem call_le_of_binaryPower? {token : Token} {power : Power}
    (h : token.binaryPower? = some power) : Power.call ≤ power := by
  have hrows : ∀ row ∈ Grammar.operatorPowers, Power.call ≤ row.2 := by decide
  exact hrows _ (mem_of_binaryPower? h)

/-- The right operand of a binary operator. -/
theorem placed_right {token : Token} {power : Power} {tokens : List Token}
    (hpower : token.binaryPower? = some power) (hplace : token :: tokens <:+ whole) :
    Placed whole power tokens := by
  rw [← Grammar.power_of_binary hpower]
  refine .operand hplace ?_
  rw [Grammar.power_of_binary hpower]
  exact call_le_of_binaryPower? hpower

/-- What a call applies. -/
theorem placed_target {token : Token} {tokens : List Token} (harrow : token.value = "->")
    (hplace : token :: tokens <:+ whole) : Placed whole .call tokens := by
  rw [← Grammar.power_of_arrow harrow]
  refine .operand hplace ?_
  rw [Grammar.power_of_arrow harrow]
  decide

/-- A list of arguments is not the result of an extension. -/
theorem Extension.eq_of_arguments {floor : Power} {left extended : Expr} {tokens rest : List Token}
    (h : Extension file floor left tokens extended rest) (hkind : extended.kind = .arguments) :
    extended = left ∧ rest = tokens ∧ Ahead (¬ floor < ·.power) rest := by
  have hloops := Grammar.loops_of_extension h
  clear h
  induction hloops with
  | done h =>
    cases h with
    | stop h => exact ⟨rfl, rfl, h⟩
  | again h _ ih =>
    obtain ⟨rfl, -⟩ := ih hkind
    cases h <;> cases hkind

/-- An expression is spent where it becomes a child, when what is below it is. -/
theorem Expression.spent {floor : Power} {tokens rest : List Token} {expr : Expr}
    (h : Expression file floor tokens expr rest) (hplaced : Placed whole floor tokens)
    (hbelow : ∀ child ∈ expr.children, Spent file whole child) : Spent file whole expr := by
  refine .node (fun hkind => .inr ?_) hbelow
  obtain ⟨hskip, hstart, hextend⟩ := h
  rw [Expr.kind_stamp] at hkind
  obtain ⟨rfl, rfl, hahead⟩ := hextend.eq_of_arguments hkind
  cases hplaced with
  | loose hsuffix hfloor =>
    refine .apart (suffix_of_skip hsuffix hskip) hstart (Expr.bare_stamp _ _).symm
      fun token htoken harrow => hahead token htoken ?_
    rwa [Grammar.power_of_arrow harrow]
  | operand hplace hpower =>
    exact .operand hplace hpower (hskip ▸ hstart) (Expr.bare_stamp _ _).symm

/-- What stands on the left of the tokens, and may be extended by them. -/
structure Operand (file : String) (whole : List Token) (left : Expr) (tokens : List Token) :
    Prop where
  start : left.kind = .arguments → ∃ early, early <:+ whole ∧ Start file early left tokens
  children : ∀ child ∈ left.children, Spent file whole child

theorem operand_of_kind_ne {left : Expr} {tokens : List Token} (hkind : left.kind ≠ .arguments)
    (hbelow : ∀ child ∈ left.children, Spent file whole child) : Operand file whole left tokens :=
  ⟨fun h => absurd h hkind, hbelow⟩

/-- Any token but an arrow leaves the list on its left as it is. -/
theorem Operand.spent {left : Expr} {token : Token} {tokens : List Token}
    (h : Operand file whole left (token :: tokens)) (harrow : token.value ≠ "->") :
    Spent file whole left := by
  refine .node (fun hkind => .inr ?_) h.children
  obtain ⟨early, hsuffix, hstart⟩ := h.start hkind
  exact .apart hsuffix hstart rfl (ahead_cons.2 harrow)

/-- An arrow takes the list on its left apart. -/
theorem Operand.callArguments {left : Expr} {tokens : List Token}
    (h : Operand file whole left tokens) : ∀ arg ∈ left.callArguments, Spent file whole arg :=
  Expr.forall_callArguments h.children fun hkind => .of_kind_ne hkind h.children

mutual

theorem Expression.children_spent : ∀ {floor : Power} {tokens rest : List Token} {expr : Expr},
    Expression file floor tokens expr rest → tokens <:+ whole →
      ∀ child ∈ expr.children, Spent file whole child
  | _, _, _, _, .intro hskip hstart hextend, hsuffix => by
    have hfirst := suffix_of_skip hsuffix hskip
    have hoperand := Operand.mk (fun _ => ⟨_, hfirst, hstart⟩) (hstart.children_spent hfirst)
    have hafter := hstart.takes.suffix.trans hfirst
    exact Expr.spent_children_stamp _ (hextend.children_spent hafter hoperand)

theorem Start.children_spent : ∀ {tokens rest : List Token} {expr : Expr},
    Start file tokens expr rest → tokens <:+ whole → ∀ child ∈ expr.children, Spent file whole child
  | _, _, _, .literal hliteral, _ => by simp [(Token.leaf_of_literal hliteral).2]
  | _, _, _, .reference _ _, _ => by simp [Expr.children]
  | _, _, _, .unit _ _, _ => by simp [Expr.children]
  | _, _, _, .group _ hexpr _, hsuffix => hexpr.children_spent (suffix_of_cons hsuffix)
  | _, _, _, .arguments _ hfirst hothers, hsuffix => by
    have hinner := suffix_of_cons hsuffix
    exact List.forall_mem_cons.2
      ⟨hfirst.spent (placed_lowest hinner) (hfirst.children_spent hinner),
        hothers.spent (hfirst.takes.suffix.trans hinner)⟩
  | _, _, _, .moduleDef _ _ hbody, hsuffix =>
    List.forall_mem_singleton.2 (hbody.spent (suffix_of_cons (suffix_of_cons hsuffix))).toBlock
  | _, _, _, .useDef _ _ _, _ => by simp [Expr.children]
  | _, _, _, .functionDef _ _ hparams hresult hbody, hsuffix => by
    have hinner := (hresult.suffix.trans hparams.suffix).trans
      (suffix_of_cons (suffix_of_cons hsuffix))
    refine List.forall_mem_append.2 ⟨fun child hchild => ?_,
      List.forall_mem_singleton.2 (hbody.spent hinner).toBlock⟩
    obtain ⟨param, -, rfl⟩ := List.mem_map.1 hchild
    exact .of_kind_ne nofun (by simp [Expr.children])
  | _, _, _, .ifElse _ hcondition htrue hskip _ hfalse, hsuffix => by
    have hinner := suffix_of_cons hsuffix
    have hafter := hcondition.takes.suffix.trans hinner
    have helse := suffix_of_cons (suffix_of_skip (htrue.takes.suffix.trans hafter) hskip)
    have hcondition' := hcondition.spent (placed_lowest hinner) (hcondition.children_spent hinner)
    exact List.forall_mem_cons.2 ⟨hcondition', List.forall_mem_cons.2
      ⟨(htrue.spent hafter).toBlock, List.forall_mem_singleton.2 (hfalse.spent helse).toBlock⟩⟩
  | _, _, _, .ifOnly _ hcondition htrue _ _, hsuffix => by
    have hinner := suffix_of_cons hsuffix
    have hcondition' := hcondition.spent (placed_lowest hinner) (hcondition.children_spent hinner)
    have htrue' := htrue.spent (hcondition.takes.suffix.trans hinner)
    exact List.forall_mem_cons.2 ⟨hcondition', List.forall_mem_cons.2
      ⟨htrue'.toBlock, List.forall_mem_singleton.2 Expr.spent_empty⟩⟩

theorem Extension.children_spent : ∀ {floor : Power} {left extended : Expr}
    {tokens rest : List Token}, Extension file floor left tokens extended rest →
      tokens <:+ whole → Operand file whole left tokens →
        ∀ child ∈ extended.children, Spent file whole child
  | _, _, _, _, _, .stop _, _, hleft => hleft.children
  | _, _, _, _, _, .binary hpower _ hright hrest, hsuffix, hleft => by
    have hinner := suffix_of_cons hsuffix
    have hright' := hright.spent (placed_right hpower hsuffix) (hright.children_spent hinner)
    exact hrest.children_spent (hright.takes.suffix.trans hinner) (operand_of_kind_ne nofun
      (List.forall_mem_cons.2 ⟨hleft.spent (Grammar.value_ne_of_binaryPower? hpower).2,
        List.forall_mem_singleton.2 hright'⟩))
  | _, _, _, _, _, .assign hequals _ hvalue hrest, hsuffix, hleft => by
    have hinner := suffix_of_cons hsuffix
    have hvalue' := hvalue.spent (placed_lowest hinner) (hvalue.children_spent hinner)
    exact hrest.children_spent (hvalue.takes.suffix.trans hinner) (operand_of_kind_ne nofun
      (List.forall_mem_cons.2 ⟨hleft.spent (by simp [hequals]),
        List.forall_mem_singleton.2 hvalue'⟩))
  | _, _, _, _, _, .call harrow _ htarget hrest, hsuffix, hleft => by
    have hinner := suffix_of_cons hsuffix
    have htarget' := htarget.spent (placed_target harrow hsuffix) (htarget.children_spent hinner)
    exact hrest.children_spent (htarget.takes.suffix.trans hinner) (operand_of_kind_ne nofun
      (List.forall_mem_cons.2 ⟨htarget', hleft.callArguments⟩))

theorem Arguments.spent : ∀ {tokens rest : List Token} {args : List Expr},
    Arguments file tokens args rest → tokens <:+ whole → ∀ arg ∈ args, Spent file whole arg
  | _, _, _, .close _, _ => by simp
  | _, _, _, .next _ harg hothers, hsuffix => by
    have hinner := suffix_of_cons hsuffix
    exact List.forall_mem_cons.2 ⟨harg.spent (placed_lowest hinner) (harg.children_spent hinner),
      hothers.spent (harg.takes.suffix.trans hinner)⟩

theorem Body.spent : ∀ {tokens rest : List Token} {body : Expr},
    Body file tokens body rest → tokens <:+ whole → Spent file whole body
  | _, _, _, .block hskip _ hcontents _, hsuffix =>
    .of_kind_ne nofun (Statements.spent hcontents (suffix_of_cons (suffix_of_skip hsuffix hskip)))
  | _, _, _, .single hexpr, hsuffix => hexpr.spent (placed_lowest hsuffix) (hexpr.children_spent hsuffix)

theorem Statements.spent : ∀ {tokens rest : List Token} {contents : List Expr},
    Statements file tokens contents rest → tokens <:+ whole →
      ∀ statement ∈ contents, Spent file whole statement
  | _, _, _, .stop _, _ => by simp
  | _, _, _, .more hexpr hrest, hsuffix =>
    List.forall_mem_cons.2 ⟨hexpr.spent (placed_lowest hsuffix) (hexpr.children_spent hsuffix),
      Statements.spent hrest (hexpr.takes.suffix.trans hsuffix)⟩

end

theorem Program.spent {tokens rest : List Token} {contents : List Expr}
    (h : Program file tokens contents rest) (hsuffix : tokens <:+ whole) :
    ∀ statement ∈ contents, Spent file whole statement := by
  induction h with
  | stop => simp
  | more hexpr _ ih =>
    exact List.forall_mem_cons.2 ⟨hexpr.spent (placed_lowest hsuffix) (hexpr.children_spent hsuffix),
      ih (hexpr.takes.suffix.trans hsuffix)⟩

end Phrase

/-! ## Whole texts -/

variable {source : String} {file : Option String} {block : Block Expr}

/-- In an accepted text, a list of arguments that stays in the tree is empty, or no arrow takes it
where it stands. -/
theorem leftover_of_parse (h : (parse source file).result = .ok block) :
    ∃ tokens last, (tokenize source file).result = .ok (tokens ++ [last]) ∧
      ∀ origin args, Expr.Within (.arguments origin args) (.block block) →
        args = [] ∨ Leftover (file.getD Scanner.unknownFile) tokens (.arguments origin args) := by
  obtain ⟨tokens, last, htokens, -, hprogram⟩ := parse_eq_ok_iff.1 h
  refine ⟨tokens, last, htokens, fun origin args hin => ?_⟩
  have hblock : Spent (file.getD Scanner.unknownFile) tokens (.block block) :=
    .of_kind_ne nofun (hprogram.spent List.suffix_rfl)
  cases hblock.within hin with
  | node hlist => exact hlist rfl

/-- The first list is taken apart by the arrow, the second by none. -/
theorem leftover_of_parse_sum :
    ∃ block, (parse "(a, b) -> f\n(a, b) + c" none).result = .ok block ∧ ∃ tokens last,
      (tokenize "(a, b) -> f\n(a, b) + c" none).result = .ok (tokens ++ [last]) ∧
        ∀ origin args, Expr.Within (.arguments origin args) (.block block) →
          args = [] ∨ Leftover Scanner.unknownFile tokens (.arguments origin args) := by
  obtain ⟨block, hblock⟩ := exists_of_isOk
    (by decide +kernel : (parse "(a, b) -> f\n(a, b) + c" none).result.isOk = true)
  exact ⟨block, hblock, leftover_of_parse hblock⟩

/-- Two arguments in parentheses that no arrow follows are a statement of their own. -/
theorem arguments_ne_nil_pair :
    ∃ block origin args, (parse "(a, b)" none).result = .ok block ∧
      Expr.Within (.arguments origin args) (.block block) ∧ args ≠ [] := by
  obtain ⟨block, hblock⟩ := exists_of_isOk
    (by decide +kernel : (parse "(a, b)" none).result.isOk = true)
  have hlist : (parse "(a, b)" none).result.toOption.any (fun block =>
      block.contents.any fun statement =>
        statement.kind == .arguments && !statement.children.isEmpty) = true := by decide +kernel
  rw [hblock, Except.toOption, Option.any_some, List.any_eq_true] at hlist
  obtain ⟨statement, hmem, hlist⟩ := hlist
  cases statement with
  | arguments origin args =>
    refine ⟨block, origin, args, hblock, .child hmem .refl, ?_⟩
    simpa [Expr.kind, Expr.children] using hlist
  | _ => simp [Expr.kind] at hlist

end Offside
