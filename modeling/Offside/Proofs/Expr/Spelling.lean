import Offside.Proofs.Precedence.Row
import Offside.Proofs.Text.Integer
import Offside.Proofs.TypeExpr.Spelling

/-!
# Spelled expressions

The spelling of an expression on one line: names and literals as they are written, everything else in
parentheses of its own. Where all names in the expression are names (`Expr.isSpellable`), the
spelling is read as the tokens of the expression (`Expr.spells_spelling`), and these start an
expression with the same bare form wherever they stand (`Expr.operates_tokens`).
-/

namespace Offside

open Grammar (infixKind infixPowers)
open Phrase
open Scanner (Spells SpellsAll Reads)

namespace Expr

/-! ## Spellings -/

/-- Two texts in parentheses with an infix token between them. -/
def infixSpelling (left operator right : String) : String :=
  "(" ++ (left ++ " " ++ (operator ++ " " ++ right)) ++ ")"

/-- The arguments of a call, in parentheses unless there is just one. -/
def argumentsSpelling : List String → String
  | [single] => single
  | args => "(" ++ ", ".intercalate args ++ ")"

mutual

/-- How an expression is written on one line. -/
def spelling : Expr → String
  | identifier _ name => name
  | intLit _ value => toString value.toInt
  | boolLit _ value => if value then "true" else "false"
  | stringLit _ value => "\"" ++ value ++ "\""
  | reference _ modules name => "::".intercalate (modules ++ [name])
  | binary _ left operator right => infixSpelling left.spelling operator right.spelling
  | assign _ target value => infixSpelling target.spelling "=" value.spelling
  | call _ target args => infixSpelling (argumentsSpelling (spellings args)) "->" target.spelling
  | _ => ""
termination_by structural expr => expr

def spellings : List Expr → List String
  | [] => []
  | expr :: rest => expr.spelling :: spellings rest
termination_by structural exprs => exprs

end

mutual

/-- Whether the expression is one of a line, and all names in it are names. -/
def isSpellable : Expr → Bool
  | identifier _ name => Text.isIdentifier name
  | intLit .. | boolLit .. => true
  | stringLit _ value => Text.isQuotable value.toList
  | reference _ modules name =>
    !modules.isEmpty && modules.all Text.isConstant && Text.isIdentifier name
  | binary _ left operator right =>
    left.isSpellable && (Grammar.operatorPowers.map Prod.fst).contains operator && right.isSpellable
  | assign _ target value => target.isSpellable && value.isSpellable
  | call _ target args => target.isSpellable && areSpellable args
  | _ => false
termination_by structural expr => expr

def areSpellable : List Expr → Bool
  | [] => true
  | expr :: rest => expr.isSpellable && areSpellable rest
termination_by structural exprs => exprs

end

/-- The expression that the arguments of a call are read as before its arrow. -/
def ofArguments : List Expr → Expr
  | [single] => single
  | args => .arguments {} args

theorem callArguments_ofArguments {args : List Expr} (h : areSpellable args = true) :
    (ofArguments args).callArguments = args := by
  match args with
  | [] | _ :: _ :: _ => rfl
  | [single] =>
    rw [areSpellable, Bool.and_eq_true] at h
    cases single <;> first | rfl | cases h.1

/-! ## Tokens -/

def infixTokens (left : List Token) (operator : String) (right : List Token) : List Token :=
  .bare .leftParen "(" ::
    (left ++ .bare (infixKind operator) operator :: right ++ [.bare .rightParen ")"])

def argumentsTokens : List (List Token) → List Token
  | [single] => single
  | args => TypeExpr.parenTokens args

mutual

/-- The tokens of the spelling. -/
def tokens : Expr → List Token
  | identifier _ name => [.bare .identifier name]
  | intLit _ value => [.bare .integer (toString value.toInt)]
  | boolLit _ value => [.bare .keyword (if value then "true" else "false")]
  | stringLit _ value => [.bare .string ("\"" ++ value ++ "\"")]
  | reference _ modules name =>
    [.bare .special "::"].intercalate
      (modules.map (fun module => [.bare .constant module]) ++ [[.bare .identifier name]])
  | binary _ left operator right => infixTokens left.tokens operator right.tokens
  | assign _ target value => infixTokens target.tokens "=" value.tokens
  | call _ target args => infixTokens (argumentsTokens (allTokens args)) "->" target.tokens
  | _ => []
termination_by structural expr => expr

def allTokens : List Expr → List (List Token)
  | [] => []
  | expr :: rest => expr.tokens :: allTokens rest
termination_by structural exprs => exprs

end

/-! ## Spellings are read as these tokens -/

theorem spells_joined {left operator right : String} {tokens tokens' : List Token}
    (hleft : Spells left tokens) (hoperator : operator ∈ infixPowers.map Prod.fst)
    (hright : Spells right tokens') (hne : tokens' ≠ []) :
    Spells (infixSpelling left operator right) (infixTokens tokens operator tokens') := by
  refine Spells.parens fun widths more hmore => ?_
  simp only [String.toList_append, List.append_assoc]
  have hrest := (hright widths more hmore).space hne
  have hcut := Token.cut?_of_mem_infixPowers hoperator (right.toList ++ more)
  have hjoined := (Reads.cut hcut).trans hrest
  exact (hleft widths _ (Text.apart_cons (c := ' ') _)).trans (hjoined.space (List.cons_ne_nil _ _))

theorem spells_int (value : Int) : Spells (toString value) [.bare .integer (toString value)] := by
  intro widths more hmore
  obtain ⟨sign, digits, htext, hsign, hdigits, -⟩ := Text.exists_toList_toString value
  have hcut := Token.cut?_integer (hsign.imp_right .inr) hdigits hmore
  rw [← htext, String.ofList_toList] at hcut
  exact .cut hcut

theorem spells_string {value : String} (h : Text.isQuotable value.toList = true) :
    Spells ("\"" ++ value ++ "\"") [.bare .string ("\"" ++ value ++ "\"")] := by
  intro widths more _
  have hcut := Token.cut?_string h more
  have htext : ("\"" ++ value ++ "\"").toList = '"' :: (value.toList ++ ['"']) := by
    simp only [String.toList_append]
    rfl
  rw [← htext, String.ofList_toList] at hcut
  rw [htext, List.cons_append, List.append_assoc]
  exact .cut hcut

theorem spellsAll_names {modules : List String} {name : String}
    (hmodules : modules.all Text.isConstant = true) (hname : Text.isIdentifier name = true) :
    SpellsAll (modules ++ [name])
      (modules.map (fun module => [.bare .constant module]) ++ [[.bare .identifier name]]) := by
  induction modules with
  | nil => exact .cons (Scanner.spells_identifier hname) (List.cons_ne_nil _ _) .nil
  | cons module modules ih =>
    rw [List.all_cons, Bool.and_eq_true] at hmodules
    exact .cons (Scanner.spells_constant hmodules.1) (List.cons_ne_nil _ _) (ih hmodules.2)

theorem spells_arguments {texts : List String} {all : List (List Token)}
    (h : SpellsAll texts all) : Spells (argumentsSpelling texts) (argumentsTokens all) := by
  match texts, all, h with
  | _, _, .nil => exact TypeExpr.spells_parens .nil
  | _, _, .cons h _ .nil => exact h
  | _, _, .cons h hne (.cons h' hne' hrest) =>
    exact TypeExpr.spells_parens (.cons h hne (.cons h' hne' hrest))

theorem tokens_ne_nil {expr : Expr} (h : expr.isSpellable = true) : expr.tokens ≠ [] := by
  cases expr with
  | reference _ modules name =>
    cases modules with
    | nil => cases h
    | cons => exact Scanner.intercalate_ne_nil (List.cons_ne_nil _ _)
  | identifier | intLit | boolLit | stringLit | binary | assign | call =>
    simp [tokens, infixTokens]
  | block | moduleDef | useDef | floatLit | arguments | parameter | functionDef | conditional =>
    cases h

theorem mem_infixPowers_of_operator {operator : String}
    (h : (Grammar.operatorPowers.map Prod.fst).contains operator = true) :
    operator ∈ infixPowers.map Prod.fst ∧ operator ≠ "=" ∧ operator ≠ "->" := by
  have hall : ∀ operator ∈ Grammar.operatorPowers.map Prod.fst,
      operator ∈ infixPowers.map Prod.fst ∧ operator ≠ "=" ∧ operator ≠ "->" := by
    decide +kernel
  exact hall operator (List.contains_iff_mem.1 h)

mutual

theorem spells_spelling : ∀ expr : Expr, expr.isSpellable = true →
    Spells expr.spelling expr.tokens
  | identifier _ name, h => Scanner.spells_identifier h
  | intLit _ value, _ => spells_int value.toInt
  | boolLit _ true, _ => show Spells "true" _ from Scanner.spells_keyword
  | boolLit _ false, _ => show Spells "false" _ from Scanner.spells_keyword
  | stringLit _ value, h => spells_string h
  | reference _ modules name, h => by
    simp only [isSpellable, Bool.and_eq_true] at h
    exact (spellsAll_names h.1.2 h.2).intercalate Scanner.separates_colons
  | binary _ left operator right, h => by
    simp only [isSpellable, Bool.and_eq_true] at h
    obtain ⟨⟨hleft, hoperator⟩, hright⟩ := h
    exact spells_joined (spells_spelling left hleft) (mem_infixPowers_of_operator hoperator).1
      (spells_spelling right hright) (tokens_ne_nil hright)
  | assign _ target value, h => by
    rw [isSpellable, Bool.and_eq_true] at h
    exact spells_joined (spells_spelling target h.1) (by decide) (spells_spelling value h.2)
      (tokens_ne_nil h.2)
  | call _ target args, h => by
    rw [isSpellable, Bool.and_eq_true] at h
    exact spells_joined (spells_arguments (spellsAll_spellings args h.2)) (by decide)
      (spells_spelling target h.1) (tokens_ne_nil h.1)

theorem spellsAll_spellings : ∀ exprs : List Expr, areSpellable exprs = true →
    SpellsAll (spellings exprs) (allTokens exprs)
  | [], _ => .nil
  | expr :: rest, h => by
    rw [areSpellable, Bool.and_eq_true] at h
    exact .cons (spells_spelling expr h.1) (tokens_ne_nil h.1) (spellsAll_spellings rest h.2)

end

end Expr

/-! ## These tokens spell the expression -/

namespace Phrase

open Offside.Expr (infixTokens argumentsTokens)

variable {file : String} {tokens tokens' rest : List Token} {expr left right : Expr}

theorem Operates.congr {value value' : Expr} (h : Operates file tokens value)
    (hbare : value.bare = value'.bare) : Operates file tokens value' := by
  intro rest
  obtain ⟨start, hstart, hsame⟩ := h rest
  exact ⟨start, hstart, hsame.trans hbare⟩

theorem operates_literal {token : Token} (h : token.literal? = some expr) :
    Operates file [token] expr :=
  fun _ => ⟨expr, .literal h, rfl⟩

theorem not_lt_power_of_closer : ∀ token ∈ closers, ¬ Power.lowest < token.power := by
  decide +kernel

/-- An operand on its own is an expression. -/
theorem Operates.expression (h : Operates file tokens expr) (hrest : Ahead (· ∈ closers) rest) :
    ∃ expr', Expression file .lowest (tokens ++ rest) expr' rest ∧ expr'.bare = expr.bare := by
  have hstop : Ahead (¬ Power.lowest < ·.power) rest :=
    fun token htoken => not_lt_power_of_closer token (hrest token htoken)
  have hrow : Row file rest [] rest := .nil
  obtain ⟨expr', hexpr, hbare⟩ := hrow.exists_expression h hstop
  exact ⟨expr', hexpr, by rw [hbare, Expr.tree_nil]⟩

/-- Two operands in parentheses with an infix token between them. -/
theorem Operates.joined (operator : String) (hleft : Operates file tokens left)
    (hright : Operates file tokens' right)
    (hoperator : operator ∈ infixPowers.map Prod.fst := by decide) :
    Operates file (infixTokens tokens operator tokens') (Expr.tree left [(operator, right)]) := by
  intro rest
  let token : Token := .bare (infixKind operator) operator
  have htoken : token.IsInfix := ⟨rfl, hoperator⟩
  have hrow : Row file (.bare .rightParen ")" :: rest) [(operator, right)] _ :=
    .cons htoken hright .nil
  have hclose : Ahead (¬ Power.lowest < ·.power) (.bare .rightParen ")" :: rest) :=
    ahead_cons.2 (not_lt_power_of_closer _ (by decide))
  obtain ⟨expr, hexpr, hbare⟩ := hrow.exists_expression hleft hclose
  have hgroup : Start file (.bare .leftParen "(" :: _) expr rest := .group rfl hexpr rfl
  refine ⟨expr, ?_, hbare⟩
  simpa [infixTokens, token] using hgroup

/-! ### Arguments -/

/-- Lists of tokens, each of which starts an expression. -/
inductive OperatesAll (file : String) : List (List Token) → List Expr → Prop
  | nil : OperatesAll file [] []
  | cons {tokens : List Token} {value : Expr} {all : List (List Token)} {values : List Expr}
    (h : Operates file tokens value) (hrest : OperatesAll file all values) :
    OperatesAll file (tokens :: all) (value :: values)

theorem intercalate_cons (mark : Token) (tokens : List Token) (all : List (List Token)) :
    [mark].intercalate (tokens :: all) = tokens ++ all.flatMap (mark :: ·) := by
  induction all generalizing tokens with
  | nil => rw [List.intercalate_singleton, List.flatMap_nil, List.append_nil]
  | cons next all ih =>
    rw [List.intercalate_cons_cons, ih, List.flatMap_cons, List.cons_append, List.append_assoc]
    rfl

/-- More arguments, each after a comma, and the end of the list. -/
def moreTokens (all : List (List Token)) (rest : List Token) : List Token :=
  all.flatMap (.bare .special "," :: ·) ++ .bare .rightParen ")" :: rest

theorem ahead_moreTokens (all : List (List Token)) (rest : List Token) :
    Ahead (· ∈ closers) (moreTokens all rest) := by
  cases all with
  | nil => exact ahead_cons.2 (by decide)
  | cons => exact ahead_cons.2 (by decide)

theorem OperatesAll.exists_arguments {all : List (List Token)} {values : List Expr}
    (h : OperatesAll file all values) (rest : List Token) :
    ∃ args, Arguments file (moreTokens all rest) args rest ∧
      Expr.bareAll args = Expr.bareAll values := by
  induction h with
  | nil => exact ⟨[], .close rfl, rfl⟩
  | @cons tokens value all values h _ ih =>
    obtain ⟨args, hargs, hsame⟩ := ih
    obtain ⟨arg, harg, hbare⟩ := h.expression (ahead_moreTokens all rest)
    refine ⟨arg :: args, ?_, by rw [Expr.bareAll, Expr.bareAll, hbare, hsame]⟩
    have hnext : Arguments file (.bare .special "," :: (tokens ++ moreTokens all rest)) _ rest :=
      .next rfl harg hargs
    simpa [moreTokens] using hnext

theorem parenTokens_cons (tokens : List Token) (all : List (List Token)) (rest : List Token) :
    TypeExpr.parenTokens (tokens :: all) ++ rest =
      .bare .leftParen "(" :: (tokens ++ moreTokens all rest) := by
  rw [TypeExpr.parenTokens, intercalate_cons, moreTokens]
  simp

/-- The tokens of the arguments of a call start what is read before its arrow. -/
theorem OperatesAll.operates {all : List (List Token)} {values : List Expr}
    (h : OperatesAll file all values) :
    Operates file (argumentsTokens all) (Expr.ofArguments values) := by
  intro rest
  cases h with
  | nil => exact ⟨_, .unit rfl rfl, rfl⟩
  | @cons tokens value all values h hrest =>
    cases hrest with
    | nil => exact h rest
    | @cons tokens' value' all values h' hrest =>
      obtain ⟨args, hargs, hsame⟩ := (OperatesAll.cons h' hrest).exists_arguments rest
      obtain ⟨arg, harg, hbare⟩ := h.expression (ahead_moreTokens (tokens' :: all) rest)
      cases args with
      | nil => cases hsame
      | cons arg' args =>
        refine ⟨.arguments {} (arg :: arg' :: args), ?_, ?_⟩
        · rw [argumentsTokens, parenTokens_cons]
          · exact .arguments rfl harg hargs
          · simp
        · show Expr.arguments {} (arg.bare :: Expr.bareAll (arg' :: args)) = _
          rw [hbare, hsame]
          rfl

/-! ### All expressions -/

theorem unquoted_quoted (value : String) : Grammar.unquoted ("\"" ++ value ++ "\"") = value := by
  rw [Grammar.unquoted, String.toList_append, String.toList_append, List.append_assoc]
  show String.ofList (value.toList ++ ['"']).dropLast = value
  rw [List.dropLast_concat, String.ofList_toList]

theorem scope_tokens (modules : List String) (name : String) (rest : List Token) :
    Scope (modules.flatMap (fun module => [.bare .special "::", .bare .constant module]) ++
      .bare .special "::" :: .bare .identifier name :: rest) (modules, name) rest := by
  induction modules with
  | nil => exact .name rfl rfl
  | cons module modules ih => exact .module rfl rfl ih

end Phrase

namespace Expr

open Phrase

mutual

/-- The tokens of an expression start one with the same bare form wherever they stand. -/
theorem operates_tokens (file : String) : ∀ expr : Expr, expr.isSpellable = true →
    Operates file expr.tokens expr
  | identifier _ name, _ =>
    have hliteral : (Token.bare .identifier name).literal? = some (identifier {} name) := rfl
    (operates_literal hliteral).congr rfl
  | intLit _ value, _ => by
    have hliteral :
        (Token.bare .integer (toString value.toInt)).literal? = some (intLit {} value) := by
      show (Text.int64OfText? (toString value.toInt)).map (intLit {}) = _
      rw [Text.int64OfText?_toString, Option.map_some]
    exact (operates_literal hliteral).congr rfl
  | boolLit _ true, _ =>
    have hliteral : (Token.bare .keyword "true").literal? = some (boolLit {} true) := rfl
    (operates_literal hliteral).congr rfl
  | boolLit _ false, _ =>
    have hliteral : (Token.bare .keyword "false").literal? = some (boolLit {} false) := rfl
    (operates_literal hliteral).congr rfl
  | stringLit _ value, _ => by
    have hliteral : (Token.bare .string ("\"" ++ value ++ "\"")).literal? =
        some (stringLit {} value) :=
      congrArg (fun value => some (stringLit {} value)) (unquoted_quoted value)
    exact (operates_literal hliteral).congr rfl
  | reference _ [] name, h => by cases h
  | reference _ (module :: modules) name, _ => by
    intro rest
    let value := reference {} (module :: modules) name
    have hstart : Start file (.bare .constant module :: _) value rest :=
      .reference rfl (scope_tokens modules name rest)
    exact ⟨value, by simpa [tokens, intercalate_cons, List.flatMap_map] using hstart, rfl⟩
  | binary _ left operator right, h => by
    simp only [isSpellable, Bool.and_eq_true] at h
    obtain ⟨⟨hleft, hoperator⟩, hright⟩ := h
    obtain ⟨hmem, hequals, harrow⟩ := mem_infixPowers_of_operator hoperator
    have hjoined := (operates_tokens file left hleft).joined operator
      (operates_tokens file right hright) hmem
    refine hjoined.congr ?_
    rw [tree_single hequals, Expr.joined, if_neg harrow]
    exact bare_binary_congr rfl rfl
  | assign _ target value, h => by
    rw [isSpellable, Bool.and_eq_true] at h
    have hjoined := (operates_tokens file target h.1).joined "=" (operates_tokens file value h.2)
    refine hjoined.congr ?_
    rw [tree_assign_cons, tree_nil]
    exact bare_assign_congr rfl rfl
  | call _ target args, h => by
    rw [isSpellable, Bool.and_eq_true] at h
    have hjoined := (operatesAll_tokens file args h.2).operates.joined "->"
      (operates_tokens file target h.1)
    refine hjoined.congr ?_
    rw [tree_single (by decide), Expr.joined, if_pos rfl, callArguments_ofArguments h.2]
    exact bare_call_congr rfl rfl

theorem operatesAll_tokens (file : String) : ∀ exprs : List Expr, areSpellable exprs = true →
    OperatesAll file (allTokens exprs) exprs
  | [], _ => .nil
  | expr :: rest, h => by
    rw [areSpellable, Bool.and_eq_true] at h
    exact .cons (operates_tokens file expr h.1) (operatesAll_tokens file rest h.2)

end

end Expr

end Offside
