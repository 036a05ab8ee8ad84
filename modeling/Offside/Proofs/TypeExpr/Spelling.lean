import Offside.Proofs.Phrase.Type
import Offside.Proofs.Scanner.Spells

/-!
# Spelled types

The canonical spelling of a type whose names are names (`TypeExpr.isSpellable`) is read as tokens
(`TypeExpr.spells_text`) that spell the type, wherever it may end
(`Phrase.typeTerm_tokens`).
-/

namespace Offside

open Scanner (Spells SpellsAll Reads separates_comma separates_colons)

namespace TypeExpr

mutual

/-- Whether all names in the type are names. -/
def isSpellable : TypeExpr → Bool
  | named path => !path.isEmpty && path.all Text.isConstant
  | tuple entries => areSpellableEntries entries
  | array element => element.isSpellable
  | function params none => areSpellable params
  | function params (some result) => areSpellable params && result.isSpellable
termination_by structural type => type

def areSpellable : List TypeExpr → Bool
  | [] => true
  | type :: rest => type.isSpellable && areSpellable rest
termination_by structural types => types

def areSpellableEntries : List (Option String × TypeExpr) → Bool
  | [] => true
  | (some name, type) :: rest =>
    Text.isIdentifier name && type.isSpellable && areSpellableEntries rest
  | (none, type) :: rest => type.isSpellable && areSpellableEntries rest
termination_by structural entries => entries

end

/-! ## Tokens -/

/-- The tokens of a path of names. -/
def pathTokens (path : List String) : List Token :=
  [.bare .special "::"].intercalate (path.map fun name => [.bare .constant name])

/-- Lists of tokens with commas between them, in parentheses. -/
def parenTokens (all : List (List Token)) : List Token :=
  .bare .leftParen "(" :: ([Token.bare .special ","].intercalate all ++ [.bare .rightParen ")"])

mutual

/-- The tokens of the canonical spelling. -/
def tokens : TypeExpr → List Token
  | named path => pathTokens path
  | tuple entries => parenTokens (entryTokens entries)
  | array element => .bare .special "[" :: .bare .special "]" :: element.tokens
  | function [] none => [.bare .keyword "fn"]
  | function params none => .bare .keyword "fn" :: parenTokens (allTokens params)
  | function params (some result) =>
    .bare .keyword "fn" :: (parenTokens (allTokens params) ++ .bare .special "->" :: result.tokens)
termination_by structural type => type

def allTokens : List TypeExpr → List (List Token)
  | [] => []
  | type :: rest => type.tokens :: allTokens rest
termination_by structural types => types

def entryTokens : List (Option String × TypeExpr) → List (List Token)
  | [] => []
  | (some name, type) :: rest =>
    (.bare .identifier name :: .bare .special ":" :: type.tokens) :: entryTokens rest
  | (none, type) :: rest => type.tokens :: entryTokens rest
termination_by structural entries => entries

end

/-! ## Spellings are read as these tokens -/

theorem spells_path {path : List String} (h : path.all Text.isConstant = true) :
    Spells ("::".intercalate path) (pathTokens path) :=
  (Scanner.spellsAll_constants h).intercalate separates_colons

theorem spells_parens {texts : List String} {all : List (List Token)} (h : SpellsAll texts all) :
    Spells ("(" ++ ", ".intercalate texts ++ ")") (parenTokens all) :=
  (h.intercalate separates_comma).parens

theorem pathTokens_ne_nil {path : List String} (h : (!path.isEmpty) = true) :
    pathTokens path ≠ [] := by
  cases path with
  | nil => cases h
  | cons name path => exact Scanner.intercalate_ne_nil (List.cons_ne_nil _ _)

theorem tokens_ne_nil {type : TypeExpr} (h : type.isSpellable = true) : type.tokens ≠ [] := by
  match type, h with
  | named path, h =>
    rw [isSpellable, Bool.and_eq_true] at h
    exact pathTokens_ne_nil h.1
  | tuple _, _ | array _, _ | function [] none, _ | function (_ :: _) none, _
  | function _ (some _), _ => simp [tokens, parenTokens]

mutual

theorem spells_text : ∀ type : TypeExpr, type.isSpellable = true → Spells type.text type.tokens
  | named path, h => by
    rw [isSpellable, Bool.and_eq_true] at h
    exact spells_path h.2
  | tuple entries, h => spells_parens (spellsAll_entryTexts entries h)
  | array element, h => by
    intro widths more hmore
    rw [text, String.toList_append, List.append_assoc]
    have hclose := (Reads.symbol ("]", .special) _).trans (spells_text element h widths more hmore)
    exact (Reads.symbol ("[", .special) _).trans hclose
  | function [] none, _ => Scanner.spells_keyword
  | function (param :: params) none, h => by
    have hparams := spells_parens (spellsAll_texts (param :: params) h)
    have htext : (function (param :: params) none).text =
        "fn" ++ " " ++ ("(" ++ ", ".intercalate (texts (param :: params)) ++ ")") := by
      rw [text, show "fn (" = "fn" ++ " " ++ "(" from rfl]
      · simp only [String.append_assoc]
      · exact List.cons_ne_nil _ _
    have hfn : Spells "fn" _ := Scanner.spells_keyword
    rw [htext]
    exact hfn.spaced hparams (List.cons_ne_nil _ _)
  | function params (some result), h => by
    rw [isSpellable, Bool.and_eq_true] at h
    have hparams := spells_parens (spellsAll_texts params h.1)
    have hresult := spells_text result h.2
    have htext : (function params (some result)).text = "fn" ++ " " ++
        ("(" ++ ", ".intercalate (texts params) ++ ")" ++ " " ++ ("->" ++ " " ++ result.text)) := by
      rw [text, show "fn (" = "fn" ++ " " ++ "(" from rfl,
        show ") -> " = ")" ++ " " ++ "->" ++ " " from rfl]
      simp only [String.append_assoc]
    have hfn : Spells "fn" _ := Scanner.spells_keyword
    have harrow := (Scanner.spells_symbol ("->", .special)).spaced hresult (tokens_ne_nil h.2)
    rw [htext, tokens]
    exact hfn.spaced (hparams.spaced harrow (List.cons_ne_nil _ _)) (List.cons_ne_nil _ _)

theorem spellsAll_texts : ∀ types : List TypeExpr, areSpellable types = true →
    SpellsAll (texts types) (allTokens types)
  | [], _ => .nil
  | type :: rest, h => by
    rw [areSpellable, Bool.and_eq_true] at h
    exact .cons (spells_text type h.1) (tokens_ne_nil h.1) (spellsAll_texts rest h.2)

theorem spellsAll_entryTexts : ∀ entries : List (Option String × TypeExpr),
    areSpellableEntries entries = true → SpellsAll (entryTexts entries) (entryTokens entries)
  | [], _ => .nil
  | (some name, type) :: rest, h => by
    simp only [areSpellableEntries, Bool.and_eq_true] at h
    obtain ⟨⟨hname, htype⟩, hrest⟩ := h
    exact .cons ((spells_text type htype).labelled hname (tokens_ne_nil htype))
      (List.cons_ne_nil _ _) (spellsAll_entryTexts rest hrest)
  | (none, type) :: rest, h => by
    simp only [areSpellableEntries, Bool.and_eq_true] at h
    exact .cons (spells_text type h.1) (tokens_ne_nil h.1) (spellsAll_entryTexts rest h.2)

end

end TypeExpr

/-! ## These tokens spell the type -/

namespace Phrase

open Token (bare)
open TypeExpr

/-- The tokens that may come after a type or an item of a list. -/
def closers : List Token :=
  [bare .special ",", bare .rightParen ")", bare .special "\x7d", bare .newline "\n"]

/-- A token after a type goes on with no type. -/
theorem facts_of_closer : ∀ token ∈ closers, TypeExpr.starts token = false ∧ token.value ≠ "->" ∧
    token.value ≠ "::" ∧ token.kind ≠ .identifier ∧ token.value ≠ "(" := by
  decide +kernel

variable {α : Type} {item : Phrase α} {rest : List Token}

/-- Tokens each of which spell an item before a closing token. -/
inductive Listed (item : Phrase α) (closing : String) : List (List Token) → List α → Prop
  | nil : Listed item closing [] []
  | cons {tokens : List Token} {a : α} {all : List (List Token)} {values : List α}
    (hopen : Starts (·.value ≠ closing) tokens)
    (h : ∀ rest, Ahead (· ∈ closers) rest → item (tokens ++ rest) a rest)
    (hrest : Listed item closing all values) : Listed item closing (tokens :: all) (a :: values)

theorem Listed.items {close : Token} {all : List (List Token)} {values : List α}
    (h : Listed item close.value all values) (hclose : close ∈ closers) :
    Items close.value item ([bare .special ","].intercalate all ++ close :: rest) values rest := by
  induction h with
  | nil => exact .nil rfl
  | cons hopen h hrest ih =>
    cases hrest with
    | nil =>
      rw [List.intercalate_singleton]
      exact .last (hopen.ahead_append _) (h _ (ahead_cons.2 hclose)) rfl
    | cons =>
      rw [List.intercalate_cons_cons, List.append_assoc, List.append_assoc]
      refine .more (hopen.ahead_append _) (h _ (ahead_cons.2 ?_)) rfl ih
      exact List.mem_cons_self

/-- Items in parentheses. -/
theorem Listed.parens {all : List (List Token)} {values : List α} (h : Listed item ")" all values) :
    parenTokens all ++ rest = bare .leftParen "(" :: (parenTokens all ++ rest).tail ∧
      Items ")" item (parenTokens all ++ rest).tail values rest := by
  have hclose : Listed item (bare .rightParen ")").value all values := h
  have htail : (parenTokens all ++ rest).tail =
      [bare .special ","].intercalate all ++ bare .rightParen ")" :: rest := by
    simp [parenTokens]
  rw [htail]
  exact ⟨by simp [parenTokens], hclose.items (by decide)⟩

theorem pathTokens_cons (name : String) (path : List String) :
    pathTokens (name :: path) = bare .constant name ::
      path.flatMap fun name => [bare .special "::", bare .constant name] := by
  induction path generalizing name with
  | nil => rfl
  | cons next path ih =>
    have htail := ih next
    rw [pathTokens, List.map_cons] at htail ⊢
    rw [List.map_cons, List.intercalate_cons_cons, htail]
    rfl

theorem path_tokens (path : List String) (hrest : Ahead (· ∈ closers) rest) :
    Path (path.flatMap (fun name => [bare .special "::", bare .constant name]) ++ rest) path rest := by
  induction path with
  | nil => exact .stop ⟨fun token htoken => (facts_of_closer token (hrest token htoken)).2.2.1, rfl⟩
  | cons name path ih => exact .more (.intro rfl rfl) ih

/-- A type starts with no name of an entry, and not as a list ends. -/
theorem starts_tokens {type : TypeExpr} (h : type.isSpellable = true) :
    Starts (fun token => token.value ≠ ")" ∧ token.kind ≠ .identifier) type.tokens := by
  match type, h with
  | .named [], h => cases h
  | .named (name :: path), h =>
    simp only [isSpellable, List.all_cons, Bool.and_eq_true] at h
    rw [TypeExpr.tokens, pathTokens_cons]
    refine starts_cons.2 ⟨fun hclose => ?_, nofun⟩
    rw [show name = ")" from hclose] at h
    exact absurd h.2.1 (by decide)
  | .tuple _, _ | .array _, _ | .function [] none, _ | .function (_ :: _) none, _
  | .function _ (some _), _ => simp [TypeExpr.tokens, parenTokens, bare]

mutual

/-- The tokens of a type spell it where it may end. -/
theorem typeTerm_tokens : ∀ (type : TypeExpr) (rest : List Token), type.isSpellable = true →
    Ahead (· ∈ closers) rest → TypeTerm (type.tokens ++ rest) type rest
  | .named [], _, h, _ => by cases h
  | .named (name :: path), rest, _, hrest => by
    rw [TypeExpr.tokens, pathTokens_cons]
    exact .named rfl (path_tokens path hrest)
  | .tuple entries, rest, h, _ => by
    obtain ⟨heq, hitems⟩ := (listed_entries entries h).parens
    rw [TypeExpr.tokens, heq]
    exact .tuple rfl hitems
  | .array element, rest, h, hrest => .array rfl rfl (typeTerm_tokens element rest h hrest)
  | .function [] none, rest, _, hrest => by
    have hends token (htoken : token ∈ rest.head?) := facts_of_closer token (hrest token htoken)
    refine .function rfl (.none fun token htoken => ?_) (.none fun token htoken => ?_)
    · exact Bool.eq_false_iff.1 (hends token htoken).1
    · exact (hends token htoken).2.1
  | .function (param :: params) none, rest, h, hrest => by
    obtain ⟨heq, hitems⟩ := (listed_types (param :: params) h).parens
    rw [TypeExpr.tokens, List.cons_append, heq]
    · refine .function rfl (.list rfl hitems) (.none fun token htoken => ?_)
      exact (facts_of_closer token (hrest token htoken)).2.1
    · exact List.cons_ne_nil _ _
  | .function params (some result), rest, h, hrest => by
    rw [isSpellable, Bool.and_eq_true] at h
    obtain ⟨heq, hitems⟩ := (listed_types params h.1).parens
    rw [TypeExpr.tokens, List.cons_append, List.append_assoc, List.cons_append, heq]
    exact .function rfl (.list rfl hitems) (.some rfl (typeTerm_tokens result rest h.2 hrest))

theorem listed_types : ∀ types : List TypeExpr, areSpellable types = true →
    Listed TypeTerm ")" (allTokens types) types
  | [], _ => .nil
  | type :: rest, h => by
    rw [areSpellable, Bool.and_eq_true] at h
    obtain ⟨first, others, heq, hclose, -⟩ := starts_tokens h.1
    exact .cons ⟨first, others, heq, hclose⟩ (fun rest hrest => typeTerm_tokens type rest h.1 hrest)
      (listed_types rest h.2)

theorem listed_entries : ∀ entries : List (Option String × TypeExpr),
    areSpellableEntries entries = true → Listed Entry ")" (entryTokens entries) entries
  | [], _ => .nil
  | (some name, type) :: rest, h => by
    simp only [areSpellableEntries, Bool.and_eq_true] at h
    obtain ⟨⟨hname, htype⟩, hrest⟩ := h
    refine .cons (starts_cons.2 fun hclose => ?_) (fun rest hrest => ?_) (listed_entries rest hrest)
    · rw [show name = ")" from hclose] at hname
      exact absurd hname (by decide)
    · exact .named rfl rfl (typeTerm_tokens type rest htype hrest)
  | (none, type) :: rest, h => by
    simp only [areSpellableEntries, Bool.and_eq_true] at h
    obtain ⟨first, others, heq, hclose, hname⟩ := starts_tokens h.1
    refine .cons ⟨first, others, heq, hclose⟩ (fun rest hrest => ?_) (listed_entries rest h.2)
    refine .unnamed ?_ (typeTerm_tokens type rest h.1 hrest)
    rw [heq]
    exact ahead_cons.2 hname

end

end Phrase

end Offside
