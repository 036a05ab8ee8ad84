import Offside.Proofs.Scanner.Reads
import Offside.Proofs.Token.Spelling

/-!
# Texts that spell tokens

A text spells tokens if it is read as them wherever it stands, unless the text after it goes on with
the last of them (`Scanner.Spells`). There is a rule for each kind of token, one for lists with marks
between their items (`Scanner.SpellsAll.intercalate`), and one for parentheses around a text.
-/

namespace Offside.Scanner

open Text (Apart apart_cons)

/-- Wherever the text stands, it is read as the tokens, and nothing of the text after it is. -/
def Spells (text : String) (tokens : List Token) : Prop :=
  ∀ widths more, Apart more → Reads widths (text.toList ++ more) tokens widths more

variable {widths widths' : List Nat} {text text' : List Char} {tokens : List Token}

/-! ## Tokens -/

theorem Reads.symbol (symbol : String × Token.Kind) (text : List Char)
    (h : symbol ∈ Token.symbols := by decide) :
    Reads widths (symbol.1.toList ++ text) [.bare symbol.2 symbol.1] widths text :=
  .cut (Token.cut?_symbol text symbol h)

theorem spells_constant {name : String} (h : Text.isConstant name = true) :
    Spells name [.bare .constant name] :=
  fun _ _ hmore => .cut (Token.cut?_constant h hmore)

theorem spells_identifier {name : String} (h : Text.isIdentifier name = true) :
    Spells name [.bare .identifier name] :=
  fun _ _ hmore => .cut (Token.cut?_identifier h hmore)

theorem spells_keyword {name : String} (h : name ∈ Token.reserved := by decide) :
    Spells name [.bare .keyword name] :=
  fun _ _ hmore => .cut (Token.cut?_keyword hmore h)

theorem spells_symbol (symbol : String × Token.Kind) (h : symbol ∈ Token.symbols := by decide) :
    Spells symbol.1 [.bare symbol.2 symbol.1] :=
  fun _ more _ => .symbol symbol more h

/-! ## Texts one after another -/

theorem Spells.space {text : String} (h : Spells text tokens) (hne : tokens ≠ []) :
    Spells (" " ++ text) tokens := by
  intro widths more hmore
  rw [String.toList_append]
  exact (h widths more hmore).space hne

/-- A text right after one that it does not go on with. -/
theorem Spells.followed {first second : String} {tokens' : List Token} (h : Spells first tokens)
    (h' : Spells second tokens') (hapart : ∀ more, Apart (second.toList ++ more)) :
    Spells (first ++ second) (tokens ++ tokens') := by
  intro widths more hmore
  rw [String.toList_append, List.append_assoc]
  exact (h widths _ (hapart more)).trans (h' widths more hmore)

theorem Spells.spaced {first second : String} {tokens' : List Token} (h : Spells first tokens)
    (h' : Spells second tokens') (hne : tokens' ≠ []) :
    Spells (first ++ " " ++ second) (tokens ++ tokens') := by
  rw [String.append_assoc]
  refine h.followed (h'.space hne) fun more => ?_
  rw [String.toList_append]
  exact apart_cons (c := ' ') _

/-- A name, a colon, and a text. -/
theorem Spells.labelled {name text : String} (hname : Text.isIdentifier name = true)
    (h : Spells text tokens) (hne : tokens ≠ []) :
    Spells (name ++ ": " ++ text) (.bare .identifier name :: .bare .special ":" :: tokens) := by
  intro widths more hmore
  rw [String.toList_append, String.toList_append, List.append_assoc, List.append_assoc]
  have hcolon : Reads widths (':' :: ' ' :: (text.toList ++ more)) [.bare .special ":"] widths _ :=
    .cut (Token.cut?_colon _)
  have hrest := hcolon.trans ((h widths more hmore).space hne)
  exact (spells_identifier hname widths _ (apart_cons (c := ':') _)).trans hrest

/-- A text between two symbols. -/
theorem Spells.enclosed (opening closing : String × Token.Kind) {text : String}
    (h : Spells text tokens) (hopening : opening ∈ Token.symbols := by decide)
    (hclosing : closing ∈ Token.symbols := by decide) :
    Spells (opening.1 ++ text ++ closing.1)
      (.bare opening.2 opening.1 :: (tokens ++ [.bare closing.2 closing.1])) := by
  intro widths more _
  rw [String.toList_append, String.toList_append, List.append_assoc, List.append_assoc]
  have hclose : Reads widths _ _ widths more := .symbol closing more hclosing
  have hrest := (h widths _ (Token.apart_symbol more closing hclosing)).trans hclose
  exact (Reads.symbol opening _ hopening).trans hrest

/-- A text in parentheses. -/
theorem Spells.parens {text : String} (h : Spells text tokens) :
    Spells ("(" ++ text ++ ")") (.bare .leftParen "(" :: (tokens ++ [.bare .rightParen ")"])) :=
  h.enclosed ("(", .leftParen) (")", .rightParen)

/-! ## Lists -/

/-- A mark that can stand between two texts, and the text that it is written as. -/
structure Separates (separator : String) (mark : Token) : Prop where
  apart : ∀ more, Apart (separator.toList ++ more)
  reads : ∀ {widths text tokens widths' text'}, Reads widths text tokens widths' text' →
    tokens ≠ [] → Reads widths (separator.toList ++ text) (mark :: tokens) widths' text'

theorem separates_comma : Separates ", " (.bare .special ",") where
  apart more := apart_cons (c := ',') (' ' :: more)
  reads {_ text _ _ _} h hne := (Reads.symbol (",", .special) (' ' :: text)).trans (h.space hne)

theorem separates_colons : Separates "::" (.bare .special "::") where
  apart more := apart_cons (c := ':') (':' :: more)
  reads {_ text _ _ _} h _ := (Reads.symbol ("::", .special) text).trans h

/-- Each text spells some tokens. -/
inductive SpellsAll : List String → List (List Token) → Prop
  | nil : SpellsAll [] []
  | cons {text : String} {tokens : List Token} {texts : List String} {all : List (List Token)}
    (h : Spells text tokens) (hne : tokens ≠ []) (hrest : SpellsAll texts all) :
    SpellsAll (text :: texts) (tokens :: all)

theorem spellsAll_map {α : Type} {text : α → String} {tokens : α → List Token} {items : List α}
    (h : ∀ item ∈ items, Spells (text item) (tokens item) ∧ tokens item ≠ []) :
    SpellsAll (items.map text) (items.map tokens) := by
  induction items with
  | nil => exact .nil
  | cons item items ih =>
    obtain ⟨hitem, hitems⟩ := List.forall_mem_cons.1 h
    exact .cons hitem.1 hitem.2 (ih hitems)

theorem spellsAll_constants {names : List String} (h : names.all Text.isConstant = true) :
    SpellsAll names (names.map fun name => [.bare .constant name]) := by
  have hall : SpellsAll (names.map fun name => name) _ := spellsAll_map fun name hname =>
    ⟨spells_constant (List.all_eq_true.1 h name hname), List.cons_ne_nil _ _⟩
  rwa [List.map_id'] at hall

theorem intercalate_ne_nil {mark : Token} {all : List (List Token)} (h : tokens ≠ []) :
    [mark].intercalate (tokens :: all) ≠ [] := by
  cases all with
  | nil => simpa using h
  | cons => simp [h]

/-- Texts with a mark between any two of them. -/
theorem SpellsAll.intercalate {separator : String} {mark : Token} {texts : List String}
    {all : List (List Token)} (h : SpellsAll texts all) (hmark : Separates separator mark) :
    Spells (separator.intercalate texts) ([mark].intercalate all) := by
  induction h with
  | nil =>
    intro widths more _
    exact .refl
  | cons h hne hrest ih =>
    cases hrest with
    | nil =>
      rw [String.intercalate_singleton, List.intercalate_singleton]
      exact h
    | cons h' hne' hrest' =>
      intro widths more hmore
      rw [String.intercalate_cons_cons, List.intercalate_cons_cons, String.toList_append,
        String.toList_append, List.append_assoc, List.append_assoc, List.append_assoc]
      have hlater := hmark.reads (ih widths more hmore) (intercalate_ne_nil hne')
      exact (h widths _ (hmark.apart _)).trans hlater

end Offside.Scanner
