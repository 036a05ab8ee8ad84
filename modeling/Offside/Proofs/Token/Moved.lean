import Offside.Token.Basic

/-!
# Tokens elsewhere in a text

`Token.Moved` relates the tokens of one text to the same tokens at other places, with more tokens
after them.
-/

namespace Offside.Token

/-- The token at another place. -/
def moved (token : Token) (line column : Nat) : Token :=
  { token with line, column }

/-- A token that stands at no place. -/
def bare (kind : Kind) (value : String) : Token :=
  { kind, value, line := 0, column := 0 }

/-- The same tokens at any places, with the tokens `more` after them. -/
inductive Moved (more : List Token) : List Token → List Token → Prop
  | nil : Moved more [] more
  | cons {token : Token} {tokens tokens' : List Token} (line column : Nat)
    (h : Moved more tokens tokens') :
    Moved more (token :: tokens) (token.moved line column :: tokens')

/-- There are tokens after a phrase already, or there are going to be none. -/
def Lasts (more rest : List Token) : Prop :=
  rest = [] → more = []

variable {more tokens rest tokens' : List Token}

theorem Moved.refl : ∀ tokens : List Token, Moved more tokens (tokens ++ more)
  | [] => .nil
  | token :: tokens => .cons token.line token.column (Moved.refl tokens)

theorem Moved.map {f g : Kind → Token}
    (h : ∀ kind, ∃ line column, g kind = (f kind).moved line column) (kinds : List Kind) :
    Moved [] (kinds.map f) (kinds.map g) := by
  induction kinds with
  | nil => exact .nil
  | cons kind kinds ih =>
    obtain ⟨line, column, hkind⟩ := h kind
    rw [List.map_cons, List.map_cons, hkind]
    exact .cons line column ih

theorem Moved.append {before before' : List Token} (h : Moved [] before before')
    (hrest : Moved more tokens tokens') : Moved more (before ++ tokens) (before' ++ tokens') := by
  induction h with
  | nil => exact hrest
  | cons line column _ ih => exact .cons line column ih

theorem Moved.dropWhile (h : Moved more tokens tokens')
    (hlasts : Lasts more (tokens.dropWhile Token.isNewline)) :
    Moved more (tokens.dropWhile Token.isNewline) (tokens'.dropWhile Token.isNewline) := by
  induction h with
  | nil =>
    rw [hlasts rfl]
    exact .nil
  | @cons token tokens tokens' line column h ih =>
    by_cases hnewline : token.isNewline = true
    · rw [List.dropWhile_cons_of_pos hnewline] at hlasts ⊢
      rw [List.dropWhile_cons_of_pos (by exact hnewline)]
      exact ih hlasts
    · rw [List.dropWhile_cons_of_neg hnewline, List.dropWhile_cons_of_neg (by exact hnewline)]
      exact .cons line column h

end Offside.Token
