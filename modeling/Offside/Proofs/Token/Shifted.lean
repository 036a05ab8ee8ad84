import Offside.Expr.Basic
import Offside.Proofs.Token.Moved

/-!
# Tokens in another text

A `Token.Shift` says how the tokens of one text may stand in another: at which places, and what
stands there where the tokens end. That may depend on the blocks that are open at the end, so a
shift can keep track of blocks on the way. `Token.Shifted` relates the tokens by it, and
`Shift.anywhere` is the shift that keeps track of nothing (`shifted_anywhere_iff`).
-/

namespace Offside.Token

/-- The token neither opens nor closes a block. -/
def IsPlain (token : Token) : Prop :=
  token.value ≠ "" ∨ token.kind ≠ .indent ∧ token.kind ≠ .outdent

theorem isPlain_of_value {token : Token} {text : String} (h : token.value = text)
    (hne : text ≠ "" := by decide) : token.IsPlain :=
  .inl (h ▸ hne)

theorem isPlain_of_kind {token : Token} {kind : Kind} (h : token.kind = kind)
    (hne : kind ≠ .indent ∧ kind ≠ .outdent := by decide) : token.IsPlain :=
  .inr (h ▸ hne)

theorem isPlain_of_keyword {token : Token} {text : String} (h : token.isKeyword text = true) :
    token.IsPlain :=
  isPlain_of_kind (isKeyword_iff.1 h).1

/-- How tokens may stand in another text. -/
structure Shift (δ : Type) where
  file : String
  file' : String
  /-- Where the places of the first text are moved to, to be compared. -/
  place : Origin → Origin
  /-- Where the places of the other text are moved to. -/
  place' : Origin → Origin
  /-- How a token leads from the blocks that are open before it to those after it. -/
  step : δ → Token → δ → Prop
  /-- The blocks that are open inside one more. -/
  inside : δ → δ
  /-- What stands in the other text where the tokens end. -/
  ends : δ → List Token → Prop
  plain {blocks after : δ} {token : Token} : token.IsPlain → step blocks token after → after = blocks
  indent {blocks after : δ} {token : Token} : token.kind = .indent → step blocks token after →
    after = inside blocks
  outdent {blocks after : δ} {token : Token} : token.kind = .outdent →
    step (inside blocks) token after → after = blocks

/-- The places of tokens on these lines are the same where they are moved to. -/
def Shift.Lines {δ : Type} (shift : Shift δ) (line line' : Nat) : Prop :=
  shift.place { file := shift.file, line } = shift.place' { file := shift.file', line := line' }

/-- The same tokens inside the given blocks of another text. -/
inductive Shifted {δ : Type} (shift : Shift δ) : δ → List Token → List Token → Prop
  | nil {blocks : δ} {tokens' : List Token} (h : shift.ends blocks tokens') :
    Shifted shift blocks [] tokens'
  | cons {blocks after : δ} {token : Token} {tokens tokens' : List Token} {line : Nat} (column : Nat)
    (hstep : shift.step blocks token after)
    (hplace : token.kind.isSynthetic = false → shift.Lines token.line line)
    (h : Shifted shift after tokens tokens') :
    Shifted shift blocks (token :: tokens) (token.moved line column :: tokens')

namespace Shifted

variable {δ : Type} {shift : Shift δ} {blocks : δ} {token : Token} {tokens tokens' : List Token}

theorem plain (h : Shifted shift blocks (token :: tokens) tokens') (hplain : token.IsPlain) :
    ∃ line column others, tokens' = token.moved line column :: others ∧
      Shifted shift blocks tokens others := by
  obtain _ | ⟨column, hstep, -, h⟩ := h
  rw [shift.plain hplain hstep] at h
  exact ⟨_, column, _, rfl, h⟩

theorem indent (h : Shifted shift blocks (token :: tokens) tokens') (hkind : token.kind = .indent) :
    ∃ line column others, tokens' = token.moved line column :: others ∧
      Shifted shift (shift.inside blocks) tokens others := by
  obtain _ | ⟨column, hstep, -, h⟩ := h
  rw [shift.indent hkind hstep] at h
  exact ⟨_, column, _, rfl, h⟩

theorem outdent (h : Shifted shift (shift.inside blocks) (token :: tokens) tokens')
    (hkind : token.kind = .outdent) : ∃ line column others,
      tokens' = token.moved line column :: others ∧ Shifted shift blocks tokens others := by
  obtain _ | ⟨column, hstep, -, h⟩ := h
  rw [shift.outdent hkind hstep] at h
  exact ⟨_, column, _, rfl, h⟩

/-- Newline tokens are skipped in both texts. -/
theorem dropWhile (h : Shifted shift blocks tokens tokens')
    (hends : tokens.dropWhile Token.isNewline = [] → ∀ others, shift.ends blocks others →
      shift.ends blocks (others.dropWhile Token.isNewline)) :
    Shifted shift blocks (tokens.dropWhile Token.isNewline) (tokens'.dropWhile Token.isNewline) := by
  induction tokens generalizing tokens' with
  | nil =>
    obtain h | _ := h
    exact .nil (hends rfl _ h)
  | cons token tokens ih =>
    by_cases hnewline : token.isNewline = true
    · obtain ⟨line, column, others, rfl, hothers⟩ :=
        h.plain (isPlain_of_kind (beq_iff_eq.1 hnewline))
      rw [List.dropWhile_cons_of_pos hnewline] at hends ⊢
      rw [List.dropWhile_cons_of_pos (by exact hnewline)]
      exact ih hothers hends
    · rw [List.dropWhile_cons_of_neg hnewline]
      obtain _ | ⟨column, hstep, hplace, h⟩ := h
      rw [List.dropWhile_cons_of_neg (by exact hnewline)]
      exact .cons column hstep hplace h

end Shifted

/-- The tokens stand at other places of a text, with the tokens `more` after them. -/
def Shift.elsewhere (file file' : String) (place place' : Origin → Origin) (more : List Token) :
    Shift Unit where
  file := file
  file' := file'
  place := place
  place' := place'
  step _ _ _ := True
  inside := id
  ends _ tokens' := tokens' = more
  plain _ _ := rfl
  indent _ _ := rfl
  outdent _ _ := rfl

theorem Shift.lines_id_iff {file : String} {more : List Token} {line line' : Nat} :
    (Shift.elsewhere file file id id more).Lines line line' ↔ line = line' :=
  ⟨congrArg Origin.line, congrArg (Origin.mk file)⟩

/-- The tokens stand anywhere in a text. -/
abbrev Shift.anywhere (file file' : String) (more : List Token) : Shift Unit :=
  .elsewhere file file' (fun _ => {}) (fun _ => {}) more

theorem shifted_anywhere_iff (file file' : String) {more tokens tokens' : List Token} :
    Shifted (.anywhere file file' more) () tokens tokens' ↔ Moved more tokens tokens' := by
  constructor
  · generalize () = blocks
    intro h
    induction h with
    | nil h =>
      rw [show _ = more from h]
      exact .nil
    | cons column _ _ _ ih => exact .cons _ column ih
  · intro h
    induction h with
    | nil => exact .nil rfl
    | cons line column _ ih => exact .cons column trivial (fun _ => rfl) ih

end Offside.Token
