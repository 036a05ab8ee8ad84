import Offside.Proofs.Cursor.Lockstep
import Offside.Proofs.TypeExpr.Grammar

/-!
# Two runs over a type

Two runs over the same tokens parse the same type, and it takes a token (`TypeExpr.agrees_parse`).
-/

namespace Offside

open ParseM (Agrees anyToken GoesOn goesOn_value goesOn_kind goesOn_keyword RoundsAgree)
open ParseM.Agrees

variable {s : Lockstep} {n : Nat} {P : Token → Prop}

namespace TypeExpr

theorem agrees_pathRound {path path' : Array String} (hpath : path' = path) :
    Agrees s n P (pathRound path) (pathRound path')
      (RoundsAgree (fun path path' => path' = path) fun path path' => path' = path) := by
  subst hpath
  refine ifAhead (fun _ _ _ => rfl) ((takeNextThen (goesOn_value "::" (by decide))
    (goesOn_kindExpected .constant nofun) fun name _ _ _ _ => ?_).mono (Nat.le_succ n)) (.pure rfl)
  exact .pure ⟨by omega, rfl⟩

theorem agrees_parseNamed :
    Agrees s n P parseNamed parseNamed fun type type' taken => type' = type ∧ 0 < taken := by
  rw [parseNamed_eq]
  refine takeThen (goesOn_kindExpected .constant nofun) fun first _ _ _ _ => ?_
  refine (loop (fun _ _ => agrees_pathRound) rfl).bind ?_
  rintro path _ taken rfl
  exact .pure ⟨rfl, by omega⟩

theorem agrees_items {α : Type} {item item' : ParseM α} {closes : Token → Bool}
    {closing message : String}
    (hcloses : ∀ token line column, closes (token.moved line column) = closes token)
    (hitem : Agrees s n anyToken item item' fun a b taken => b = a ∧ 0 < taken) :
    Agrees s n P (ParseM.items closes closing message item)
      (ParseM.items closes closing message item') fun as bs _ => bs = as :=
  items hcloses hitem rfl (by rintro as _ a _ rfl rfl; rfl)

variable {inner inner' : ParseM TypeExpr}
  (h : Agrees s n anyToken inner inner' fun type type' taken => type' = type ∧ 0 < taken)

include h

theorem agrees_parseEntry :
    Agrees s n P (parseEntry inner) (parseEntry inner') fun entry entry' taken =>
      entry' = entry ∧ 0 < taken := by
  refine ifAhead (fun _ _ _ => rfl) ((consumeThen (goesOn_kind .identifier nofun)
    fun name _ _ _ _ => ?_).mono (Nat.le_succ n)) (h.any.bind ?_)
  · refine takeThen (goesOn_textExpected ":" (by decide)) fun _ _ _ _ _ => h.bind ?_
    rintro type _ taken ⟨rfl, htaken⟩
    exact .pure ⟨rfl, by omega⟩
  · rintro type _ taken ⟨rfl, htaken⟩
    exact .pure ⟨rfl, htaken⟩

theorem agrees_parseParams :
    Agrees s n P (parseParams inner) (parseParams inner') fun params params' _ => params' = params := by
  refine look fun token line column _ _ => ?_
  show Agrees s n _ (if token.value == "(" then _ else if starts token then _ else _)
    (if token.value == "(" then _ else if starts token then _ else _) _
  split
  · exact advanceAny.bind fun _ _ _ _ => agrees_items (fun _ _ _ => rfl) h
  · split
    · refine h.any.bind ?_
      rintro type _ - ⟨rfl, -⟩
      exact .pure rfl
    · exact .pure rfl

theorem agrees_parseFunction (hP : GoesOn P) :
    Agrees s (n + 1) P (parseFunction inner) (parseFunction inner') fun type type' taken =>
      type' = type ∧ 0 < taken := by
  refine next hP ((agrees_parseParams h).bind ?_)
  rintro params _ - rfl
  refine ifAhead (fun _ _ _ => rfl) (advanceAny.bind fun _ _ _ _ => h.bind ?_)
    (.pure ⟨rfl, by omega⟩)
  rintro type _ taken ⟨rfl, -⟩
  exact .pure ⟨rfl, by omega⟩

theorem agrees_parseStep :
    Agrees s (n + 1) P (parseStep inner) (parseStep inner') fun type type' taken =>
      type' = type ∧ 0 < taken := by
  refine look fun token line column _ _ => ?_
  show Agrees s _ _ (if token.value == "(" then _ else if token.value == "[" then _ else
    if token.isKeyword "fn" then _ else _) (if token.value == "(" then _ else
      if token.value == "[" then _ else if token.isKeyword "fn" then _ else _) _
  split
  · rename_i hopen
    have hgoesOn : GoesOn (· = token) :=
      (goesOn_value (P := anyToken) "(" (by decide)).weaken fun _ heq => ⟨trivial, heq ▸ hopen⟩
    refine next hgoesOn ((agrees_items (fun _ _ _ => rfl) (agrees_parseEntry h)).bind ?_)
    rintro entries _ - rfl
    exact .pure ⟨rfl, by omega⟩
  · split
    · rename_i hopen
      have hgoesOn : GoesOn (· = token) :=
        (goesOn_value (P := anyToken) "[" (by decide)).weaken fun _ heq => ⟨trivial, heq ▸ hopen⟩
      refine takeNextThen hgoesOn (goesOn_textExpected "]" (by decide)) fun _ _ _ _ _ => h.bind ?_
      rintro type _ taken ⟨rfl, -⟩
      exact .pure ⟨rfl, by omega⟩
    · split
      · rename_i hfn
        exact agrees_parseFunction h
          ((goesOn_keyword (P := anyToken)).weaken fun _ heq => ⟨trivial, heq ▸ hfn⟩)
      · exact agrees_parseNamed

omit h

theorem agrees_parseWithin (depth depth' : Nat) :
    Agrees s (min depth depth') P (parseWithin depth) (parseWithin depth') fun type type' taken =>
      type' = type ∧ 0 < taken := by
  induction depth generalizing depth' P with
  | zero => exact fun _ _ _ hlen => absurd hlen (by omega)
  | succ depth ih =>
    cases depth' with
    | zero => exact fun _ _ _ hlen => absurd hlen (by omega)
    | succ depth' => exact (agrees_parseStep (ih depth')).mono (by omega)

theorem agrees_parse :
    Agrees s n P parse parse fun type type' taken => type' = type ∧ 0 < taken :=
  getBudget agrees_parseWithin

end TypeExpr

end Offside
