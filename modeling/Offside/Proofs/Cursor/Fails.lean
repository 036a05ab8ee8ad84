import Offside.Proofs.Cursor.Parses

/-!
# What a parser fails on

`ParseM.Fails` says of a parser and of tokens that the parser stops on them, and at what. A sequence
stops where its first part does (`Fails.first`), or where the first part gets through and the second
one stops (`Fails.bind`); a loop stops where its first round does (`Fails.loop`).
-/

namespace Offside

namespace ParseM

/-- On the tokens, the parser stops. -/
def Fails {α : Type} (file : String) (last : Token) (tokens : List Token) (m : ParseM α)
    (stop : Stop) : Prop :=
  ∀ cursor, cursor.Sound file last → cursor.Clean → cursor.view = tokens →
    ∃ after, m cursor = .error stop after

namespace Fails

variable {α β σ : Type} {file : String} {last : Token} {n : Nat} {tokens rest : List Token}
  {stop : Stop}

theorem first {m : ParseM α} {f : α → ParseM β} (hm : Fails file last tokens m stop) :
    Fails file last tokens (m >>= f) stop := by
  intro cursor hcursor hclean hview
  obtain ⟨after, hrun⟩ := hm cursor hcursor hclean hview
  exact ⟨after, bind_of_error hrun⟩

/-- What the first parser reads is behind, and the second one stops. -/
theorem bind {m : ParseM α} {f : α → ParseM β} {p : Phrase α} {a : α} (hm : Parses file last n m p)
    (hlen : tokens.length < n) (hp : p tokens a rest) (hf : Fails file last rest (f a) stop) :
    Fails file last tokens (m >>= f) stop := by
  rintro cursor hcursor hclean rfl
  obtain ⟨middle, hrun, hview⟩ := hm.complete hcursor hclean hlen hp
  obtain ⟨hleads, -⟩ := hm.sound hcursor hrun
  obtain ⟨after, hstop⟩ := hf middle hleads.sound (hleads.clean_iff.2 hclean) hview
  exact ⟨after, (bind_of_ok hrun).trans hstop⟩

theorem look {f : Token → ParseM α} (hf : Fails file last tokens (f (tokens.headD last)) stop) :
    Fails file last tokens (do f (← ParseM.peek)) stop := by
  rintro cursor hcursor hclean rfl
  rw [← hcursor.current_eq] at hf
  exact hf cursor hcursor hclean rfl

theorem next {m : ParseM α} {token : Token} (hm : Fails file last tokens m stop) :
    Fails file last (token :: tokens) (do ParseM.advance; m) stop :=
  bind (n := tokens.length + 2) (a := ()) .advance (Nat.lt_succ_self _) rfl hm

theorem failAt (token : Token) (cause : Fault.Cause) :
    Fails file last tokens (ParseM.failAt token cause : ParseM α)
      (.fault ⟨cause, .ofLength file token.line token.column token.width⟩) := by
  rintro cursor hcursor - -
  rw [← hcursor.file_eq]
  exact ⟨cursor, rfl⟩

theorem fail (cause : Fault.Cause) : Fails file last tokens (ParseM.fail cause : ParseM α)
    (.fault ⟨cause, .ofLength file (tokens.headD last).line (tokens.headD last).column
      (tokens.headD last).width⟩) :=
  .look (failAt (tokens.headD last) cause)

/-- The budget of a cursor is more than there are tokens. -/
theorem getBudget {m : Nat → ParseM α}
    (h : ∀ bound, tokens.length < bound → Fails file last tokens (m bound) stop) :
    Fails file last tokens (do m (← get).budget) stop := by
  rintro cursor hcursor hclean rfl
  exact h cursor.budget cursor.length_view_lt_budget cursor hcursor hclean rfl

theorem loop {round : σ → ParseM (Round σ β)} {state : σ}
    (h : Fails file last tokens (round state) stop) :
    Fails file last tokens (ParseM.loop round state) stop := by
  refine getBudget (m := fun bound => loopWithin round bound state) fun bound hbound => ?_
  obtain ⟨bound, rfl⟩ : ∃ before, bound = before + 1 := ⟨bound - 1, by omega⟩
  exact .first h

end Fails

end ParseM

end Offside
