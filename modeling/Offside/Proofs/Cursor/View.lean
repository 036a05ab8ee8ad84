import Offside.Cursor
import Offside.Proofs.Scanner.Deliveries

/-!
# The tokens before a cursor

What a parser reads of its cursor is a list of tokens (`Cursor.view`): the current token and those
that the stream delivers after it, up to the end of the text or the first fault. `Cursor.Sound`
says that the cursor comes from the stream of a text, and `Cursor.Clean` that no fault lies ahead.
The one step of a cursor takes the first token off the view (`Cursor.Sound.advance`,
`Cursor.Clean.advance`); `Cursor.Leads` keeps what every run of a parser shares with that step.
-/

namespace Offside

/-- What all tokens in the view of a sound cursor are. -/
structure Token.InView (token : Token) : Prop extends token.Regular where
  isEnd_eq : token.isEnd = false

/-- The tokens of deliveries, up to the first fault. -/
def Delivery.tokens : List Delivery → List Token
  | [] => []
  | delivery :: rest =>
    match delivery.result with
    | .ok token => token :: tokens rest
    | .error _ => []

namespace Cursor

/-- The tokens from the current one on, up to the end of the text or the first fault. -/
def view (cursor : Cursor) : List Token :=
  if cursor.current.isEnd then [] else cursor.current :: Delivery.tokens cursor.stream.ahead

/-- The token that stands for the end of the text. -/
def endToken (cursor : Cursor) : Token :=
  match cursor.stream.last.result with
  | .ok token => token
  | .error _ => { kind := .endOfText, value := "", line := 0, column := 0 }

/-- A cursor in the file `file` over the stream of a text that ends in `last`. -/
structure Sound (file : String) (last : Token) (cursor : Cursor) : Prop where
  file_eq : cursor.file = file
  endToken_eq : cursor.endToken = last
  stream : cursor.stream.Regular
  current : cursor.current.Regular
  ended : cursor.current.isEnd = true →
    cursor.stream.ahead = [] ∧ cursor.stream.last.result = .ok cursor.current

/-- No fault is ahead of the cursor. -/
def Clean (cursor : Cursor) : Prop :=
  ∀ delivery ∈ cursor.stream.last :: cursor.stream.ahead, ∃ token, delivery.result = .ok token

variable {file : String} {last : Token} {cursor : Cursor}

theorem Sound.log (h : cursor.Sound file last) (log : Array Event) :
    { cursor with log }.Sound file last :=
  ⟨h.file_eq, h.endToken_eq, h.stream, h.current, h.ended⟩

/-- The end token is known by its class and has no text. -/
theorem Sound.last_isEnd (h : cursor.Sound file last) : last.isEnd = true ∧ last.value = "" := by
  obtain ⟨hregular, hlast⟩ := h.stream.last
  rw [← h.endToken_eq, endToken]
  split
  · rename_i token hresult
    have hend : token.isEnd = true := by simpa [Delivery.isLast, hresult] using hlast
    exact ⟨hend, (hregular _ hresult).2 hend⟩
  · exact ⟨rfl, rfl⟩

/-- Before the last delivery no token is the end token. -/
theorem Sound.isEnd_eq_false {delivery : Delivery} {token : Token} (h : cursor.Sound file last)
    (hmem : delivery ∈ cursor.stream.ahead) (hresult : delivery.result = .ok token) :
    token.isEnd = false := by
  simpa [Delivery.isLast, hresult] using (h.stream.ahead delivery hmem).2

theorem Sound.current_eq (h : cursor.Sound file last) : cursor.current = cursor.view.headD last := by
  unfold view
  split
  · rename_i hend
    rw [List.headD_nil, ← h.endToken_eq, endToken, (h.ended hend).2]
  · rfl

theorem mem_tokens {deliveries : List Delivery} {token : Token}
    (h : token ∈ Delivery.tokens deliveries) :
    ∃ delivery ∈ deliveries, delivery.result = .ok token := by
  induction deliveries with
  | nil => simp [Delivery.tokens] at h
  | cons delivery rest ih =>
    unfold Delivery.tokens at h
    split at h
    · rename_i first hfirst
      rcases List.mem_cons.1 h with rfl | h
      · exact ⟨delivery, List.mem_cons_self, hfirst⟩
      · obtain ⟨later, hlater, hresult⟩ := ih h
        exact ⟨later, List.mem_cons_of_mem _ hlater, hresult⟩
    · simp at h

/-- The tokens in view are regular, and none of them is the end token. -/
theorem Sound.view_inView (h : cursor.Sound file last) : ∀ token ∈ cursor.view, token.InView := by
  intro token htoken
  unfold view at htoken
  split at htoken
  · simp at htoken
  · rename_i hend
    rcases List.mem_cons.1 htoken with rfl | htoken
    · exact ⟨h.current, by simpa using hend⟩
    · obtain ⟨delivery, hmem, hresult⟩ := mem_tokens htoken
      exact ⟨(h.stream.ahead delivery hmem).1 token hresult, h.isEnd_eq_false hmem hresult⟩

theorem length_tokens_le (deliveries : List Delivery) :
    (Delivery.tokens deliveries).length ≤ deliveries.length := by
  induction deliveries with
  | nil => exact Nat.le_refl _
  | cons delivery rest ih =>
    unfold Delivery.tokens
    split
    · exact Nat.succ_le_succ ih
    · exact Nat.zero_le _

/-- The budget of a cursor is more than the tokens in view. -/
theorem length_view_lt_budget (cursor : Cursor) : cursor.view.length < cursor.budget := by
  have := length_tokens_le cursor.stream.ahead
  unfold view budget
  split
  · rw [List.length_nil]
    omega
  · rw [List.length_cons]
    omega

/-- What a run of a parser from one cursor to another shares with a single step: the later cursor is
sound as well, it has the same faults ahead, and its view is an end of the earlier one's. -/
structure Leads (file : String) (last : Token) (cursor after : Cursor) : Prop where
  sound : after.Sound file last
  clean_iff : after.Clean ↔ cursor.Clean
  suffix : after.view <:+ cursor.view

theorem Leads.refl (h : cursor.Sound file last) : Leads file last cursor cursor :=
  ⟨h, Iff.rfl, List.suffix_rfl⟩

theorem Leads.trans {middle after : Cursor} (h₁ : Leads file last cursor middle)
    (h₂ : Leads file last middle after) : Leads file last cursor after :=
  ⟨h₂.sound, h₂.clean_iff.trans h₁.clean_iff, h₂.suffix.trans h₁.suffix⟩

theorem Leads.log (h : cursor.Sound file last) (log : Array Event) :
    Leads file last cursor { cursor with log } :=
  ⟨h.log log, Iff.rfl, List.suffix_rfl⟩

end Cursor

namespace ParseM

variable {file : String} {last : Token} {cursor after : Cursor}

theorem advance_eq (cursor : Cursor) :
    advance cursor =
      match cursor.stream.next.1.result with
      | .ok current =>
        .ok () { cursor with
          current, stream := cursor.stream.next.2, log := cursor.log ++ cursor.stream.next.1.events }
      | .error fault =>
        .error (.fault fault) { cursor with
          stream := cursor.stream.next.2, log := cursor.log ++ cursor.stream.next.1.events } := by
  let log := cursor.log ++ cursor.stream.next.1.events
  have hrun : advance cursor = (match cursor.stream.next.1.result with
      | .ok current => set { cursor with current, stream := cursor.stream.next.2, log }
      | .error fault => do
        set { cursor with stream := cursor.stream.next.2, log }
        throw (.fault fault) : ParseM Unit) cursor := rfl
  rw [hrun]
  cases cursor.stream.next.1.result <;> rfl

/-- A step takes the first token off the view, if there is one. -/
theorem leads_of_advance (h : cursor.Sound file last) (hrun : advance cursor = .ok () after) :
    cursor.Leads file last after ∧ after.view = cursor.view.tail := by
  obtain ⟨current, hresult, hafter⟩ : ∃ current, cursor.stream.next.1.result = .ok current ∧
      after = { cursor with
        current, stream := cursor.stream.next.2,
        log := cursor.log ++ cursor.stream.next.1.events } := by
    rw [advance_eq] at hrun
    split at hrun
    · rename_i current hresult
      cases hrun
      exact ⟨current, hresult, rfl⟩
    · cases hrun
  cases hahead : cursor.stream.ahead with
  | nil =>
    -- The stream answers the end of the text once more.
    simp only [Token.Stream.next, hahead] at hresult hafter
    have hregular := h.stream.last.1 current hresult
    have hend : current.isEnd = true := by
      simpa [Delivery.isLast, hresult] using h.stream.last.2
    have hview : after.view = cursor.view.tail := by
      simp [hafter, Cursor.view, hend, hahead, Delivery.tokens, apply_ite List.tail]
    refine ⟨⟨⟨?_, ?_, ?_, ?_, ?_⟩, ?_, ?_⟩, hview⟩
    · simpa [hafter] using h.file_eq
    · simpa [hafter, Cursor.endToken] using h.endToken_eq
    · simpa [hafter] using h.stream
    · simpa [hafter] using hregular
    · simp [hafter, hahead, hresult]
    · simp [hafter, Cursor.Clean]
    · exact hview ▸ List.tail_suffix _
  | cons delivery ahead =>
    have hcurrent : cursor.current.isEnd = false := by
      cases hend : cursor.current.isEnd with
      | false => rfl
      | true => exact absurd (h.ended hend).1 (by simp [hahead])
    simp only [Token.Stream.next, hahead] at hresult hafter
    have hmem : delivery ∈ cursor.stream.ahead := hahead ▸ List.mem_cons_self
    have hnext : current.isEnd = false := h.isEnd_eq_false hmem hresult
    have hview : after.view = cursor.view.tail := by
      simp [hafter, Cursor.view, hcurrent, hnext, hahead, Delivery.tokens, hresult]
    refine ⟨⟨⟨?_, ?_, ?_, ?_, ?_⟩, ?_, ?_⟩, hview⟩
    · simpa [hafter] using h.file_eq
    · simpa [hafter, Cursor.endToken] using h.endToken_eq
    · simp only [hafter]
      exact ⟨fun later hlater => h.stream.ahead later (hahead ▸ List.mem_cons_of_mem _ hlater),
        h.stream.last⟩
    · simpa [hafter] using (h.stream.ahead delivery hmem).1 current hresult
    · simp [hafter, hnext]
    · simp [hafter, Cursor.Clean, hahead, hresult]
    · exact hview ▸ List.tail_suffix _

theorem exists_advance (h : cursor.Clean) : ∃ after, advance cursor = .ok () after := by
  rw [advance_eq]
  cases hahead : cursor.stream.ahead with
  | nil =>
    obtain ⟨token, htoken⟩ := h cursor.stream.last List.mem_cons_self
    simp [Token.Stream.next, hahead, htoken]
  | cons delivery ahead =>
    obtain ⟨token, htoken⟩ := h delivery (by simp [hahead])
    simp [Token.Stream.next, hahead, htoken]

/-- Where no fault is ahead, steps lead to every end of the view. -/
theorem exists_cursor_of_suffix {tokens : List Token} (h : cursor.Sound file last)
    (hclean : cursor.Clean) (hsuffix : tokens <:+ cursor.view) :
    ∃ after : Cursor, after.Sound file last ∧ after.Clean ∧ after.view = tokens := by
  obtain ⟨before, hview⟩ := hsuffix
  induction before generalizing cursor with
  | nil => exact ⟨cursor, h, hclean, hview.symm⟩
  | cons token before ih =>
    obtain ⟨after, hrun⟩ := exists_advance hclean
    obtain ⟨hleads, hafter⟩ := leads_of_advance h hrun
    refine ih hleads.sound (hleads.clean_iff.2 hclean) ?_
    rw [hafter, ← hview]
    rfl

end ParseM

end Offside
