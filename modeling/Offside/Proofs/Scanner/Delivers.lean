import Offside.Proofs.Program
import Offside.Proofs.Scanner.Laid

/-!
# Tokens in a row

`Scanner.Delivers` leads from one scanner to another over the tokens that are delivered on the way,
and `tokenize_eq_ok_iff` says what that is for a whole text. The invariants of a single delivery
carry over: the tokens are proper, and laid below the open blocks, and the widths of those grow from
the outside to the inside.
-/

namespace Offside

/-! ## Layouts -/

/-- The widths of the open blocks grow from the outside to the inside. -/
def Layout.Descends (layout : Layout) : Prop :=
  layout.widths.Pairwise (· > ·)

theorem Layout.descends_enter {layout : Layout} (h : layout.Descends) (width : Nat) :
    (layout.enter width).Descends := by
  unfold enter
  split
  · rename_i hdeeper
    refine List.pairwise_cons.2 ⟨fun outer houter => ?_, h⟩
    unfold Descends at h
    unfold Layout.width at hdeeper
    cases hwidths : layout.widths with
    | nil =>
      rw [hwidths] at houter
      cases houter
    | cons inner others =>
      rw [hwidths] at h houter hdeeper
      rcases List.mem_cons.1 houter with rfl | hmem
      · exact hdeeper
      · exact Nat.lt_trans ((List.pairwise_cons.1 h).1 outer hmem) hdeeper
  · exact h.sublist (List.dropWhile_suffix _).sublist

/-- Inside no block but the text itself. -/
theorem Layout.widths_of_width {layout : Layout} (h : layout.Descends) (hbottom : 0 ∈ layout.widths)
    (hwidth : layout.width = 0) : layout.widths = [0] := by
  unfold Descends at h
  unfold Layout.width at hwidth
  cases hwidths : layout.widths with
  | nil =>
    rw [hwidths] at hbottom
    cases hbottom
  | cons inner others =>
    rw [hwidths] at h hwidth
    cases others with
    | nil => rw [show inner = 0 from hwidth]
    | cons outer others =>
      have := (List.pairwise_cons.1 h).1 outer List.mem_cons_self
      rw [show inner = 0 from hwidth] at this
      exact absurd this (Nat.not_lt_zero outer)

namespace Scanner

variable {tokens : List Token}

/-! ## Deliveries -/

/-- Tokens in a row, none of them the end token. -/
inductive Delivers : Scanner → List Token → Scanner → Prop
  | refl {scanner : Scanner} : Delivers scanner [] scanner
  | step {scanner after : Scanner} {token : Token} {tokens : List Token}
    (h : scanner.next.1.result = .ok token) (hend : token.isEnd = false)
    (hrest : Delivers scanner.next.2 tokens after) : Delivers scanner (token :: tokens) after

theorem Delivers.of_goes {scanner middle after : Scanner} {token : Token} {events : List Event}
    (h : scanner.Goes ⟨.ok token, events⟩ middle) (hend : token.isEnd = false)
    (hrest : Delivers middle tokens after) : Delivers scanner (token :: tokens) after := by
  refine .step ?_ hend ?_ <;> rw [h.next_eq]
  exact hrest

theorem Delivers.trans {scanner middle after : Scanner} {tokens tokens' : List Token}
    (h : Delivers scanner tokens middle) (h' : Delivers middle tokens' after) :
    Delivers scanner (tokens ++ tokens') after := by
  induction h with
  | refl => exact h'
  | step hresult hend _ ih => exact .step hresult hend (ih h')

/-- A scanner that delivers the end token delivers it for ever. -/
structure Ends (scanner : Scanner) (last : Token) : Prop where
  result_eq : scanner.next.1.result = .ok last
  isEnd : last.isEnd = true

theorem tokens_stream_of_isLast {scanner : Scanner} {tokens : List Token}
    (h : scanner.next.1.isLast = true) :
    scanner.stream.tokens = .ok tokens ↔
      ∃ token, scanner.next.1.result = .ok token ∧ tokens = [token] := by
  rw [stream, dif_pos h, Token.Stream.tokens, List.nil_append, List.mapM_cons]
  cases scanner.next.1.result with
  | error fault => simp [bind, Except.bind]
  | ok token => simp [bind, Except.bind, pure, Except.pure, eq_comm]

theorem tokens_stream_of_not_isLast {scanner : Scanner} {tokens : List Token}
    (h : ¬ scanner.next.1.isLast = true) :
    scanner.stream.tokens = .ok tokens ↔
      ∃ token others, scanner.next.1.result = .ok token ∧
        scanner.next.2.stream.tokens = .ok others ∧ tokens = token :: others := by
  rw [stream, dif_neg h, Token.Stream.tokens, List.cons_append, List.mapM_cons]
  show (scanner.next.1.result >>= fun token => scanner.next.2.stream.tokens >>= fun others =>
    pure (token :: others)) = .ok tokens ↔ _
  cases scanner.next.1.result with
  | error fault => simp [bind, Except.bind]
  | ok token =>
    cases scanner.next.2.stream.tokens with
    | error fault => simp [bind, Except.bind]
    | ok others => simp [bind, Except.bind, pure, Except.pure, eq_comm]

theorem isLast_of_ok {scanner : Scanner} {token : Token}
    (h : scanner.next.1.result = .ok token) : scanner.next.1.isLast = token.isEnd := by
  rw [Delivery.isLast, h]

theorem tokens_stream_eq_ok_iff {scanner : Scanner} {tokens : List Token} {last : Token} :
    scanner.stream.tokens = .ok (tokens ++ [last]) ↔
      ∃ after, Delivers scanner tokens after ∧ after.Ends last := by
  induction tokens generalizing scanner with
  | nil =>
    constructor
    · intro h
      by_cases hlast : scanner.next.1.isLast = true
      · obtain ⟨token, htoken, heq⟩ := (tokens_stream_of_isLast hlast).1 h
        cases heq
        exact ⟨scanner, .refl, htoken, isLast_of_ok htoken ▸ hlast⟩
      · obtain ⟨token, others, -, hothers, heq⟩ := (tokens_stream_of_not_isLast hlast).1 h
        cases heq
        -- There is always a last token.
        have hlength := congrArg List.length (mapM_result_eq_ok_iff.1 hothers).2
        have hall := (mapM_result_eq_ok_iff.1 hothers).1
        rw [List.forall_mem_append, List.forall_mem_singleton] at hall
        obtain ⟨hahead, lastToken, hlastToken⟩ := hall
        rw [Delivery.tokens_append hahead] at hlength
        simp [Delivery.tokens, hlastToken] at hlength
    · intro h
      obtain ⟨after, hdelivers, hends⟩ := h
      cases hdelivers
      have hlast := (isLast_of_ok hends.result_eq).trans hends.isEnd
      exact (tokens_stream_of_isLast hlast).2 ⟨last, hends.result_eq, rfl⟩
  | cons token tokens ih =>
    constructor
    · intro h
      by_cases hlast : scanner.next.1.isLast = true
      · obtain ⟨token', -, heq⟩ := (tokens_stream_of_isLast hlast).1 h
        simp at heq
      · obtain ⟨token', others, htoken, hothers, heq⟩ := (tokens_stream_of_not_isLast hlast).1 h
        cases heq
        obtain ⟨after, hdelivers, hends⟩ := ih.1 hothers
        rw [isLast_of_ok htoken, Bool.not_eq_true] at hlast
        exact ⟨after, .step htoken hlast hdelivers, hends⟩
    · intro h
      obtain ⟨after, hdelivers, hends⟩ := h
      cases hdelivers with
      | step htoken hend hrest =>
        have hlast : ¬ scanner.next.1.isLast = true := by
          rw [isLast_of_ok htoken, hend]
          simp
        exact (tokens_stream_of_not_isLast hlast).2
          ⟨token, _, htoken, ih.2 ⟨after, hrest, hends⟩, rfl⟩

theorem Delivers.pendingBreaks {scanner after : Scanner} (h : Delivers scanner tokens after)
    (hbreaks : scanner.PendingBreaks) : after.PendingBreaks := by
  induction h with
  | refl => exact hbreaks
  | step _ _ _ ih => exact ih (regular_next hbreaks).2

theorem pendingBreaks_ofText (source : String) (file : Option String) :
    (ofText source file).PendingBreaks := by
  simp [PendingBreaks, ofText]

theorem Delivers.proper {scanner after : Scanner} (h : Delivers scanner tokens after)
    (hbreaks : scanner.PendingBreaks) : ∀ token ∈ tokens, token.Proper := by
  induction h with
  | refl => simp
  | step hresult _ _ ih =>
    obtain ⟨hregular, hbreaks'⟩ := regular_next hbreaks
    exact List.forall_mem_cons.2 ⟨(hregular _ hresult).1, ih hbreaks'⟩

/-- The text ends only where nothing but spaces is left. -/
theorem Ends.spaces {scanner : Scanner} {last : Token} (h : scanner.Ends last)
    (hbreaks : scanner.PendingBreaks) :
    scanner.pending = [] ∧ scanner.rest.dropWhile (· == ' ') = [] :=
  scanner.goes_next.spaces hbreaks h.result_eq h.isEnd

theorem Goes.mem_pending {scanner after : Scanner} {delivery : Delivery} {token : Token}
    (h : scanner.Goes delivery after) (hrest : scanner.rest = [])
    (hresult : delivery.result = .ok token) (hend : token.isEnd = false) :
    token ∈ scanner.pending ∧ after.rest = [] := by
  have hskip : scanner.skipSpaces.rest = [] := by rw [skipSpaces, hrest, List.dropWhile_nil]
  cases h with
  | release hpending =>
    cases hresult
    exact ⟨hpending ▸ List.mem_cons_self, hrest⟩
  | stop =>
    cases hresult
    cases hend
  | lineBreak _ hbreak =>
    rw [hskip] at hbreak
    cases hbreak
  | cut _ hcut =>
    rw [hskip] at hcut
    cases hcut
  | indentation | unrecognised => cases hresult

/-- Past the last line of a text only the tokens that wait are delivered. -/
theorem Delivers.isBreak {scanner after : Scanner} (h : Delivers scanner tokens after)
    (hbreaks : scanner.PendingBreaks) (hrest : scanner.rest = []) :
    ∀ token ∈ tokens, token.IsBreak := by
  induction h with
  | refl => simp
  | @step scanner _ token _ hresult hend _ ih =>
    obtain ⟨hmem, hrest'⟩ := scanner.goes_next.mem_pending hrest hresult hend
    exact List.forall_mem_cons.2 ⟨hbreaks token hmem, ih (regular_next hbreaks).2 hrest'⟩

theorem Goes.layout {scanner after : Scanner} {delivery : Delivery}
    (h : scanner.Goes delivery after) :
    after.layout = scanner.layout ∨ ∃ level, after.layout = scanner.layout.enter level := by
  cases h with
  | lineBreak _ _ hline | indentation _ _ hline =>
    rw [hline]
    exact .inr ⟨_, rfl⟩
  | _ => exact .inl rfl

theorem descends_next {scanner : Scanner} (h : scanner.layout.Descends) :
    scanner.next.2.layout.Descends := by
  obtain heq | ⟨level, heq⟩ := scanner.goes_next.layout
  · rwa [heq]
  · rw [heq]
    exact Layout.descends_enter h level

theorem bottom_next {scanner : Scanner} (h : 0 ∈ scanner.layout.widths) :
    0 ∈ scanner.next.2.layout.widths := by
  obtain heq | ⟨level, heq⟩ := scanner.goes_next.layout
  · rwa [heq]
  · rw [heq]
    exact Layout.bottom_enter h

theorem Delivers.descends {scanner after : Scanner} (h : Delivers scanner tokens after)
    (hdescends : scanner.layout.Descends) : after.layout.Descends := by
  induction h with
  | refl => exact hdescends
  | step _ _ _ ih => exact ih (descends_next hdescends)

/-- Tokens in a row are laid below the open blocks if those after them are. -/
theorem Delivers.laid {source : String} {scanner after : Scanner}
    (h : Delivers scanner tokens after) (hplaced : scanner.Placed source) :
    after.Placed source ∧ ∀ others, Laid (Text.indentation source) after.layout.widths others →
      ∃ rest, tokens ++ (after.pending ++ others) = scanner.pending ++ rest ∧
        Laid (Text.indentation source) scanner.layout.widths rest := by
  induction h with
  | refl => exact ⟨hplaced, fun others hothers => ⟨others, rfl, hothers⟩⟩
  | step hresult hend _ ih =>
    obtain ⟨hnext, hlaid⟩ := (goes_next _).placed hplaced hresult hend
    obtain ⟨hafter, hlaid'⟩ := ih hnext
    refine ⟨hafter, fun others hothers => ?_⟩
    obtain ⟨rest, heq, hrest⟩ := hlaid' others hothers
    obtain ⟨rest', heq', hrest'⟩ := hlaid rest hrest
    exact ⟨rest', by rw [← heq', ← heq]; rfl, hrest'⟩

end Scanner

/-- A text has tokens where its scanner delivers them and the end token after them. -/
theorem tokenize_eq_ok_iff {source : String} {file : Option String} {tokens : List Token}
    {last : Token} :
    (tokenize source file).result = .ok (tokens ++ [last]) ↔
      ∃ after, (Scanner.ofText source file).Delivers tokens after ∧ after.Ends last :=
  Scanner.tokens_stream_eq_ok_iff

end Offside
