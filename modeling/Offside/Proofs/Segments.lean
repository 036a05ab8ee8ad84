import Offside.Proofs.Faults
import Offside.Proofs.Scanner.Passes
import Offside.Proofs.Text.Places
import Offside.Proofs.Token.Recut

/-!
# A text is its tokens and the gaps between them

The tokens that are delivered up to the end of a text or its first fault stand side by side in the
text, with nothing but white space between them (`tokens_segment`). Each of them knows its line and
its column, and so do the end token and the fault of a text that no pattern accepts.

The invariant is `Scanner.Located`: a scanner knows the place behind the text that it has passed.
-/

namespace Offside

open Text (lineAfter columnAfter)

namespace Token

/-- A part of a text. -/
inductive Segment where
  | blank (text : List Char)
  | lexeme (token : Token)

namespace Segment

/-- The characters of the part. -/
def text : Segment → List Char
  | blank text => text
  | lexeme token => token.value.toList

def token? : Segment → Option Token
  | blank _ => none
  | lexeme token => some token

end Segment

/-- The token stands behind the characters `before` of the source. -/
structure StandsAfter (source : String) (before : List Char) (token : Token) : Prop where
  line : token.line = lineAfter before
  column : token.column = columnAfter before
  shown : ∃ line, Text.line? source token.line = some line ∧
    token.value.toList <+: line.toList.drop token.column

/-- The segments make up the source between `before` and `rest`. The tokens among them are the given
ones, and know where they stand. -/
structure Segmented (source : String) (before : List Char) (segments : List Segment)
    (rest : List Char) (tokens : List Token) : Prop where
  text : source.toList = before ++ segments.flatMap Segment.text ++ rest
  tokens : segments.filterMap Segment.token? = tokens
  blanks : ∀ text, .blank text ∈ segments → ∀ c ∈ text, c = ' ' ∨ c = '\n'
  places : ∀ earlier token later, segments = earlier ++ .lexeme token :: later →
    token.StandsAfter source (before ++ earlier.flatMap Segment.text)

namespace Segmented

variable {source : String} {before text rest : List Char} {segments : List Segment}
  {token : Token} {tokens : List Token}

theorem nil (h : source.toList = before ++ rest) : Segmented source before [] rest [] where
  text := by simpa using h
  tokens := rfl
  blanks := by simp
  places := by simp

theorem blank (h : Segmented source (before ++ text) segments rest tokens)
    (htext : ∀ c ∈ text, c = ' ' ∨ c = '\n') :
    Segmented source before (.blank text :: segments) rest tokens where
  text := by simpa [Segment.text] using h.text
  tokens := h.tokens
  blanks := by
    intro other hmem
    rcases List.mem_cons.1 hmem with heq | hmem
    · cases heq
      exact htext
    · exact h.blanks other hmem
  places := by
    intro earlier token later heq
    cases earlier with
    | nil => cases heq
    | cons first earlier =>
      obtain ⟨rfl, hsegments⟩ := List.cons.inj heq
      simpa [Segment.text] using h.places earlier token later hsegments

theorem lexeme (h : Segmented source (before ++ token.value.toList) segments rest tokens)
    (htoken : token.StandsAfter source before) :
    Segmented source before (.lexeme token :: segments) rest (token :: tokens) where
  text := by simpa [Segment.text] using h.text
  tokens := congrArg (token :: ·) h.tokens
  blanks := by
    intro text hmem
    rcases List.mem_cons.1 hmem with heq | hmem
    · cases heq
    · exact h.blanks text hmem
  places := by
    intro earlier other later heq
    cases earlier with
    | nil =>
      cases heq
      simpa using htoken
    | cons first earlier =>
      obtain ⟨rfl, hsegments⟩ := List.cons.inj heq
      simpa [Segment.text] using h.places earlier other later hsegments

end Segmented

end Token

open Token (Segment Segmented)

namespace Scanner

variable {source : String} {before : List Char} {scanner after : Scanner} {tokens : List Token}

/-! ## The place of a scanner -/

/-- The scanner has passed the characters `before` of the source, and knows the place behind
them. -/
structure Located (source : String) (before : List Char) (scanner : Scanner) : Prop where
  text : source.toList = before ++ scanner.rest
  line : scanner.line = lineAfter before
  column : scanner.column = columnAfter before

theorem located_ofText (source : String) (file : Option String) :
    (ofText source file).Located source [] :=
  ⟨rfl, rfl, rfl⟩

theorem Located.skipSpaces (h : scanner.Located source before) :
    scanner.skipSpaces.Located source (before ++ scanner.spaces) where
  text := by rw [List.append_assoc, spaces_append, h.text]
  line := by
    rw [Text.lineAfter_append scanner.newline_not_mem_spaces]
    exact h.line
  column := by
    rw [Text.columnAfter_append scanner.newline_not_mem_spaces, ← h.column]
    rfl

theorem Located.afterCut {kind : Token.Kind} {value : String} {rest : List Char}
    (h : scanner.Located source before)
    (hcut : Token.cut? scanner.skipSpaces.rest = some (kind, value, rest)) :
    (scanner.afterCut value rest).Located source (before ++ scanner.spaces ++ value.toList) where
  text := by
    rw [h.skipSpaces.text, Token.eq_append_of_cut? hcut, ← List.append_assoc]
    rfl
  line := by
    rw [Text.lineAfter_append (Token.newline_not_mem_of_cut? hcut)]
    exact h.skipSpaces.line
  column := by
    rw [Text.columnAfter_append (Token.newline_not_mem_of_cut? hcut), ← h.skipSpaces.column,
      String.length_toList]
    rfl

/-- What is cut off stands behind the spaces before it. -/
theorem Located.standsAfter {kind : Token.Kind} {value : String} {rest : List Char}
    (h : scanner.Located source before)
    (hcut : Token.cut? scanner.skipSpaces.rest = some (kind, value, rest)) :
    Token.StandsAfter source (before ++ scanner.spaces)
      ⟨kind, value, scanner.line, scanner.skipSpaces.column⟩ where
  line := h.skipSpaces.line
  column := h.skipSpaces.column
  shown := by
    obtain ⟨c, others, hvalue, -⟩ := Token.exists_head_of_cut? hcut
    have htext := h.skipSpaces.text
    rw [Token.eq_append_of_cut? hcut] at htext
    have hshown := Text.exists_line?_of_append htext (by simp [hvalue])
      (Token.newline_not_mem_of_cut? hcut) (Token.getLast?_of_cut? hcut)
    rwa [← h.skipSpaces.line, ← h.skipSpaces.column] at hshown

theorem Located.afterBreak {rest : List Char} (h : scanner.Located source before)
    (hrest : scanner.skipSpaces.rest = '\n' :: rest) : ∃ blank,
      (∀ c ∈ blank, c = ' ' ∨ c = '\n') ∧
        (scanner.afterBreak rest).Located source (before ++ blank) := by
  obtain ⟨passed, earlier, htext, hblank, hline, hlast⟩ := exists_passed_afterBreak hrest
  have hspaces : '\n' ∉ List.replicate (scanner.afterBreak rest).column ' ' :=
    fun hmem => absurd (List.eq_of_mem_replicate hmem) (by decide)
  refine ⟨passed, hblank, ?_, ?_, ?_⟩
  · rw [h.text, htext, List.append_assoc]
  · rw [hline, h.line, Text.lineAfter, Text.lineAfter, List.count_append]
    omega
  · rw [hlast, ← List.append_assoc, Text.columnAfter_newline _ hspaces, List.length_replicate]

/-! ## Passages -/

/-- What a passage leads over, up to the next word, is the tokens on the way and white space. -/
theorem Passes.exists_segmented (h : Passes scanner tokens after)
    (hlocated : scanner.Located source before) : ∃ segments,
      Segmented source before segments after.skipSpaces.rest
          (tokens.filter (!·.kind.isSynthetic)) ∧
        after.skipSpaces.Located source (before ++ segments.flatMap Segment.text) := by
  induction h generalizing before with
  | refl =>
    have hnext := hlocated.skipSpaces
    exact ⟨_, (Segmented.nil hnext.text).blank fun c hc => .inl (eq_space_of_mem_spaces hc),
      by simpa [Segment.text] using hnext⟩
  | @cut scanner after kind value rest tokens hcut _ ih =>
    obtain ⟨segments, hsegments, hafter⟩ := ih (hlocated.afterCut hcut)
    have hkind := Token.Kind.isSynthetic_of_cut? hcut
    have hlexeme := (hsegments.lexeme (hlocated.standsAfter hcut)).blank
      fun c hc => .inl (eq_space_of_mem_spaces hc)
    rw [List.filter_cons_of_pos (by simp [hkind])]
    exact ⟨_, hlexeme, by simpa [Segment.text] using hafter⟩
  | @lineBreak scanner after rest kinds tokens hrest hkinds _ ih =>
    obtain ⟨blank, hblank, hnext⟩ := hlocated.afterBreak hrest
    obtain ⟨segments, hsegments, hafter⟩ := ih hnext
    have hbreaks :
        ((scanner.afterBreak rest).breakTokens kinds).filter (!·.kind.isSynthetic) = [] := by
      simp only [breakTokens, List.filter_eq_nil_iff, List.forall_mem_cons, List.forall_mem_map]
      exact ⟨by simp [mark, Token.Kind.isSynthetic], fun kind hkind => by
        simp [mark, Layout.isSynthetic_of_breaks? hkinds kind hkind]⟩
    rw [List.filter_append, hbreaks, List.nil_append]
    exact ⟨_, hsegments.blank hblank, by simpa [Segment.text] using hafter⟩

/-! ## The first fault -/

theorem emitted_cons {delivery last : Delivery} {ahead : List Delivery} {token : Token}
    (h : delivery.result = .ok token) : (Token.Stream.mk (delivery :: ahead) last).emitted =
      token :: (Token.Stream.mk ahead last).emitted := by
  rw [Token.Stream.emitted, List.cons_append, Delivery.tokens, h]
  rfl

theorem tokens_cons {delivery last : Delivery} {ahead : List Delivery} {token : Token}
    (h : delivery.result = .ok token) : (Token.Stream.mk (delivery :: ahead) last).tokens =
      (Token.Stream.mk ahead last).tokens.map (token :: ·) := by
  rw [Token.Stream.tokens, List.cons_append, List.mapM_cons, h]
  show _ = ((ahead ++ [last]).mapM Delivery.result).map (token :: ·)
  cases (ahead ++ [last]).mapM Delivery.result <;> rfl

/-- A stream that begins with a fault has no tokens before it. -/
theorem stops_of_error {stream : Token.Stream} {delivery : Delivery} {rest : List Delivery}
    {first : Fault} (h : stream.ahead ++ [stream.last] = delivery :: rest)
    (hresult : delivery.result = .error first) :
    stream.tokens = .error first ∧ stream.emitted = [] := by
  rw [Token.Stream.tokens, Token.Stream.emitted, h]
  refine ⟨?_, by rw [Delivery.tokens, hresult]⟩
  rw [List.mapM_cons, hresult]
  rfl

/-- The tokens before the first fault of a stream lead to the scanner that comes to it. -/
theorem exists_delivers_of_error {fault : Fault} (h : scanner.stream.tokens = .error fault) :
    ∃ after, Delivers scanner scanner.stream.emitted after ∧
      after.next.1.result = .error fault := by
  -- In both branches of the walk, a scanner that comes to the fault is reached by no tokens.
  have hstops {stream : Token.Stream} {rest : List Delivery} {first : Fault} {scanner : Scanner}
      (hresult : scanner.next.1.result = .error first)
      (hstream : stream.ahead ++ [stream.last] = scanner.next.1 :: rest)
      (h : stream.tokens = .error fault) : ∃ after, Delivers scanner stream.emitted after ∧
        after.next.1.result = .error fault := by
    obtain ⟨htokens, hemitted⟩ := stops_of_error hstream hresult
    rw [htokens] at h
    cases h
    rw [hemitted]
    exact ⟨scanner, .refl, hresult⟩
  fun_induction stream scanner with
  | case1 scanner delivery hlast =>
    cases hresult : scanner.next.1.result with
    | ok token =>
      have htokens := (tokens_stream_of_isLast hlast).2 ⟨token, hresult, rfl⟩
      rw [stream, dif_pos hlast, h] at htokens
      cases htokens
    | error first => exact hstops hresult rfl h
  | case2 scanner delivery hlast stream ih =>
    cases hresult : scanner.next.1.result with
    | ok token =>
      have hend : token.isEnd = false := by
        rwa [show delivery = scanner.next.1 from rfl, isLast_of_ok hresult,
          Bool.not_eq_true] at hlast
      rw [tokens_cons hresult] at h
      rw [emitted_cons hresult]
      cases hrest : stream.tokens with
      | ok tokens =>
        rw [show (Token.Stream.mk stream.ahead stream.last).tokens = _ from hrest] at h
        cases h
      | error other =>
        rw [show (Token.Stream.mk stream.ahead stream.last).tokens = _ from hrest] at h
        cases h
        obtain ⟨after, hdelivers, hfault⟩ := ih hrest
        exact ⟨after, .step hresult hend hdelivers, hfault⟩
    | error first => exact hstops hresult rfl h

/-- A scanner that comes to a fault has it for its first one. -/
theorem Delivers.tokens_of_error {fault : Fault} (h : Delivers scanner tokens after)
    (hfault : after.next.1.result = .error fault) : scanner.stream.tokens = .error fault := by
  induction h with
  | @refl scanner =>
    rw [stream]
    split
    · exact (stops_of_error rfl hfault).1
    · exact (stops_of_error (List.cons_append ..) hfault).1
  | @step scanner after token tokens hresult hend _ ih =>
    have hlast : ¬ scanner.next.1.isLast = true := by
      rw [isLast_of_ok hresult, hend]
      exact Bool.false_ne_true
    rw [stream, dif_neg hlast, tokens_cons hresult]
    exact congrArg (Except.map (token :: ·)) (ih hfault)

/-- Where no pattern accepts the text ahead, the fault shows the beginning of it. -/
theorem Goes.cut_eq_none {delivery : Delivery} {fault : Fault} {text : String}
    (h : scanner.Goes delivery after) (hresult : delivery.result = .error fault)
    (hcause : fault.cause = .unrecognised text) :
    Token.cut? scanner.skipSpaces.rest = none ∧
      (∃ c others, scanner.skipSpaces.rest = c :: others ∧ c ≠ ' ' ∧ c ≠ '\n') ∧
        text = String.ofList (scanner.skipSpaces.rest.take 6) ∧ fault.span.line = scanner.line ∧
          fault.span.column = scanner.skipSpaces.column := by
  cases h with
  | indentation =>
    cases hresult
    cases hcause
  | @unrecognised c others _ hrest hnewline hcut =>
    cases hresult
    cases hcause
    have hspace : c ≠ ' ' := by
      have hhead := List.head?_dropWhile_not (· == ' ') scanner.rest
      rw [show scanner.rest.dropWhile _ = _ from hrest] at hhead
      simpa using hhead
    rw [hrest]
    exact ⟨hcut, ⟨c, others, rfl, hspace, hnewline⟩, rfl, rfl, rfl⟩
  | _ => cases hresult

theorem Goes.pending_of_error {delivery : Delivery} {fault : Fault}
    (h : scanner.Goes delivery after) (hresult : delivery.result = .error fault) :
    scanner.pending = [] := by
  cases h with
  | release => cases hresult
  | stop hpending | lineBreak hpending | indentation hpending | cut hpending
  | unrecognised hpending => exact hpending

end Scanner

/-! ## Whole texts -/

/-- The tokens of a text up to its end, or to its first fault, are segments of the text with nothing
but white space between them. They stand where their lines and columns say, and so does the end
token of a text without faults, or a fault because of the text behind the segments. -/
theorem tokens_segment (source : String) (file : Option String) :
    ∃ segments rest, Segmented source [] segments rest
        ((Token.Stream.ofText source file).emitted.filter (!·.kind.isSynthetic)) ∧
      match (tokenize source file).result with
      | .ok tokens => rest = [] ∧ ∃ last, tokens.getLast? = some last ∧ last.kind = .endOfText ∧
          last.line = lineAfter source.toList ∧ last.column = columnAfter source.toList
      | .error fault => ∀ text, fault.cause = .unrecognised text →
          Token.cut? rest = none ∧ (∃ c others, rest = c :: others ∧ c ≠ ' ' ∧ c ≠ '\n') ∧
            text = String.ofList (rest.take 6) ∧
              fault.span.line = lineAfter (segments.flatMap Segment.text) ∧
                fault.span.column = columnAfter (segments.flatMap Segment.text) := by
  have hlocated := Scanner.located_ofText source file
  cases hresult : (tokenize source file).result with
  | ok stream =>
    obtain ⟨tokens, after, hpasses, hend, rfl⟩ := Scanner.exists_passes_of_tokenize hresult
    obtain ⟨segments, hsegments, hafter⟩ := hpasses.exists_segmented hlocated
    have htokens : (tokens ++ [after.skipSpaces.endToken]).filter (!·.kind.isSynthetic) =
        tokens.filter (!·.kind.isSynthetic) := by
      rw [List.filter_append]
      simp [Scanner.endToken, Token.Kind.isSynthetic]
    have htext := hafter.text
    rw [hend, List.append_nil] at htext
    refine ⟨segments, _, ?_, hend, _, List.getLast?_concat, ?_⟩
    · rw [Token.Stream.emitted_eq hresult, htokens]
      exact hsegments
    · rw [htext]
      exact ⟨rfl, hafter.line, hafter.column⟩
  | error fault =>
    obtain ⟨after, hdelivers, hfault⟩ := Scanner.exists_delivers_of_error hresult
    obtain ⟨tokens, htokens, hpasses⟩ := hdelivers.passes ((Scanner.goes_next _).pending_of_error hfault)
    obtain ⟨segments, hsegments, hafter⟩ := hpasses.exists_segmented hlocated
    refine ⟨segments, after.skipSpaces.rest, ?_, fun text hcause => ?_⟩
    · rw [show (Token.Stream.ofText source file).emitted = tokens from htokens]
      exact hsegments
    · obtain ⟨hcut, hword, htext, hline, hcolumn⟩ := (Scanner.goes_next _).cut_eq_none hfault hcause
      exact ⟨hcut, hword, htext, hline.trans hafter.line, hcolumn.trans hafter.column⟩

end Offside
