import Offside.Proofs.Grammar.Agrees
import Offside.Proofs.Program

/-!
# The faults of a text

`parse_faults` says where `parse` and `tokenize` agree on a text: what `parse` accepts has tokens, a
lexical fault is the one that `tokenize` stops in, and a fault of the grammar stands on a token that
the text has before its first lexical fault.

The argument runs the parser in lockstep with itself: its cursor has read deliveries without a fault
(`Cursor.Follows`), so that the next fault is the first, and the tokens that its rules hold on to
are tokens of the text.
-/

namespace Offside

namespace Token.Stream

/-- The tokens up to the first fault, or to the end of the text with the end token. -/
def emitted (stream : Token.Stream) : List Token :=
  Delivery.tokens (stream.ahead ++ [stream.last])

theorem emitted_eq {stream : Token.Stream} {tokens : List Token} (h : stream.tokens = .ok tokens) :
    stream.emitted = tokens :=
  (mapM_result_eq_ok_iff.1 h).2.symm

end Token.Stream

/-! ## Lexical faults -/

/-- Deliveries stop in their first fault. -/
theorem mapM_result_eq_error {read rest : List Delivery} {delivery : Delivery} {fault : Fault}
    (hread : ∀ delivery ∈ read, ∃ token, delivery.result = .ok token)
    (hfault : delivery.result = .error fault) :
    (read ++ delivery :: rest).mapM Delivery.result = .error fault := by
  induction read with
  | nil => rw [List.nil_append, List.mapM_cons, hfault]; rfl
  | cons first read ih =>
    obtain ⟨⟨token, htoken⟩, hread⟩ := List.forall_mem_cons.1 hread
    rw [List.cons_append, List.mapM_cons, htoken, ih hread]
    rfl

/-- A delivery whose fault, if it is one, is lexical. -/
def Delivery.Lexical (delivery : Delivery) : Prop :=
  ∀ fault, delivery.result = .error fault → fault.cause.phase = .lexical

theorem Scanner.Goes.lexical {scanner after : Scanner} {delivery : Delivery}
    (h : scanner.Goes delivery after) : delivery.Lexical := by
  intro fault hfault
  cases h with
  | indentation | unrecognised =>
    cases hfault
    rfl
  | _ => cases hfault

/-- All that a stream has yet to deliver. -/
def Token.Stream.Lexical (stream : Token.Stream) : Prop :=
  ∀ delivery ∈ stream.ahead ++ [stream.last], delivery.Lexical

theorem Token.Stream.lexical_ofText (source : String) (file : Option String) :
    (Token.Stream.ofText source file).Lexical := by
  obtain ⟨hahead, hlast⟩ := Scanner.forall_mem_stream
    (fun scanner (_ : True) => ⟨scanner.goes_next.lexical, trivial⟩) (Scanner.ofText source file) trivial
  exact List.forall_mem_append.2 ⟨hahead, List.forall_mem_singleton.2 hlast⟩

/-! ## Cursors that follow a stream -/

/-- A fault of the text whose stream this is: one that its tokens stop in, or one that stands on a
token before that. -/
structure Fault.IsOf (stream : Token.Stream) (file : String) (fault : Fault) : Prop where
  lexical : fault.cause.phase = .lexical → stream.tokens = .error fault
  grammatical : fault.cause.phase = .grammatical →
    ∃ token ∈ stream.emitted, fault.span = .ofLength file token.line token.column token.width

/-- The cursor has read a part of the stream, in which there is no fault. -/
structure Cursor.Follows (stream : Token.Stream) (file : String) (cursor : Cursor) : Prop where
  sound : cursor.Sound file cursor.endToken
  current : cursor.current ∈ stream.emitted
  rest : ∃ read, (∀ delivery ∈ read, ∃ token, delivery.result = .ok token) ∧
    stream.ahead ++ [stream.last] = read ++ (cursor.stream.ahead ++ [cursor.stream.last])

variable {stream : Token.Stream} {file : String} {cursor : Cursor}

theorem Token.Stream.exists_next (stream : Token.Stream) :
    ∃ rest, stream.ahead ++ [stream.last] = stream.next.1 :: rest := by
  unfold next
  split
  · rename_i delivery ahead hahead
    exact ⟨ahead ++ [stream.last], by rw [hahead, List.cons_append]⟩
  · rename_i hahead
    exact ⟨[], by rw [hahead, List.nil_append]⟩

/-- A token that is delivered after what was read is one of the stream. -/
theorem Token.Stream.mem_emitted {stream rest : Token.Stream} {read : List Delivery} {token : Token}
    (hread : ∀ delivery ∈ read, ∃ token, delivery.result = .ok token)
    (hrest : stream.ahead ++ [stream.last] = read ++ (rest.ahead ++ [rest.last]))
    (hresult : rest.next.1.result = .ok token) : token ∈ stream.emitted := by
  obtain ⟨later, hlater⟩ := rest.exists_next
  rw [emitted, hrest, hlater, Delivery.tokens_append hread, Delivery.tokens, hresult]
  exact List.mem_append_right _ List.mem_cons_self

/-- A fault that is delivered after what was read is the first of the stream. -/
theorem Token.Stream.isOf_of_next {stream rest : Token.Stream} {read : List Delivery} {fault : Fault}
    (hlexical : stream.Lexical) (hread : ∀ delivery ∈ read, ∃ token, delivery.result = .ok token)
    (hrest : stream.ahead ++ [stream.last] = read ++ (rest.ahead ++ [rest.last]))
    (hresult : rest.next.1.result = .error fault) : fault.IsOf stream file := by
  obtain ⟨later, hlater⟩ := rest.exists_next
  rw [hlater] at hrest
  have hmem : rest.next.1 ∈ stream.ahead ++ [stream.last] := by
    rw [hrest]
    exact List.mem_append_right _ List.mem_cons_self
  refine ⟨fun _ => ?_, fun h => ?_⟩
  · rw [tokens, hrest, mapM_result_eq_error hread hresult]
  · rw [hlexical _ hmem fault hresult] at h
    cases h

/-- A step ends on the next token of the stream. -/
theorem Cursor.Follows.advance (h : cursor.Follows stream file) {after : Cursor}
    (hrun : ParseM.advance cursor = .ok () after) :
    after.Follows stream file ∧ after.view = cursor.view.tail := by
  obtain ⟨read, hread, hrest⟩ := h.rest
  obtain ⟨hleads, hview⟩ := ParseM.leads_of_advance h.sound hrun
  have hsound := hleads.sound
  rw [ParseM.advance_eq] at hrun
  split at hrun
  · rename_i token hresult
    have hcurrent := Token.Stream.mem_emitted hread hrest hresult
    cases hrun
    refine ⟨⟨hsound.endToken_eq.symm ▸ hsound, hcurrent, ?_⟩, hview⟩
    unfold Token.Stream.next at hresult ⊢
    cases hahead : cursor.stream.ahead with
    | nil => exact ⟨read, hread, by simpa [hahead] using hrest⟩
    | cons delivery ahead =>
      rw [hahead] at hrest hresult
      refine ⟨read ++ [delivery], ?_, by simpa using hrest⟩
      exact List.forall_mem_append.2 ⟨hread, List.forall_mem_singleton.2 ⟨token, hresult⟩⟩
  · cases hrun

theorem Cursor.Follows.log (h : cursor.Follows stream file) (log : Array Event) :
    { cursor with log }.Follows stream file :=
  ⟨h.sound.log log, h.current, h.rest⟩

theorem Cursor.follows_ofText {source : String} {file : Option String} {log : Array Event}
    (h : (Cursor.ofText source file log).result = .ok cursor) :
    cursor.Follows (Token.Stream.ofText source file) (file.getD Scanner.unknownFile) := by
  obtain ⟨hsound, -⟩ := Cursor.sound_ofText h
  obtain ⟨token, hresult, rfl⟩ := Cursor.ofText_eq_ok_iff.1 h
  refine ⟨hsound, ?_, ?_⟩
  · exact Token.Stream.mem_emitted (List.forall_mem_nil _) (List.nil_append _).symm hresult
  · generalize Token.Stream.ofText source file = stream at hresult ⊢
    unfold Token.Stream.next at hresult ⊢
    cases hahead : stream.ahead with
    | nil => exact ⟨[], by simp, by simp [hahead]⟩
    | cons delivery ahead =>
      rw [hahead] at hresult
      exact ⟨[delivery], List.forall_mem_singleton.2 ⟨token, hresult⟩, by simp⟩

/-- A run on the stream, beside itself. The events on the way do not matter. -/
def Lockstep.onStream (stream : Token.Stream) (file : String) (hlexical : stream.Lexical) :
    Lockstep where
  cursors cursor cursor' := cursor.Follows stream file ∧ ∃ log, cursor' = { cursor with log }
  tokens token token' := token' = token ∧ token ∈ stream.emitted ∧ (token.isEnd → token.value = "")
  stops fault _ fault' _ := fault' = fault ∧ fault.IsOf stream file
  place := id
  place' := id
  moved := by
    rintro token token' ⟨rfl, -⟩
    exact ⟨token'.line, token'.column, rfl⟩
  regular h := h.2.2
  current := by
    rintro cursor cursor' ⟨h, log, rfl⟩
    exact ⟨rfl, h.current, h.sound.current.2⟩
  length_view := by
    rintro cursor cursor' ⟨-, log, rfl⟩
    rfl
  advance := by
    rintro cursor cursor' ⟨h, log, rfl⟩
    have hafter := @h.advance
    rw [ParseM.advance_eq] at hafter
    rw [ParseM.advance_eq, ParseM.advance_eq]
    dsimp only
    cases hresult : cursor.stream.next.1.result with
    | ok token =>
      rw [hresult] at hafter
      obtain ⟨hfollows, hview⟩ := hafter rfl
      exact ⟨⟨hfollows, _, rfl⟩, hview⟩
    | error fault =>
      obtain ⟨read, hread, hrest⟩ := h.rest
      exact ⟨rfl, Token.Stream.isOf_of_next hlexical hread hrest hresult⟩
  fault := by
    rintro cursor cursor' token token' cause ⟨h, log, rfl⟩ ⟨rfl, hmem, -⟩ hphase
    refine ⟨rfl, fun h => ?_, fun _ => ⟨token', hmem, by rw [Cursor.fault, h.sound.file_eq]⟩⟩
    rw [Cursor.fault, hphase] at h
    cases h
  note := by
    rintro cursor cursor' event event' ⟨h, log, rfl⟩ - -
    exact ⟨h.log _, _, rfl⟩
  place_eq := by
    rintro cursor cursor' token token' ⟨-, log, rfl⟩ ⟨rfl, -⟩
    rfl

/-! ## Whole texts -/

variable {source : String} {name : Option String} {stop : Stop}

theorem Cursor.next_of_ofText {log : Array Event} {fault : Fault}
    (h : (Cursor.ofText source name log).result = .error fault) :
    (Token.Stream.ofText source name).next.1.result = .error fault := by
  unfold Cursor.ofText at h
  dsimp only at h
  cases hresult : (Token.Stream.ofText source name).next.1.result with
  | ok token =>
    rw [hresult] at h
    cases h
  | error fault' =>
    rw [hresult] at h
    cases h
    rfl

/-- The parser stops in a fault of the text. -/
theorem exists_fault_of_parse (h : (parse source name).result = .error stop) :
    ∃ fault, stop = .fault fault ∧
      fault.IsOf (Token.Stream.ofText source name) (name.getD Scanner.unknownFile) := by
  have hlexical := Token.Stream.lexical_ofText source name
  rw [parse_result] at h
  split at h
  · rename_i fault hstart
    cases h
    exact ⟨fault, rfl, Token.Stream.isOf_of_next hlexical (List.forall_mem_nil _)
      (List.nil_append _).symm (Cursor.next_of_ofText hstart)⟩
  · rename_i cursor hstart
    have hagrees := Grammar.standard_agrees.program (P := ParseM.anyToken)
      (s := .onStream _ _ hlexical) (n := cursor.view.length + 1) cursor cursor
      ⟨Cursor.follows_ofText hstart, cursor.log, rfl⟩ (Nat.lt_succ_self _) trivial
    split at h
    · cases h
    · rename_i hrun
      rw [show Grammar.standard.program cursor = .error _ _ from hrun] at hagrees
      cases h
      cases stop with
      | fault fault => exact ⟨fault, rfl, hagrees.2⟩
      | exhausted => exact hagrees.elim

/-- What `parse` accepts has tokens. A lexical fault is the one that `tokenize` stops in; any other
stands on a token that the text has before that. There is no other way to stop. -/
theorem parse_faults (source : String) (file : Option String) :
    match (parse source file).result with
    | .ok _ => (tokenize source file).result = .ok (Token.Stream.ofText source file).emitted
    | .error (.fault fault) =>
      (fault.cause.phase = .lexical → (tokenize source file).result = .error fault) ∧
        (fault.cause.phase = .grammatical → ∃ token ∈ (Token.Stream.ofText source file).emitted,
          fault.span.line = token.line ∧ fault.span.column = token.column ∧
            fault.span.length = max 1 token.value.length)
    | .error .exhausted => False := by
  cases hresult : (parse source file).result with
  | ok block =>
    obtain ⟨tokens, last, htokens, -⟩ := parse_eq_ok_iff.1 hresult
    rwa [Token.Stream.emitted_eq htokens]
  | error stop =>
    obtain ⟨fault, rfl, hfault⟩ := exists_fault_of_parse hresult
    refine ⟨hfault.lexical, fun hphase => ?_⟩
    obtain ⟨token, hmem, hspan⟩ := hfault.grammatical hphase
    rw [hspan]
    exact ⟨token, hmem, rfl, rfl, Nat.max_eq_left (Nat.le_max_left ..)⟩

end Offside
