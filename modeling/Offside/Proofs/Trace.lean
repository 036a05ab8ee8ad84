import Offside.Proofs.Faults
import Offside.Proofs.Grammar.Tallied
import Offside.Proofs.Grammar.Watched

/-!
# The trace of a parse

The events of a parse tell of the tokens of the text, as far as the parse comes, and of one extension
for each operation of the tree (`trace_of_parse`). So the parser asks for each token once and in
order, and loses none of the operations that it has made.

For the tokens, each delivery tells of the token that it delivers (`Delivery.Tells`), and the parser
runs in lockstep with itself: what its log tells of tokens is what the deliveries tell that its cursor
has read (`Cursor.Records`). For the operations, a ledger counts the extensions (`Ledger.extensions`).
-/

namespace Offside

/-- The event says that a token leaves the scanner. -/
def Event.isEmission : Event → Bool
  | tokenEmitted _ => true
  | _ => false

/-- What events tell of tokens. -/
def Event.emissions (events : List Event) : List Event :=
  events.filter Event.isEmission

open Event (emissions)

theorem Event.emissions_append (events events' : List Event) :
    emissions (events ++ events') = emissions events ++ emissions events' :=
  List.filter_append ..

/-! ## Deliveries -/

/-- What a delivery tells of tokens is the token that it delivers. What comes over and over tells of
none. -/
def Delivery.Tells (delivery : Delivery) : Prop :=
  emissions delivery.events =
    if delivery.isLast then [] else (Delivery.tokens [delivery]).map .tokenEmitted

theorem Event.emissions_breakEvents (layout : Layout) (line width : Nat) :
    emissions (layout.breakEvents line width) = [] := by
  unfold Layout.breakEvents
  split <;> simp [emissions, isEmission]

theorem Scanner.Goes.tells {scanner after : Scanner} {delivery : Delivery}
    (h : scanner.Goes delivery after) (hbreaks : scanner.PendingBreaks) : delivery.Tells := by
  have htoken {token : Token} (hend : token.isEnd = false) :
      Delivery.Tells ⟨.ok token, [.tokenEmitted token]⟩ := by
    simp [Delivery.Tells, Delivery.isLast, Delivery.tokens, hend, emissions, Event.isEmission]
  cases h with
  | release hpending => exact htoken (hbreaks _ (hpending ▸ List.mem_cons_self)).isEnd
  | cut _ hcut heq =>
    exact htoken (Token.isEnd_of_plain (by rw [heq, Token.Kind.isSynthetic_of_cut? hcut]))
  | stop | unrecognised => rfl
  | lineBreak =>
    rw [Delivery.Tells, Event.emissions_append, Event.emissions_breakEvents]
    rfl
  | indentation => exact Event.emissions_breakEvents _ _ _

namespace Token.Stream

theorem tells_ofText (source : String) (file : Option String) :
    (∀ delivery ∈ (ofText source file).ahead, delivery.Tells) ∧ (ofText source file).last.Tells :=
  Scanner.forall_mem_stream
    (fun scanner hbreaks => ⟨(Scanner.goes_next _).tells hbreaks, (Scanner.regular_next hbreaks).2⟩)
    (Scanner.ofText source file) (by simp [Scanner.PendingBreaks, Scanner.ofText])

theorem emissions_last_ofText (source : String) (file : Option String) :
    emissions (ofText source file).last.events = [] := by
  exact (tells_ofText source file).2.trans (if_pos (Scanner.isLast_stream _).2)

theorem go_singleton (delivery : Delivery) : untilFault.go [delivery] = [delivery] := by
  unfold untilFault.go
  split <;> rfl

/-- Up to its first fault a stream tells of the tokens that it delivers before the end. -/
theorem emissions_untilFault {ahead : List Delivery} {last : Delivery}
    (hahead : ∀ delivery ∈ ahead, delivery.Tells ∧ ¬ delivery.isLast)
    (hquiet : emissions last.events = []) :
    emissions ((untilFault.go (ahead ++ [last])).flatMap Delivery.events) =
      (Delivery.tokens ahead).map .tokenEmitted := by
  induction ahead with
  | nil =>
    rw [List.nil_append, go_singleton, List.flatMap_singleton, hquiet]
    rfl
  | cons delivery ahead ih =>
    obtain ⟨⟨htells, hlast⟩, hahead⟩ := List.forall_mem_cons.1 hahead
    rw [Delivery.Tells, if_neg hlast] at htells
    rw [List.cons_append, untilFault.go, Delivery.tokens]
    cases hresult : delivery.result with
    | ok token =>
      simp only [Delivery.tokens, hresult] at htells
      simp only [List.flatMap_cons, Event.emissions_append, htells, ih hahead, List.map_cons,
        List.map_nil, List.singleton_append]
    | error fault =>
      simp only [Delivery.tokens, hresult] at htells
      rw [List.flatMap_singleton, htells]

variable {stream rest : Token.Stream} {read read' : List Delivery}

/-- The deliveries that were read are the ones before those to come. -/
def Splits (stream : Token.Stream) (read : List Delivery) (rest : Token.Stream) : Prop :=
  stream.ahead ++ [stream.last] = read ++ (rest.ahead ++ [rest.last])

theorem Splits.last_eq (h : stream.Splits read rest) : rest.last = stream.last := by
  have hlast := congrArg List.getLast? h
  simpa using hlast.symm

/-- What one more delivery tells is told after what was read. -/
theorem Splits.emissions_next (h : stream.Splits read rest)
    (hquiet : emissions stream.last.events = []) (h' : stream.Splits read' rest.next.2) :
    emissions (read'.flatMap Delivery.events) =
      emissions (read.flatMap Delivery.events) ++ emissions rest.next.1.events := by
  have hlast := h.last_eq
  unfold Splits at h h'
  rw [h] at h'
  unfold next at h' ⊢
  cases hahead : rest.ahead with
  | nil =>
    rw [hahead] at h'
    simp only [hahead, List.append_cancel_right_eq] at h'
    simp only [hlast, hquiet, h', List.append_nil]
  | cons delivery ahead =>
    rw [hahead] at h'
    have heq : read ++ [delivery] = read' :=
      List.append_cancel_right ((List.append_assoc ..).trans h')
    rw [← heq, List.flatMap_append, List.flatMap_singleton, Event.emissions_append]

theorem go_append (hread : ∀ delivery ∈ read, ∃ token, delivery.result = .ok token)
    (later : List Delivery) : untilFault.go (read ++ later) = read ++ untilFault.go later := by
  induction read with
  | nil => rfl
  | cons delivery read ih =>
    obtain ⟨⟨token, htoken⟩, hread⟩ := List.forall_mem_cons.1 hread
    rw [List.cons_append, untilFault.go, htoken]
    exact congrArg (delivery :: ·) (ih hread)

/-- What was read without a fault is part of what is told of the stream. -/
theorem Splits.emissions_prefix (h : stream.Splits read rest)
    (hread : ∀ delivery ∈ read, ∃ token, delivery.result = .ok token) :
    emissions (read.flatMap Delivery.events) <+: emissions stream.events := by
  rw [events, untilFault, h, go_append hread, List.flatMap_append, Event.emissions_append]
  exact List.prefix_append _ _

/-- Nothing is told of the stream after its first fault. -/
theorem Splits.emissions_fault {fault : Fault} (h : stream.Splits read rest)
    (hread : ∀ delivery ∈ read, ∃ token, delivery.result = .ok token)
    (hfault : rest.next.1.result = .error fault) :
    emissions (read.flatMap Delivery.events) ++ emissions rest.next.1.events =
      emissions stream.events := by
  obtain ⟨later, hlater⟩ := rest.exists_next
  rw [events, untilFault, h, hlater, go_append hread, untilFault.go, hfault, List.flatMap_append,
    Event.emissions_append, List.flatMap_singleton]

/-- All that is told of the stream was read where only its last delivery is ahead. -/
theorem Splits.emissions_end (h : stream.Splits read rest)
    (hquiet : emissions stream.last.events = [])
    (hread : ∀ delivery ∈ read, ∃ token, delivery.result = .ok token) (hahead : rest.ahead = []) :
    emissions (read.flatMap Delivery.events) = emissions stream.events := by
  rw [events, untilFault, h, hahead, List.nil_append, go_append hread, go_singleton,
    List.flatMap_append, Event.emissions_append, List.flatMap_singleton, h.last_eq, hquiet,
    List.append_nil]

end Token.Stream

/-! ## Cursors that record what they read -/

/-- The cursor has read a part of the stream, and its log tells of the tokens there. -/
structure Cursor.Records (stream : Token.Stream) (file : String) (cursor : Cursor) : Prop where
  follows : cursor.Follows stream file
  log : ∀ read, stream.Splits read cursor.stream →
    emissions cursor.log.toList = emissions (read.flatMap Delivery.events)

variable {stream : Token.Stream} {file : String} {cursor : Cursor}

theorem Cursor.Follows.exists_splits (h : cursor.Follows stream file) :
    ∃ read, (∀ delivery ∈ read, ∃ token, delivery.result = .ok token) ∧
      stream.Splits read cursor.stream :=
  h.rest

theorem Cursor.Records.note (h : cursor.Records stream file) {event : Event} (hnote : event.IsNote) :
    { cursor with log := cursor.log.push event }.Records stream file := by
  refine ⟨h.follows.log _, fun read hread => ?_⟩
  have hquiet : event.isEmission = false := by
    cases event with
    | tokenEmitted token => exact absurd rfl (hnote token)
    | _ => rfl
  rw [Array.toList_push, Event.emissions_append, h.log read hread]
  simp [emissions, hquiet]

/-- A step tells of the token that it comes to, or of nothing if that was the end. -/
theorem Cursor.Records.advance (hquiet : emissions stream.last.events = [])
    (h : cursor.Records stream file) {after : Cursor} (hrun : ParseM.advance cursor = .ok () after) :
    after.Records stream file ∧ after.view = cursor.view.tail := by
  obtain ⟨hfollows, hview⟩ := h.follows.advance hrun
  obtain ⟨read, -, hread⟩ := h.follows.exists_splits
  refine ⟨⟨hfollows, fun read' hread' => ?_⟩, hview⟩
  rw [ParseM.advance_eq] at hrun
  split at hrun
  · cases hrun
    have hnext := hread.emissions_next hquiet hread'
    rw [hnext, Array.toList_appendList, Event.emissions_append, h.log read hread]
  · cases hrun

/-- What the log tells of tokens the stream tells too. -/
theorem Cursor.Records.emissions_prefix (h : cursor.Records stream file) :
    emissions cursor.log.toList <+: emissions stream.events := by
  obtain ⟨read, hread, hsplits⟩ := h.follows.exists_splits
  rw [h.log read hsplits]
  exact hsplits.emissions_prefix hread

/-- A step that a fault stops comes to the end of what the stream tells. -/
theorem Cursor.Records.emissions_fault (h : cursor.Records stream file) {fault : Fault}
    (hfault : cursor.stream.next.1.result = .error fault) :
    emissions (cursor.log ++ cursor.stream.next.1.events).toList <+: emissions stream.events := by
  obtain ⟨read, hread, hsplits⟩ := h.follows.exists_splits
  rw [Array.toList_appendList, Event.emissions_append, h.log read hsplits]
  exact hsplits.emissions_fault hread hfault ▸ List.prefix_refl _

/-- A run on the stream, beside itself. What it tells of tokens where it stops, it tells of tokens of
the stream. -/
def Lockstep.recording (stream : Token.Stream) (file : String)
    (hquiet : emissions stream.last.events = []) : Lockstep where
  cursors cursor cursor' := cursor.Records stream file ∧ ∃ log, cursor' = { cursor with log }
  tokens token token' := (token.isEnd → token.value = "") ∧ token' = token
  stops _ cursor _ _ := emissions cursor.log.toList <+: emissions stream.events
  place := id
  place' := id
  moved := by
    rintro token token' ⟨-, rfl⟩
    exact ⟨token'.line, token'.column, rfl⟩
  regular h := h.1
  current := by
    rintro cursor cursor' ⟨h, log, rfl⟩
    exact ⟨h.follows.sound.current.2, rfl⟩
  length_view := by
    rintro cursor cursor' ⟨-, log, rfl⟩
    rfl
  advance := by
    rintro cursor cursor' ⟨h, log, rfl⟩
    have hafter {after : Cursor} (hrun : ParseM.advance cursor = .ok () after) :
        after.Records stream file ∧ after.view = cursor.view.tail := h.advance hquiet hrun
    rw [ParseM.advance_eq] at hafter
    rw [ParseM.advance_eq, ParseM.advance_eq]
    dsimp only
    cases hresult : cursor.stream.next.1.result with
    | ok token =>
      rw [hresult] at hafter
      obtain ⟨hrecords, hview⟩ := hafter rfl
      exact ⟨⟨hrecords, _, rfl⟩, hview⟩
    | error fault => exact h.emissions_fault hresult
  fault := by
    rintro cursor cursor' token token' cause ⟨h, log, rfl⟩ ⟨-, rfl⟩ -
    exact h.emissions_prefix
  note := by
    rintro cursor cursor' event event' ⟨h, log, rfl⟩ hnote -
    exact ⟨h.note hnote, _, rfl⟩
  place_eq := by
    rintro cursor cursor' token token' ⟨-, log, rfl⟩ ⟨-, rfl⟩
    rfl

/-! ## Extensions -/

/-- The event says that a rule extends an expression. -/
def Event.isExtension : Event → Bool
  | ruleExtended .. => true
  | _ => false

/-- How many extensions were noted so far. -/
def Cursor.extensions (cursor : Cursor) : Nat :=
  cursor.log.toList.countP Event.isExtension

/-- No extension comes with the tokens ahead. -/
def Cursor.Plain (cursor : Cursor) : Prop :=
  ∀ delivery ∈ cursor.stream.last :: cursor.stream.ahead,
    ∀ event ∈ delivery.events, event.isExtension = false

theorem Cursor.extensions_push (cursor : Cursor) (event : Event) :
    { cursor with log := cursor.log.push event }.extensions =
      cursor.extensions + if event.isExtension then 1 else 0 := by
  rw [extensions, Array.toList_push, List.countP_append, List.countP_singleton]
  rfl

theorem Cursor.Plain.advance {after : Cursor} (h : cursor.Plain)
    (hrun : ParseM.advance cursor = .ok () after) :
    after.Plain ∧ after.extensions = cursor.extensions := by
  obtain ⟨hfirst, hrest⟩ := cursor.stream.mem_next
  rw [ParseM.advance_eq] at hrun
  split at hrun
  · cases hrun
    refine ⟨fun delivery hdelivery => h delivery (hrest delivery hdelivery), ?_⟩
    have hnone : cursor.stream.next.1.events.countP Event.isExtension = 0 :=
      List.countP_eq_zero.2 fun event hevent => by simp [h _ hfirst event hevent]
    rw [Cursor.extensions, Array.toList_appendList, List.countP_append, hnone]
    rfl
  · cases hrun

/-- Each extension makes an operation, and nothing else does. -/
def Ledger.extensions : Ledger where
  test expr := expr.kind.isOperation
  counts := Expr.counts_isOperation
  extension := 1
  holds k cursor := cursor.Plain ∧ cursor.extensions = k
  made _ h := h
  advance := by
    rintro k cursor after ⟨hplain, rfl⟩ hrun
    exact hplain.advance hrun
  note := by
    rintro k cursor event hevent ⟨hplain, rfl⟩
    refine ⟨hplain, (cursor.extensions_push event).trans ?_⟩
    cases event with
    | ruleExtended => exact absurd trivial hevent
    | _ => rfl
  extended := by
    rintro k cursor rule token ⟨hplain, rfl⟩
    exact ⟨hplain, cursor.extensions_push _⟩
  started := by
    rintro k depth cursor after rule start ⟨hplain, rfl⟩ - noted - hparse
    exact hparse _ ⟨hplain, cursor.extensions_push _⟩

/-! ## Whole texts -/

variable {source : String} {name : Option String}

/-- What is told of a text are its tokens before the end token or the first fault. -/
theorem emissions_tokenize (source : String) (name : Option String) :
    emissions (tokenize source name).events =
      (Delivery.tokens (Token.Stream.ofText source name).ahead).map .tokenEmitted := by
  have hregular := Token.Stream.regular_ofText source name
  exact Token.Stream.emissions_untilFault
    (fun delivery hmem =>
      ⟨(Token.Stream.tells_ofText source name).1 delivery hmem, (hregular.ahead delivery hmem).2⟩)
    (Token.Stream.emissions_last_ofText source name)

theorem Cursor.records_ofText {log : Array Event} (hlog : emissions log.toList = [])
    (h : (Cursor.ofText source name log).result = .ok cursor) :
    cursor.Records (Token.Stream.ofText source name) (name.getD Scanner.unknownFile) := by
  refine ⟨Cursor.follows_ofText h, fun read hread => ?_⟩
  obtain ⟨token, -, rfl⟩ := Cursor.ofText_eq_ok_iff.1 h
  have hstart : (Token.Stream.ofText source name).Splits [] (Token.Stream.ofText source name) := rfl
  have hnext := hstart.emissions_next (Token.Stream.emissions_last_ofText source name) hread
  rw [hnext, Array.toList_appendList, Event.emissions_append, hlog]
  rfl

/-- No extension comes with the tokens of a text. -/
theorem Cursor.plain_ofText {log : Array Event} (hlog : log.toList.countP Event.isExtension = 0)
    (h : (Cursor.ofText source name log).result = .ok cursor) :
    cursor.Plain ∧ cursor.extensions = 0 := by
  obtain ⟨token, -, rfl⟩ := Cursor.ofText_eq_ok_iff.1 h
  obtain ⟨hahead, hlast⟩ := Token.Stream.plain_ofText source name
  obtain ⟨hfirst, hrest⟩ := (Token.Stream.ofText source name).mem_next
  have hplain : ∀ delivery ∈ (Token.Stream.ofText source name).last ::
      (Token.Stream.ofText source name).ahead, ∀ event ∈ delivery.events,
        event.isExtension = false := by
    intro delivery hdelivery event hevent
    have hrule := List.forall_mem_cons.2 ⟨hlast, hahead⟩ delivery hdelivery event hevent
    cases event <;> first | rfl | exact absurd trivial hrule
  refine ⟨fun delivery hdelivery => hplain delivery (hrest delivery hdelivery), ?_⟩
  rw [extensions, Array.toList_appendList, List.countP_append, hlog, Nat.zero_add]
  exact List.countP_eq_zero.2 fun event hevent => by simp [hplain _ hfirst event hevent]

/-- A run over the statements of a text records what it reads, and tells of no token besides. -/
theorem Cursor.Records.program (hquiet : emissions stream.last.events = [])
    (h : cursor.Records stream file) :
    (∀ block after, Grammar.standard.program cursor = .ok block after → after.Records stream file) ∧
    ∀ stop after, Grammar.standard.program cursor = .error stop after →
      emissions after.log.toList <+: emissions stream.events := by
  have hends := Grammar.standard_agrees.program (P := ParseM.anyToken)
    (s := .recording stream file hquiet) (n := cursor.view.length + 1) cursor cursor
    ⟨h, cursor.log, rfl⟩ (Nat.lt_succ_self _) trivial
  constructor
  · intro block after hrun
    rw [hrun] at hends
    exact hends.1.1
  · intro stop after hrun
    rw [hrun] at hends
    cases stop with
    | fault fault => exact hends
    | exhausted => exact hends.elim

/-- Where a text was read to its end, the log tells of all of its tokens. -/
theorem Cursor.Records.emissions_end (hquiet : emissions stream.last.events = [])
    (h : cursor.Records stream file) (hview : cursor.view = []) :
    emissions cursor.log.toList = emissions stream.events := by
  have hend : cursor.current.isEnd = true := by
    by_contra hnot
    rw [Cursor.view, if_neg hnot] at hview
    cases hview
  obtain ⟨read, hread, hsplits⟩ := h.follows.exists_splits
  rw [h.log read hsplits]
  exact hsplits.emissions_end hquiet hread (h.follows.sound.ended hend).1

theorem emissions_of_ofText_error {fault : Fault} {log : Array Event}
    (hlog : emissions log.toList = [])
    (h : (Cursor.ofText source name log).result = .error fault) :
    emissions (Cursor.ofText source name log).events = emissions (tokenize source name).events := by
  have hstart : (Token.Stream.ofText source name).Splits [] (Token.Stream.ofText source name) := rfl
  have htold := hstart.emissions_fault (List.forall_mem_nil _) (Cursor.next_of_ofText h)
  show emissions (log ++ (Token.Stream.ofText source name).next.1.events).toList = _
  rw [Array.toList_appendList, Event.emissions_append, hlog]
  exact htold

/-- A text with a tree was read to its end. -/
theorem emissions_of_parse {block : Block Expr} (h : (parse source name).result = .ok block) :
    emissions (parse source name).events = emissions (tokenize source name).events := by
  obtain ⟨cursor, after, hstart, hrun, hevents⟩ := exists_run_of_parse h
  have hquiet := Token.Stream.emissions_last_ofText source name
  obtain ⟨hrecords, -⟩ := (Cursor.records_ofText rfl hstart).program hquiet
  obtain ⟨hsound, -⟩ := Cursor.sound_ofText hstart
  obtain ⟨-, hprogram, -⟩ := (Grammar.parses_program (n := 0)).sound hsound hrun
  obtain ⟨_, -, hview⟩ := hprogram.exists_stop
  rw [hevents]
  exact (hrecords block after hrun).emissions_end hquiet hview

/-- A fault ends the tokens that a parse tells of. -/
theorem emissions_prefix_of_parse (source : String) (name : Option String) :
    emissions (parse source name).events <+: emissions (tokenize source name).events := by
  cases hstart : (Cursor.ofText source name #[.fileOpened (name.getD Scanner.unknownFile)]).result with
  | error fault =>
    have htold := emissions_of_ofText_error rfl hstart
    have hevents : (parse source name).events =
        (Cursor.ofText source name #[.fileOpened (name.getD Scanner.unknownFile)]).events := by
      simp only [parse, Grammar.parse, hstart]
    rw [hevents]
    exact htold ▸ List.prefix_refl _
  | ok cursor =>
    have hquiet := Token.Stream.emissions_last_ofText source name
    obtain ⟨-, hstops⟩ := (Cursor.records_ofText rfl hstart).program hquiet
    have hparse := parse_of_ofText hstart
    cases hrun : Grammar.standard.program cursor with
    | ok block after =>
      rw [hrun] at hparse
      have hok : (parse source name).result = .ok block := by rw [hparse]
      exact emissions_of_parse hok ▸ List.prefix_refl _
    | error stop after =>
      rw [hrun] at hparse
      rw [hparse]
      exact hstops stop after hrun

theorem extensions_of_parse {block : Block Expr} (h : (parse source name).result = .ok block) :
    (parse source name).events.countP Event.isExtension =
      (Expr.block block).count (·.kind.isOperation) := by
  obtain ⟨cursor, after, hstart, hrun, hevents⟩ := exists_run_of_parse h
  have htallies : ParseM.Tallies .extensions 0 Grammar.standard.program _ := Grammar.tallies_program
  obtain ⟨-, hcount⟩ := htallies cursor block after (Cursor.plain_ofText rfl hstart) hrun
  rw [hevents, Expr.counts_isOperation.count_block]
  exact hcount.trans (Nat.zero_add _)

/-- The tokens that are told of are those delivered before the end token or the first fault. A parse
tells of them in order, each of them once, up to where it stops. Where it has a tree it tells of all of
them, and of one extension for each operation of the tree. -/
theorem trace_of_parse (source : String) (file : Option String) :
    emissions (tokenize source file).events =
      (Delivery.tokens (Token.Stream.ofText source file).ahead).map .tokenEmitted ∧
    (∀ tokens last, (tokenize source file).result = .ok (tokens ++ [last]) →
      emissions (tokenize source file).events = tokens.map .tokenEmitted) ∧
    emissions (parse source file).events <+: emissions (tokenize source file).events ∧
    ∀ block, (parse source file).result = .ok block →
      emissions (parse source file).events = emissions (tokenize source file).events ∧
      (parse source file).events.countP Event.isExtension =
        ((Expr.block block).nodes fun _ => false).countP (·.kind.isOperation) := by
  refine ⟨emissions_tokenize source file, fun tokens last htokens => ?_,
    emissions_prefix_of_parse source file,
    fun _ hblock => ⟨emissions_of_parse hblock, extensions_of_parse hblock⟩⟩
  rw [emissions_tokenize, tokens_of_tokenize htokens]

/-- A call inside a function, and an assignment of a sum. -/
theorem trace_of_parse_operations :
    let source := "fn f\n  (a, b) -> c\nx = y + 1"
    ∃ block, (parse source none).result = .ok block ∧
      emissions (parse source none).events = emissions (tokenize source none).events ∧
      ((Expr.block block).nodes fun _ => false).countP (·.kind.isOperation) = 3 := by
  intro source
  obtain ⟨block, hblock⟩ := exists_of_isOk
    (by decide +kernel : (parse source none).result.isOk = true)
  obtain ⟨-, -, -, htree⟩ := trace_of_parse source none
  obtain ⟨htokens, hcount⟩ := htree block hblock
  have hthree : (parse source none).events.countP Event.isExtension = 3 := by decide +kernel
  exact ⟨block, hblock, htokens, hcount.symm.trans hthree⟩

end Offside
