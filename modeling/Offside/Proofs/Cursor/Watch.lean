import Offside.Proofs.Cursor.Loops

/-!
# Runs that are watched

A `Watch` says which events a run over some tokens may note, and in which stops it may end whatever
it has noted. `ParseM.Keeps` says of a parser that it notes nothing else, on the tokens of a text
without faults. There is a rule for each way to build a parser; whoever watches has only to look at
the places where a rule of the grammar is noted.
-/

namespace Offside

/-- The event says that a rule of the grammar applies. -/
def Event.IsRule : Event → Prop
  | ruleStarted .. | ruleExtended .. => True
  | _ => False

/-- What a run over the tokens may note, and the stops after which that does not matter. -/
structure Watch where
  file : String
  last : Token
  tokens : List Token
  notes : Event → Prop
  stops : Stop → Prop

/-- The run has come to the cursor, and no fault is ahead of it. -/
structure Watch.Holds (w : Watch) (cursor : Cursor) : Prop where
  sound : cursor.Sound w.file w.last
  clean : cursor.Clean
  suffix : cursor.view <:+ w.tokens
  log : ∀ event ∈ cursor.log, w.notes event
  stream : ∀ delivery ∈ cursor.stream.last :: cursor.stream.ahead,
    ∀ event ∈ delivery.events, w.notes event

/-- What becomes of a run from a cursor. -/
def Watch.Ends {α : Type} (w : Watch) (cursor : Cursor) : EStateM.Result Stop Cursor α → Prop
  | .ok _ after => w.Holds after ∧ after.view <:+ cursor.view
  | .error stop after => w.stops stop ∨ ∀ event ∈ after.log, w.notes event

/-- What a stream delivers next, and what it delivers after that. -/
theorem Token.Stream.mem_next (stream : Token.Stream) :
    stream.next.1 ∈ stream.last :: stream.ahead ∧
      ∀ delivery ∈ stream.next.2.last :: stream.next.2.ahead,
        delivery ∈ stream.last :: stream.ahead := by
  unfold next
  cases hahead : stream.ahead <;> simp +contextual [hahead]

theorem Watch.Holds.note {w : Watch} {cursor : Cursor} {event : Event} (h : w.Holds cursor)
    (hevent : w.notes event) : w.Holds { cursor with log := cursor.log.push event } where
  sound := h.sound.log _
  clean := h.clean
  suffix := h.suffix
  log other hother := (Array.mem_push.1 hother).elim (h.log other) fun heq => heq ▸ hevent
  stream := h.stream

theorem Watch.Holds.advance {w : Watch} {cursor after : Cursor} (h : w.Holds cursor)
    (hrun : ParseM.advance cursor = .ok () after) : w.Holds after := by
  obtain ⟨hleads, -⟩ := ParseM.leads_of_advance h.sound hrun
  obtain ⟨hfirst, hrest⟩ := cursor.stream.mem_next
  obtain ⟨hstream, hlog⟩ : after.stream = cursor.stream.next.2 ∧
      after.log = cursor.log ++ cursor.stream.next.1.events := by
    rw [ParseM.advance_eq] at hrun
    split at hrun
    · cases hrun
      exact ⟨rfl, rfl⟩
    · cases hrun
  refine ⟨hleads.sound, hleads.clean_iff.2 h.clean, hleads.suffix.trans h.suffix,
    fun event hevent => ?_, fun delivery hdelivery => ?_⟩
  · rw [hlog, ← Array.mem_toList_iff, Array.toList_appendList, List.mem_append,
      Array.mem_toList_iff] at hevent
    exact hevent.elim (h.log event) (h.stream _ hfirst event)
  · rw [hstream] at hdelivery
    exact h.stream delivery (hrest delivery hdelivery)

namespace ParseM

/-- On fewer than `n` tokens for which `P` holds, the parser notes only what it may. -/
def Keeps {α : Type} (w : Watch) (n : Nat) (P : List Token → Prop) (m : ParseM α) : Prop :=
  ∀ cursor, w.Holds cursor → cursor.view.length < n → P cursor.view → w.Ends cursor (m cursor)

/-- Any tokens at all. -/
def anyTokens : List Token → Prop :=
  fun _ => True

variable {α β σ : Type} {w : Watch} {n k : Nat} {P : List Token → Prop} {m : ParseM α}

namespace Keeps

theorem weaken {P' : List Token → Prop} (h : Keeps w n P m) (hP : ∀ tokens, P' tokens → P tokens) :
    Keeps w n P' m :=
  fun cursor hcursor hlen hP' => h cursor hcursor hlen (hP _ hP')

theorem any (h : Keeps w n anyTokens m) : Keeps w n P m :=
  h.weaken fun _ _ => trivial

theorem mono (h : Keeps w n P m) (hk : k ≤ n) : Keeps w k P m :=
  fun cursor hcursor hlen => h cursor hcursor (Nat.lt_of_lt_of_le hlen hk)

/-! ## Sequences -/

theorem pure (a : α) : Keeps w n P (Pure.pure a) :=
  fun _ hcursor _ _ => ⟨hcursor, List.suffix_rfl⟩

theorem throw (stop : Stop) : Keeps w n P (throw stop : ParseM α) :=
  fun _ hcursor _ _ => .inr hcursor.log

/-- The second parser may rely on what the first one has left. -/
theorem bindThen {f : α → ParseM β} {Q : α → List Token → Prop} (hm : Keeps w n P m)
    (hf : ∀ a, Keeps w k (Q a) (f a))
    (hstep : ∀ cursor a after, w.Holds cursor → cursor.view.length < n → P cursor.view →
      m cursor = .ok a after → after.view.length < k ∧ Q a after.view) :
    Keeps w n P (m >>= f) := by
  intro cursor hcursor hlen hP
  have hfirst := hm cursor hcursor hlen hP
  show w.Ends cursor (EStateM.bind m f cursor)
  unfold EStateM.bind
  cases hrun : m cursor with
  | ok a after =>
    rw [hrun] at hfirst
    obtain ⟨hafter, hsuffix⟩ := hfirst
    obtain ⟨hless, hQ⟩ := hstep cursor a after hcursor hlen hP hrun
    have hsecond := hf a after hafter hless hQ
    dsimp only
    cases hrest : f a after with
    | ok b final =>
      rw [hrest] at hsecond
      exact ⟨hsecond.1, hsecond.2.trans hsuffix⟩
    | error stop final =>
      rw [hrest] at hsecond
      exact hsecond
  | error stop after =>
    rw [hrun] at hfirst
    exact hfirst

theorem bind {f : α → ParseM β} (hm : Keeps w n P m) (hf : ∀ a, Keeps w n anyTokens (f a)) :
    Keeps w n P (m >>= f) := by
  refine bindThen hm hf fun cursor a after hcursor hlen hP hrun => ?_
  have hfirst := hm cursor hcursor hlen hP
  rw [hrun] at hfirst
  exact ⟨Nat.lt_of_le_of_lt hfirst.2.length_le hlen, trivial⟩

theorem map (f : α → β) (hm : Keeps w n P m) : Keeps w n P (f <$> m) := by
  rw [← bind_pure_comp]
  exact bind hm fun a => pure (f a)

/-! ## Looking and moving -/

theorem peek : Keeps w n P ParseM.peek :=
  fun _ hcursor _ _ => ⟨hcursor, List.suffix_rfl⟩

/-- What a parser makes of the token ahead, or of the end. -/
theorem look {f : Token → ParseM α}
    (hend : w.last.IsLast → P [] → Keeps w n (· = []) (f w.last))
    (htoken : ∀ token rest, token :: rest <:+ w.tokens → P (token :: rest) →
      Keeps w n (· = token :: rest) (f token)) : Keeps w n P (do f (← ParseM.peek)) := by
  intro cursor hcursor hlen hP
  have hcurrent := hcursor.sound.current_eq
  have hsuffix := hcursor.suffix
  show w.Ends cursor (f cursor.current cursor)
  cases hview : cursor.view with
  | nil =>
    rw [hview] at hcurrent hP
    rw [hcurrent]
    exact hend hcursor.sound.isLast hP cursor hcursor hlen hview
  | cons token rest =>
    rw [hview] at hcurrent hP hsuffix
    rw [hcurrent]
    exact htoken token rest hsuffix hP cursor hcursor hlen hview

theorem note {event : Event} (h : w.notes event) : Keeps w n P (ParseM.note event) :=
  fun _ hcursor _ _ => ⟨hcursor.note h, List.suffix_rfl⟩

/-- A parser that notes an event first. -/
theorem noteThen {event : Event} (h : w.notes event) (hm : Keeps w n P m) :
    Keeps w n P (do ParseM.note event; m) := by
  refine bindThen (Q := fun _ => P) (note h) (fun _ => hm) fun cursor _ after _ hlen hP hrun => ?_
  cases hrun
  exact ⟨hlen, hP⟩

theorem advance : Keeps w n P ParseM.advance := by
  intro cursor hcursor _ _
  obtain ⟨after, hrun⟩ := exists_advance hcursor.clean
  rw [hrun]
  exact ⟨hcursor.advance hrun, (leads_of_advance hcursor.sound hrun).1.suffix⟩

/-- A step over a token leaves fewer. -/
theorem next (hm : Keeps w n anyTokens m) : Keeps w (n + 1) (· ≠ []) (do ParseM.advance; m) := by
  refine bindThen (Q := fun _ => anyTokens) advance (fun _ => hm)
    fun cursor _ after hcursor hlen hne hrun => ⟨?_, trivial⟩
  obtain ⟨-, hview⟩ := leads_of_advance hcursor.sound hrun
  have hpos := List.length_pos_iff.2 hne
  rw [hview, List.length_tail]
  omega

theorem consume : Keeps w n P ParseM.consume :=
  bind peek fun token => bind advance fun _ => pure token

theorem consumeThen {f : Token → ParseM α} (hf : ∀ token, Keeps w n anyTokens (f token)) :
    Keeps w (n + 1) (· ≠ []) (do f (← ParseM.consume)) := by
  have hrun : (do f (← ParseM.consume)) =
      (do let token ← ParseM.peek; ParseM.advance; f token : ParseM α) := by
    simp [ParseM.consume]
  rw [hrun]
  refine look (fun _ hne => absurd rfl hne) fun token rest _ _ => ?_
  exact (next (hf token)).weaken fun tokens htokens => htokens ▸ List.cons_ne_nil _ _

/-! ## Faults and demands -/

theorem failAt (token : Token) (cause : Fault.Cause) :
    Keeps w n P (ParseM.failAt token cause : ParseM α) :=
  fun _ hcursor _ _ => .inr hcursor.log

theorem fail (cause : Fault.Cause) : Keeps w n P (ParseM.fail cause : ParseM α) :=
  fun _ hcursor _ _ => .inr hcursor.log

theorem expect (expected : Expected) : Keeps w n P (ParseM.expect expected) := by
  refine bind peek fun token => ?_
  split
  · exact pure token
  · exact fail _

theorem take (expected : Expected) : Keeps w n P (ParseM.take expected) :=
  bind (expect expected) fun token => bind advance fun _ => pure token

theorem takeNext (expected : Expected) : Keeps w n P (ParseM.takeNext expected) :=
  bind advance fun _ => take expected

theorem takeNextThen {f : Token → ParseM α} (expected : Expected)
    (hf : ∀ token, Keeps w n anyTokens (f token)) :
    Keeps w (n + 1) (· ≠ []) (do f (← ParseM.takeNext expected)) := by
  have hrun : (do f (← ParseM.takeNext expected)) =
      (do ParseM.advance; let token ← ParseM.take expected; f token : ParseM α) := by
    simp [ParseM.takeNext]
  rw [hrun]
  exact next (bind (take expected) hf)

theorem expectDelimiter (delimiters : List String) (message : String) :
    Keeps w n P (ParseM.expectDelimiter delimiters message) := by
  refine bind peek fun token => ?_
  split
  · exact pure _
  · exact fail _

/-! ## Loops -/

theorem loopWithin {round : σ → ParseM (Round σ β)} {I : σ → List Token → Prop}
    (hround : ∀ state, Keeps w n (I state) (round state))
    (hnext : ∀ cursor state next after, w.Holds cursor → cursor.view.length < n →
      I state cursor.view → round state cursor = .ok (.again next) after → I next after.view)
    (bound : Nat) (state : σ) : Keeps w n (I state) (ParseM.loopWithin round bound state) := by
  induction bound generalizing state with
  | zero => exact throw _
  | succ bound ih =>
    -- The invariant holds again where another round follows.
    let Q : Round σ β → List Token → Prop :=
      fun result tokens => ∀ next, result = .again next → I next tokens
    refine bindThen (k := n) (Q := Q) (hround state) (fun result => ?_)
      fun cursor result after hcursor hlen hI hrun => ⟨?_, ?_⟩
    · cases result with
      | again next => exact (ih next).weaken fun tokens hQ => hQ next rfl
      | done b => exact pure b
    · have hends := hround state cursor hcursor hlen hI
      rw [hrun] at hends
      exact Nat.lt_of_le_of_lt hends.2.length_le hlen
    · rintro next rfl
      exact hnext cursor state next after hcursor hlen hI hrun

/-- A loop with an invariant of its state and the tokens ahead. -/
theorem loopFrom {round : σ → ParseM (Round σ β)} {I : σ → List Token → Prop}
    (hround : ∀ state, Keeps w n (I state) (round state))
    (hnext : ∀ cursor state next after, w.Holds cursor → cursor.view.length < n →
      I state cursor.view → round state cursor = .ok (.again next) after → I next after.view)
    (state : σ) : Keeps w n (I state) (ParseM.loop round state) :=
  fun cursor => loopWithin hround hnext cursor.budget state cursor

theorem loop {round : σ → ParseM (Round σ β)} (hround : ∀ state, Keeps w n anyTokens (round state))
    (state : σ) : Keeps w n P (ParseM.loop round state) := by
  have hloop : Keeps w n anyTokens (ParseM.loop round state) :=
    loopFrom (I := fun _ => anyTokens) hround (fun _ _ _ _ _ _ _ _ => trivial) state
  exact hloop.any

theorem skipNewlines : Keeps w n P ParseM.skipNewlines := by
  rw [skipNewlines_eq]
  refine loop (fun state => bind peek fun token => ?_) ()
  split
  · exact bind advance fun _ => pure _
  · exact pure _

theorem items {closes : Token → Bool} {closing message : String} {item : ParseM α}
    (hitem : Keeps w n anyTokens item) :
    Keeps w n P (ParseM.items closes closing message item) := by
  rw [items_eq]
  refine bind (loop (fun found => bind peek fun token => ?_) #[]) fun found =>
    bind advance fun _ => pure _
  split
  · exact pure _
  · refine bind hitem fun a => bind (expectDelimiter _ message) fun _ => bind peek fun token => ?_
    split
    · exact bind advance fun _ => pure _
    · exact pure _

/-- A budget is more than there are tokens. -/
theorem getBudget {f : Nat → ParseM α} (h : ∀ bound, Keeps w bound P (f bound)) :
    Keeps w n P (do f (← get).budget) :=
  fun cursor hcursor _ hP => h cursor.budget cursor hcursor cursor.length_view_lt_budget hP

end Keeps

end ParseM

end Offside
