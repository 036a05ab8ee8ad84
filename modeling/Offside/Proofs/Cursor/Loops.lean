import Offside.Proofs.Cursor.Parses

/-!
# What loops parse

A loop parses what its rounds parse, one after another (`ParseM.Loops`), as long as each round but
the last takes a token: then the loop does not run out of its budget (`Parses.loop`). A loop that
collects values parses `Phrase.Many` (`Parses.collect`), and `ParseM.items` parses `Phrase.Items`
(`Parses.items`).
-/

namespace Offside

namespace ParseM

variable {α β σ : Type} {file : String} {last : Token} {n : Nat}

/-- The phrase of a loop whose rounds parse `round`. -/
inductive Loops (round : σ → Phrase (Round σ β)) : σ → Phrase β
  | done {state : σ} {tokens rest : List Token} {b : β} (h : round state tokens (.done b) rest) :
    Loops round state tokens b rest
  | again {state next : σ} {tokens middle rest : List Token} {b : β}
    (h : round state tokens (.again next) middle) (hrest : Loops round next middle b rest) :
    Loops round state tokens b rest

theorem Parses.loopWithin {m : σ → ParseM (Round σ β)} {round : σ → Phrase (Round σ β)}
    (h : ∀ state, Parses file last n (m state) (round state))
    (hlt : ∀ state tokens next rest, round state tokens (.again next) rest →
      rest.length < tokens.length) (bound : Nat) :
    ∀ state, Parses file last (min bound n) (ParseM.loopWithin m bound state)
      (Loops round state) := by
  intro state
  constructor
  · -- A run is a phrase, by induction on the rounds that the loop may still make.
    intro cursor after b hcursor hrun
    induction bound generalizing cursor state with
    | zero => cases hrun
    | succ bound ih =>
      obtain ⟨result, middle, hround, hrun⟩ := bind_eq_ok.1 hrun
      obtain ⟨hleads, hp⟩ := (h state).sound hcursor hround
      cases result with
      | again next =>
        obtain ⟨hleads', hq⟩ := ih next hleads.sound hrun
        exact ⟨hleads.trans hleads', .again hp hq⟩
      | done result =>
        cases hrun
        exact ⟨hleads, .done hp⟩
  · -- A phrase is a run, by induction on its rounds: each takes a token, and so they are enough.
    intro cursor b rest hcursor hclean hlen hphrase
    generalize htokens : cursor.view = tokens at hphrase
    induction hphrase generalizing bound cursor with
    | done hdone =>
      cases bound with
      | zero => simp at hlen
      | succ bound =>
        obtain ⟨after, hround, hview⟩ := (h _).complete hcursor hclean (by omega) (htokens ▸ hdone)
        exact ⟨after, bind_eq_ok.2 ⟨_, _, hround, rfl⟩, hview⟩
    | again hagain _ ih =>
      cases bound with
      | zero => simp at hlen
      | succ bound =>
        obtain ⟨middle, hround, hview⟩ :=
          (h _).complete hcursor hclean (by omega) (htokens ▸ hagain)
        obtain ⟨hleads, -⟩ := (h _).sound hcursor hround
        have := hlt _ _ _ _ hagain
        obtain ⟨after, hrun, hrest⟩ := ih bound hleads.sound (hleads.clean_iff.2 hclean)
          (by rw [hview]; rw [htokens] at hlen; omega) hview
        exact ⟨after, bind_eq_ok.2 ⟨_, _, hround, hrun⟩, hrest⟩

/-- A loop each of whose rounds but the last takes a token. -/
theorem Parses.loop {m : σ → ParseM (Round σ β)} {round : σ → Phrase (Round σ β)}
    (h : ∀ state, Parses file last n (m state) (round state))
    (hlt : ∀ state tokens next rest, round state tokens (.again next) rest →
      rest.length < tokens.length) (state : σ) :
    Parses file last n (ParseM.loop m state) (Loops round state) where
  sound {cursor} _ _ hcursor hrun :=
    (loopWithin h hlt cursor.budget state).sound hcursor hrun
  complete {cursor} _ _ hcursor hclean hlen hp :=
    (loopWithin h hlt cursor.budget state).complete hcursor hclean
      (Nat.lt_min.2 ⟨cursor.length_view_lt_budget, hlen⟩) hp

/-- Past one newline token. -/
def newlineRound (_ : Unit) : ParseM (Round Unit Unit) := do
  if (← peek).isNewline then
    advance
    return .again ()
  else return .done ()

theorem skipNewlines_eq : skipNewlines = loop newlineRound () :=
  rfl

/-- One newline token, or none ahead. -/
def NewlineRound : Phrase (Round Unit Unit)
  | tokens, .again _, rest => Phrase.Starts (·.isNewline = true) tokens ∧ rest = tokens.tail
  | tokens, .done _, rest => Phrase.Ahead (¬ ·.isNewline = true) tokens ∧ rest = tokens

theorem Parses.newlineRound (state : Unit) :
    Parses file last n (ParseM.newlineRound state) NewlineRound := by
  refine (ite (fun _ => Iff.rfl) ?_ (bind advance fun _ => pure (Round.again ()))
    (pure (Round.done ()))).congr fun _ tokens _ round rest => ?_
  · intro hlast
    simp [Token.isNewline, hlast.kind_eq]
  · cases round <;> simp [NewlineRound]

theorem NewlineRound.length_lt {tokens rest : List Token} {next : Unit}
    (h : NewlineRound tokens (.again next) rest) : rest.length < tokens.length := by
  obtain ⟨⟨token, others, rfl, -⟩, rfl⟩ := h
  exact Nat.lt_succ_self _

theorem Parses.skipNewlines :
    Parses file last n ParseM.skipNewlines fun tokens _ rest =>
      rest = tokens.dropWhile Token.isNewline := by
  rw [skipNewlines_eq]
  refine (loop newlineRound (fun _ _ _ _ => NewlineRound.length_lt) ()).congr
    fun _ tokens hview _ rest => ⟨fun h => ?_, ?_⟩
  · generalize () = state at h
    clear hview
    induction h with
    | done h => exact h.2.trans (Phrase.dropWhile_eq_self h.1).symm
    | again h _ ih =>
      obtain ⟨⟨token, others, rfl, htoken⟩, rfl⟩ := h
      rw [List.dropWhile_cons_of_pos htoken]
      exact ih
  · rintro rfl
    clear hview
    induction tokens with
    | nil => exact .done ⟨Phrase.ahead_nil, rfl⟩
    | cons token tokens ih =>
      by_cases hnewline : token.isNewline = true
      · rw [List.dropWhile_cons_of_pos hnewline]
        have hround : NewlineRound (token :: tokens) (.again ()) tokens :=
          ⟨Phrase.starts_cons.2 hnewline, rfl⟩
        exact .again hround ih
      · rw [List.dropWhile_cons_of_neg hnewline]
        exact .done ⟨Phrase.ahead_cons.2 hnewline, rfl⟩

end ParseM

/-! ## Repetition -/

namespace Phrase

/-- Any number of phrases `more`, and after them an end that `stop` accepts. -/
inductive Many {α : Type} (more : Phrase α) (stop : List Token → List Token → Prop) :
    Phrase (List α)
  | stop {tokens rest : List Token} (h : stop tokens rest) : Many more stop tokens [] rest
  | more {tokens middle rest : List Token} {a : α} {others : List α} (h : more tokens a middle)
    (hrest : Many more stop middle others rest) : Many more stop tokens (a :: others) rest

theorem Many.exists_stop {α : Type} {more : Phrase α} {stop : List Token → List Token → Prop}
    {tokens rest : List Token} {found : List α} (h : Many more stop tokens found rest) :
    ∃ tokens, stop tokens rest := by
  induction h with
  | stop h => exact ⟨_, h⟩
  | more _ _ ih => exact ih

/-- Items with commas between them, the token `closing`, and perhaps a comma before it. -/
inductive Items {α : Type} (closing : String) (item : Phrase α) : Phrase (List α)
  | nil {token : Token} {rest : List Token} (hclose : token.value = closing) :
    Items closing item (token :: rest) [] rest
  | last {tokens rest : List Token} {a : α} {token : Token}
    (hopen : Ahead (·.value ≠ closing) tokens) (hitem : item tokens a (token :: rest))
    (hclose : token.value = closing) : Items closing item tokens [a] rest
  | more {tokens middle rest : List Token} {a : α} {others : List α} {token : Token}
    (hopen : Ahead (·.value ≠ closing) tokens) (hitem : item tokens a (token :: middle))
    (hcomma : token.value = ",") (hrest : Items closing item middle others rest) :
    Items closing item tokens (a :: others) rest

end Phrase

namespace ParseM

/-- What a round does that collects one more value or ends. -/
def Collects (more : Phrase α) (stop : List Token → List Token → Prop) (found : Array α) :
    Phrase (Round (Array α) (Array α))
  | tokens, .again next, rest => ∃ a, more tokens a rest ∧ next = found.push a
  | tokens, .done out, rest => stop tokens rest ∧ out = found

theorem loops_collects_iff {more : Phrase α} {stop : List Token → List Token → Prop}
    {found out : Array α} {tokens rest : List Token} :
    Loops (Collects more stop) found tokens out rest ↔
      ∃ others, Phrase.Many more stop tokens others rest ∧ out = found ++ others.toArray := by
  constructor
  · intro h
    induction h with
    | done h => exact ⟨[], .stop h.1, by simp [h.2]⟩
    | again h _ ih =>
      obtain ⟨a, hmore, rfl⟩ := h
      obtain ⟨others, hothers, rfl⟩ := ih
      exact ⟨a :: others, .more hmore hothers, by simp⟩
  · rintro ⟨others, h, rfl⟩
    induction h generalizing found with
    | stop h => exact .done ⟨h, by simp⟩
    | @more _ _ _ a others h _ ih => 
      have hagain : Collects more stop found _ (.again (found.push a)) _ := ⟨a, h, rfl⟩
      exact .again hagain (by simpa using @ih (found.push a))

/-- A loop that collects values. -/
theorem Parses.collect {m : Array α → ParseM (Round (Array α) (Array α))} {more : Phrase α}
    {stop : List Token → List Token → Prop}
    (h : ∀ found, Parses file last n (m found) (Collects more stop found))
    (hlt : ∀ tokens a rest, more tokens a rest → rest.length < tokens.length) (found : Array α) :
    Parses file last n (ParseM.loop m found) fun tokens out rest =>
      ∃ others, Phrase.Many more stop tokens others rest ∧ out = found ++ others.toArray :=
  (loop h (fun _ _ _ _ ⟨a, hmore, _⟩ => hlt _ a _ hmore) found).congr
    fun _ _ _ _ _ => loops_collects_iff

/-- One round of `ParseM.items`: an item, and the comma after it or the closing token ahead. -/
def NextItem (closing : String) (item : Phrase α) : Phrase α := fun tokens a rest =>
  Phrase.Ahead (·.value ≠ closing) tokens ∧ ∃ token middle, item tokens a (token :: middle) ∧
    (token.value = "," ∧ rest = middle ∨ token.value = closing ∧ rest = token :: middle)

theorem many_nextItem_iff {closing : String} {item : Phrase α} {tokens rest : List Token}
    {others : List α} :
    (∃ token, token.value = closing ∧ Phrase.Many (NextItem closing item)
      (fun tokens rest => Phrase.Starts (·.value = closing) tokens ∧ rest = tokens) tokens others
      (token :: rest)) ↔ Phrase.Items closing item tokens others rest := by
  constructor
  · rintro ⟨token, hvalue, h⟩
    generalize hlist : token :: rest = list at h
    induction h with
    | stop h =>
      obtain ⟨-, rfl⟩ := h
      subst hlist
      exact .nil hvalue
    | more h hrest ih =>
      obtain ⟨hopen, next, middle, hitem, ⟨hcomma, rfl⟩ | ⟨hclose, rfl⟩⟩ := h
      · exact .more hopen hitem hcomma (ih hlist)
      · cases hrest with
        | stop h =>
          obtain ⟨-, heq⟩ := h
          cases hlist.trans heq
          exact .last hopen hitem hclose
        | more h => exact absurd hclose (Phrase.ahead_cons.1 h.1)
  · intro h
    induction h with
    | @nil token rest hclose => exact ⟨token, hclose, .stop ⟨Phrase.starts_cons.2 hclose, rfl⟩⟩
    | @last tokens rest a token hopen hitem hclose =>
      refine ⟨token, hclose, .more ⟨hopen, token, rest, hitem, .inr ⟨hclose, rfl⟩⟩ ?_⟩
      exact .stop ⟨Phrase.starts_cons.2 hclose, rfl⟩
    | @more tokens middle rest a others token hopen hitem hcomma _ ih =>
      obtain ⟨closer, hvalue, h⟩ := ih
      exact ⟨closer, hvalue, .more ⟨hopen, token, middle, hitem, .inl ⟨hcomma, rfl⟩⟩ h⟩

/-- A comma, which is passed, or the closing token, which is not. -/
theorem Parses.separator {closing : String} (message : String) {m : ParseM β} {p : Phrase β}
    (hclosing : closing ≠ "," ∧ closing ≠ "") (hm : Parses file last n m p) :
    Parses file last n (do
        ParseM.expectDelimiter [",", closing] message
        if (← ParseM.peek).value == "," then
          ParseM.advance
          m
        else m) fun tokens b rest =>
      ∃ token middle, tokens = token :: middle ∧
        (token.value = "," ∧ p middle b rest ∨ token.value = closing ∧ p tokens b rest) := by
  refine (bind (expectDelimiter message ?_) fun _ => ite (fun _ => beq_iff_eq) ?_
    (bind advance fun _ => hm) hm).congr fun _ tokens _ b rest => ?_
  · simpa using hclosing.2.symm
  · intro hlast
    simp [hlast.value_eq]
  · constructor
    · rintro ⟨-, _, ⟨⟨token, others, rfl, hvalue⟩, rfl⟩, ⟨hcomma, -, middle, rfl, h⟩ | ⟨hcomma, h⟩⟩
      · exact ⟨token, middle, rfl, .inl ⟨Phrase.starts_cons.1 hcomma, h⟩⟩
      · have hvalue : token.value = "," ∨ token.value = closing := by simpa using hvalue
        exact ⟨token, others, rfl, .inr ⟨hvalue.resolve_left (Phrase.ahead_cons.1 hcomma), h⟩⟩
    · rintro ⟨token, middle, rfl, ⟨hcomma, h⟩ | ⟨hclose, h⟩⟩
      · exact ⟨(), _, ⟨Phrase.starts_cons.2 (by simp [hcomma]), rfl⟩,
          .inl ⟨Phrase.starts_cons.2 hcomma, (), middle, rfl, h⟩⟩
      · exact ⟨(), _, ⟨Phrase.starts_cons.2 (by simp [hclose]), rfl⟩,
          .inr ⟨Phrase.ahead_cons.2 (hclose ▸ hclosing.1), h⟩⟩

/-- One more item, and the comma after it. -/
def itemRound (closes : Token → Bool) (closing message : String) (item : ParseM α)
    (found : Array α) : ParseM (Round (Array α) (Array α)) := do
  if closes (← peek) then return .done found
  let next ← item
  expectDelimiter [",", closing] message
  if (← peek).value == "," then advance
  return .again (found.push next)

theorem items_eq (closes : Token → Bool) (closing message : String) (item : ParseM α) :
    items closes closing message item = (do
      let found ← loop (itemRound closes closing message item) #[]
      advance
      return found.toList) :=
  rfl

/-- On the tokens of a text the test finds those with the text `closing`, which is no comma. -/
structure Closes (closes : Token → Bool) (closing : String) : Prop where
  ne : closing ≠ "," ∧ closing ≠ ""
  iff_value {token : Token} (h : token.InView) : closes token = true ↔ token.value = closing
  isLast {last : Token} (h : last.IsLast) : closes last = false

theorem closes_value (text : String) (h : text ≠ "," ∧ text ≠ "" := by decide) :
    Closes (·.value == text) text where
  ne := h
  iff_value _ := beq_iff_eq
  isLast hlast := by simpa [hlast.value_eq] using h.2.symm

/-- A closing parenthesis is found by its class as well as by its text. -/
theorem closes_rightParen : Closes (·.kind == .rightParen) ")" where
  ne := by decide
  iff_value hview := by
    rw [beq_iff_eq]
    exact ⟨hview.value_of_rightParen, hview.proper (")", .rightParen) (by decide)⟩
  isLast hlast := by simp [hlast.kind_eq]

theorem Closes.starts_iff {closes : Token → Bool} {closing : String} (h : Closes closes closing)
    {tokens : List Token} (hview : ∀ token ∈ tokens, token.InView) :
    Phrase.Starts (closes · = true) tokens ↔ Phrase.Starts (·.value = closing) tokens := by
  cases tokens with
  | nil => simp
  | cons token tokens => simp [h.iff_value (hview token List.mem_cons_self)]

theorem Closes.ahead_iff {closes : Token → Bool} {closing : String} (h : Closes closes closing)
    {tokens : List Token} (hview : ∀ token ∈ tokens, token.InView) :
    Phrase.Ahead (¬ closes · = true) tokens ↔ Phrase.Ahead (·.value ≠ closing) tokens := by
  rw [← Phrase.not_starts, h.starts_iff hview, Phrase.not_starts]

theorem Parses.itemRound {closes : Token → Bool} {closing message : String} {m : ParseM α}
    {item : Phrase α} (hcloses : Closes closes closing) (hm : Parses file last n m item)
    (found : Array α) :
    Parses file last n (ParseM.itemRound closes closing message m found)
      (Collects (NextItem closing item)
        (fun tokens rest => Phrase.Starts (·.value = closing) tokens ∧ rest = tokens) found) := by
  refine (ite (p := (closes · = true)) (fun _ => Iff.rfl) (fun hlast => by simp [hcloses.isLast hlast])
    (pure _) (bind hm fun next => separator message hcloses.ne (pure _))).congr
    fun _ tokens hview round rest => ?_
  rw [hcloses.starts_iff hview, hcloses.ahead_iff hview]
  constructor
  · rintro (⟨hclose, rfl, rfl⟩ | ⟨hopen, a, _, hitem, token, middle, rfl, h⟩)
    · exact ⟨⟨hclose, rfl⟩, rfl⟩
    · obtain ⟨hvalue, rfl, rfl⟩ | ⟨hvalue, rfl, rfl⟩ := h
      · exact ⟨a, ⟨hopen, token, _, hitem, .inl ⟨hvalue, rfl⟩⟩, rfl⟩
      · exact ⟨a, ⟨hopen, token, _, hitem, .inr ⟨hvalue, rfl⟩⟩, rfl⟩
  · cases round with
    | again next =>
      rintro ⟨a, ⟨hopen, token, middle, hitem, h⟩, rfl⟩
      refine .inr ⟨hopen, a, _, hitem, token, middle, rfl, ?_⟩
      exact h.imp (fun h => ⟨h.1, rfl, h.2⟩) fun h => ⟨h.1, rfl, h.2⟩
    | done out =>
      rintro ⟨⟨hclose, rfl⟩, rfl⟩
      exact .inl ⟨hclose, rfl, rfl⟩

theorem NextItem.length_lt {closing : String} {item : Phrase α} {tokens rest : List Token} {a : α}
    (hlt : ∀ tokens a rest, item tokens a rest → rest.length < tokens.length)
    (h : NextItem closing item tokens a rest) : rest.length < tokens.length := by
  obtain ⟨-, token, middle, hitem, h⟩ := h
  have := hlt _ _ _ hitem
  rw [List.length_cons] at this
  obtain ⟨-, rfl⟩ | ⟨-, rfl⟩ := h
  · omega
  · rwa [List.length_cons]

theorem Parses.items {closes : Token → Bool} {closing message : String} {m : ParseM α}
    {item : Phrase α} (hcloses : Closes closes closing) (hm : Parses file last n m item)
    (hlt : ∀ tokens a rest, item tokens a rest → rest.length < tokens.length) :
    Parses file last n (ParseM.items closes closing message m) (Phrase.Items closing item) := by
  refine (bind (collect (itemRound hcloses hm) (fun _ _ _ => NextItem.length_lt hlt) #[])
    fun found => bind advance fun _ => pure found.toList).congr fun _ tokens _ others rest => ?_
  rw [← many_nextItem_iff]
  constructor
  · rintro ⟨_, middle, ⟨found, hmany, rfl⟩, -, _, rfl, rfl, rfl⟩
    obtain ⟨-, ⟨token, rest, rfl, hvalue⟩, rfl⟩ := hmany.exists_stop
    exact ⟨token, hvalue, by simpa using hmany⟩
  · rintro ⟨token, hvalue, hmany⟩
    exact ⟨_, _, ⟨others, hmany, rfl⟩, (), _, rfl, by simp⟩

end ParseM

end Offside
