import Offside.Proofs.Cursor.View

/-!
# What a parser parses

A phrase (`Phrase`) relates a list of tokens, a value, and an end of the list: the tokens up to that
end spell the value. `ParseM.Parses` says that a parser accepts exactly a phrase: where it succeeds
its view has changed by the phrase, and where no fault is ahead and fewer than `n` tokens are, it
succeeds on every instance of the phrase. The bound is for parsers that allow so much nesting only.

One rule for each way to put parsers together follows; with them the phrase of a parser is read off
its text, and `Parses.congr` replaces it by a better one.
-/

namespace Offside

/-- The tokens that can spell a value, and the tokens after them. -/
abbrev Phrase (α : Type) := List Token → α → List Token → Prop

/-- The token for the end of the text. -/
structure Token.IsLast (token : Token) : Prop where
  kind_eq : token.kind = .endOfText
  value_eq : token.value = ""

/-- The token ahead, if there is one, satisfies `p`. -/
def Phrase.Ahead (p : Token → Prop) (tokens : List Token) : Prop :=
  ∀ token ∈ tokens.head?, p token

@[simp] theorem Phrase.ahead_nil {p : Token → Prop} : Phrase.Ahead p [] := by
  simp [Phrase.Ahead]

@[simp] theorem Phrase.ahead_cons {p : Token → Prop} {token : Token} {rest : List Token} :
    Phrase.Ahead p (token :: rest) ↔ p token := by
  simp [Phrase.Ahead]

/-- There is a token ahead, and it satisfies `p`. -/
def Phrase.Starts (p : Token → Prop) (tokens : List Token) : Prop :=
  ∃ token rest, tokens = token :: rest ∧ p token

@[simp] theorem Phrase.not_starts_nil {p : Token → Prop} : ¬ Phrase.Starts p [] := by
  simp [Phrase.Starts]

@[simp] theorem Phrase.starts_cons {p : Token → Prop} {token : Token} {rest : List Token} :
    Phrase.Starts p (token :: rest) ↔ p token := by
  simp [Phrase.Starts]

theorem Phrase.Starts.ahead_append {p : Token → Prop} {tokens : List Token}
    (h : Phrase.Starts p tokens) (rest : List Token) : Phrase.Ahead p (tokens ++ rest) := by
  obtain ⟨token, others, rfl, htoken⟩ := h
  exact Phrase.ahead_cons.2 htoken

theorem Phrase.not_starts {p : Token → Prop} {tokens : List Token} :
    ¬ Phrase.Starts p tokens ↔ Phrase.Ahead (fun token => ¬ p token) tokens := by
  cases tokens <;> simp

theorem Phrase.dropWhile_eq_self {test : Token → Bool} {tokens : List Token}
    (h : Phrase.Ahead (fun token => ¬ test token = true) tokens) : tokens.dropWhile test = tokens := by
  cases tokens with
  | nil => rfl
  | cons token tokens => exact List.dropWhile_cons_of_neg (Phrase.ahead_cons.1 h)

theorem Phrase.ahead_dropWhile (test : Token → Bool) (tokens : List Token) :
    Phrase.Ahead (fun token => ¬ test token = true) (tokens.dropWhile test) := by
  intro token htoken
  have := List.head?_dropWhile_not test tokens
  rw [Option.mem_def.1 htoken] at this
  simpa using this

theorem Cursor.Sound.isLast {file : String} {last : Token} {cursor : Cursor}
    (h : cursor.Sound file last) : last.IsLast :=
  ⟨by simpa [Token.isEnd] using h.last_isEnd.1, h.last_isEnd.2⟩

namespace ParseM

/-- The parser accepts exactly the phrase, on fewer than `n` tokens. -/
structure Parses {α : Type} (file : String) (last : Token) (n : Nat) (m : ParseM α)
    (phrase : Phrase α) : Prop where
  sound : ∀ {cursor after : Cursor} {a : α}, cursor.Sound file last → m cursor = .ok a after →
    cursor.Leads file last after ∧ phrase cursor.view a after.view
  complete : ∀ {cursor : Cursor} {a : α} {rest : List Token}, cursor.Sound file last →
    cursor.Clean → cursor.view.length < n → phrase cursor.view a rest →
    ∃ after, m cursor = .ok a after ∧ after.view = rest

variable {α β σ : Type} {file : String} {last : Token} {n : Nat}

theorem bind_eq_ok {m : ParseM α} {f : α → ParseM β} {cursor after : Cursor} {b : β} :
    (m >>= f) cursor = .ok b after ↔
      ∃ a middle, m cursor = .ok a middle ∧ f a middle = .ok b after := by
  show EStateM.bind m f cursor = .ok b after ↔ _
  unfold EStateM.bind
  split
  · rename_i a middle hfirst
    refine ⟨fun h => ⟨a, middle, hfirst, h⟩, ?_⟩
    rintro ⟨_, _, heq, h⟩
    cases hfirst.symm.trans heq
    exact h
  · rename_i hfirst
    simp [hfirst]

theorem bind_of_ok {m : ParseM α} {f : α → ParseM β} {cursor middle : Cursor} {a : α}
    (h : m cursor = .ok a middle) : (m >>= f) cursor = f a middle := by
  show EStateM.bind m f cursor = _
  rw [EStateM.bind, h]

theorem bind_of_error {m : ParseM α} {f : α → ParseM β} {cursor after : Cursor} {stop : Stop}
    (h : m cursor = .error stop after) : (m >>= f) cursor = .error stop after := by
  show EStateM.bind m f cursor = _
  rw [EStateM.bind, h]

namespace Parses

theorem congr {m : ParseM α} {p q : Phrase α} (h : Parses file last n m p)
    (hpq : last.IsLast → ∀ tokens, (∀ token ∈ tokens, token.InView) →
      ∀ a rest, p tokens a rest ↔ q tokens a rest) : Parses file last n m q where
  sound hcursor hrun :=
    have ⟨hleads, hp⟩ := h.sound hcursor hrun
    ⟨hleads, (hpq hcursor.isLast _ hcursor.view_inView _ _).1 hp⟩
  complete hcursor hclean hlt hq :=
    h.complete hcursor hclean hlt ((hpq hcursor.isLast _ hcursor.view_inView _ _).2 hq)

theorem mono {m : ParseM α} {p : Phrase α} {k : Nat} (h : Parses file last n m p) (hk : k ≤ n) :
    Parses file last k m p where
  sound := h.sound
  complete hcursor hclean hlt := h.complete hcursor hclean (Nat.lt_of_lt_of_le hlt hk)

/-- A parser answers once, so its phrase has one instance at most on the tokens of a text. -/
theorem unique {m : ParseM α} {p : Phrase α} (hm : Parses file last n m p) {cursor : Cursor}
    {a a' : α} {rest rest' : List Token} (hcursor : cursor.Sound file last) (hclean : cursor.Clean)
    (hlen : cursor.view.length < n) (h : p cursor.view a rest) (h' : p cursor.view a' rest') :
    a' = a ∧ rest' = rest := by
  obtain ⟨after, hrun, rfl⟩ := hm.complete hcursor hclean hlen h
  obtain ⟨after', hrun', rfl⟩ := hm.complete hcursor hclean hlen h'
  cases hrun.symm.trans hrun'
  exact ⟨rfl, rfl⟩

/-! ## Steps -/

theorem pure (a : α) :
    Parses file last n (Pure.pure a) fun tokens b rest => b = a ∧ rest = tokens where
  sound hcursor hrun := by
    cases hrun
    exact ⟨.refl hcursor, rfl, rfl⟩
  complete := by
    rintro cursor _ _ - - - ⟨rfl, rfl⟩
    exact ⟨cursor, rfl, rfl⟩

theorem note (event : Event) :
    Parses file last n (ParseM.note event) fun tokens _ rest => rest = tokens where
  sound hcursor hrun := by
    cases hrun
    exact ⟨.log hcursor _, rfl⟩
  complete := by
    rintro cursor _ _ - - - rfl
    exact ⟨_, rfl, rfl⟩

theorem advance :
    Parses file last n ParseM.advance fun tokens _ rest => rest = tokens.tail where
  sound hcursor hrun := leads_of_advance hcursor hrun
  complete := by
    rintro cursor _ _ hcursor hclean - rfl
    obtain ⟨after, hrun⟩ := exists_advance hclean
    exact ⟨after, hrun, (leads_of_advance hcursor hrun).2⟩

theorem fail (cause : Fault.Cause) :
    Parses file last n (ParseM.fail cause : ParseM α) fun _ _ _ => False where
  sound _ hrun := by cases hrun
  complete _ _ _ h := h.elim

theorem failAt (token : Token) (cause : Fault.Cause) :
    Parses file last n (ParseM.failAt token cause : ParseM α) fun _ _ _ => False where
  sound _ hrun := by cases hrun
  complete _ _ _ h := h.elim

theorem peek :
    Parses file last n ParseM.peek fun tokens token rest =>
      token = tokens.headD last ∧ rest = tokens where
  sound hcursor hrun := by
    cases hrun
    exact ⟨.refl hcursor, hcursor.current_eq, rfl⟩
  complete := by
    rintro cursor _ _ hcursor - - ⟨rfl, rfl⟩
    exact ⟨cursor, by rw [← hcursor.current_eq]; rfl, rfl⟩

/-! ## Sequences -/

/-- A sequence whose second parser copes with fewer than `k` tokens, which has to be enough for what
the first one leaves. -/
theorem bindWithin {m : ParseM α} {f : α → ParseM β} {p : Phrase α} {q : α → Phrase β} {k : Nat}
    (hm : Parses file last n m p) (hf : ∀ a, Parses file last k (f a) (q a))
    (hlt : ∀ tokens a middle, tokens.length < n → middle <:+ tokens → p tokens a middle →
      middle.length < k) :
    Parses file last n (m >>= f) fun tokens b rest =>
      ∃ a middle, p tokens a middle ∧ q a middle b rest where
  sound hcursor hrun := by
    obtain ⟨a, middle, hfirst, hsecond⟩ := bind_eq_ok.1 hrun
    obtain ⟨hleads, hp⟩ := hm.sound hcursor hfirst
    obtain ⟨hleads', hq⟩ := (hf a).sound hleads.sound hsecond
    exact ⟨hleads.trans hleads', a, _, hp, hq⟩
  complete := by
    rintro cursor b rest hcursor hclean hlen ⟨a, tokens, hp, hq⟩
    obtain ⟨middle, hfirst, rfl⟩ := hm.complete hcursor hclean hlen hp
    obtain ⟨hleads, -⟩ := hm.sound hcursor hfirst
    obtain ⟨after, hsecond, hview⟩ := (hf a).complete hleads.sound (hleads.clean_iff.2 hclean)
      (hlt _ _ _ hlen hleads.suffix hp) hq
    exact ⟨after, bind_eq_ok.2 ⟨a, middle, hfirst, hsecond⟩, hview⟩

theorem bind {m : ParseM α} {f : α → ParseM β} {p : Phrase α} {q : α → Phrase β}
    (hm : Parses file last n m p) (hf : ∀ a, Parses file last n (f a) (q a)) :
    Parses file last n (m >>= f) fun tokens b rest =>
      ∃ a middle, p tokens a middle ∧ q a middle b rest :=
  bindWithin hm hf fun _ _ _ hlen hsuffix _ => Nat.lt_of_le_of_lt hsuffix.length_le hlen

/-- After a step there is a token less. -/
theorem next {m : ParseM β} {q : Phrase β} (hm : Parses file last (n + 1) m q) :
    Parses file last (n + 2) (do ParseM.advance; m) fun tokens b rest => q tokens.tail b rest := by
  refine (bindWithin advance (fun _ => hm) ?_).congr fun _ tokens _ b rest => by simp
  rintro tokens _ middle hlen - rfl
  rw [List.length_tail]
  omega

theorem map {m : ParseM α} {p : Phrase α} (f : α → β) (hm : Parses file last n m p) :
    Parses file last n (f <$> m) fun tokens b rest => ∃ a, p tokens a rest ∧ b = f a := by
  rw [← bind_pure_comp]
  refine (bind hm fun a => pure (f a)).congr fun _ tokens _ b rest => ?_
  constructor
  · rintro ⟨a, _, hp, rfl, rfl⟩
    exact ⟨a, hp, rfl⟩
  · rintro ⟨a, hp, rfl⟩
    exact ⟨a, rest, hp, rfl, rfl⟩

/-! ## Tests of the token ahead -/

/-- Decides by the token ahead between two parsers. The end of the text fails the test. -/
theorem ifAhead {test : Token → Bool} {p : Token → Prop} {m₁ m₂ : Token → ParseM α} {q₁ q₂ : Phrase α}
    (htest : ∀ token, test token = true ↔ p token) (hlast : last.IsLast → ¬ p last)
    (h₁ : Parses file last n (do m₁ (← ParseM.peek)) q₁)
    (h₂ : Parses file last n (do m₂ (← ParseM.peek)) q₂) :
    Parses file last n (do let token ← ParseM.peek; if test token then m₁ token else m₂ token)
      fun tokens a rest =>
        Phrase.Starts p tokens ∧ q₁ tokens a rest ∨
          Phrase.Ahead (fun token => ¬ p token) tokens ∧ q₂ tokens a rest := by
  have hrun {cursor : Cursor} (h : cursor.Sound file last) :
      Phrase.Starts p cursor.view ∧
          (do let token ← ParseM.peek; if test token then m₁ token else m₂ token : ParseM α) cursor =
            (do m₁ (← ParseM.peek) : ParseM α) cursor ∨
        Phrase.Ahead (fun token => ¬ p token) cursor.view ∧
          (do let token ← ParseM.peek; if test token then m₁ token else m₂ token : ParseM α) cursor =
            (do m₂ (← ParseM.peek) : ParseM α) cursor := by
    have hahead : p cursor.current ↔ Phrase.Starts p cursor.view := by
      rw [h.current_eq]
      cases cursor.view <;> simp [hlast h.isLast]
    show _ ∧ (if test cursor.current then m₁ cursor.current else m₂ cursor.current) cursor = _ ∨
      _ ∧ (if test cursor.current then m₁ cursor.current else m₂ cursor.current) cursor = _
    by_cases hp : Phrase.Starts p cursor.view
    · exact .inl ⟨hp, by rw [if_pos ((htest _).2 (hahead.2 hp))]; rfl⟩
    · exact .inr ⟨Phrase.not_starts.1 hp,
        by rw [if_neg fun h => hp (hahead.1 ((htest _).1 h))]; rfl⟩
  constructor
  · intro cursor after a hcursor h
    obtain ⟨hp, heq⟩ | ⟨hp, heq⟩ := hrun hcursor
    · exact ⟨(h₁.sound hcursor (heq ▸ h)).1, .inl ⟨hp, (h₁.sound hcursor (heq ▸ h)).2⟩⟩
    · exact ⟨(h₂.sound hcursor (heq ▸ h)).1, .inr ⟨hp, (h₂.sound hcursor (heq ▸ h)).2⟩⟩
  · intro cursor a rest hcursor hclean hlen hphrase
    obtain ⟨hp, heq⟩ | ⟨hp, heq⟩ := hrun hcursor <;> rw [heq] <;>
      obtain ⟨hq, hphrase⟩ | ⟨hq, hphrase⟩ := hphrase
    · exact h₁.complete hcursor hclean hlen hphrase
    · exact absurd hp (Phrase.not_starts.2 hq)
    · exact absurd hq (Phrase.not_starts.2 hp)
    · exact h₂.complete hcursor hclean hlen hphrase

/-- What a parser makes of the token ahead, one token at a time. -/
theorem look {m : Token → ParseM α} {p : Phrase α}
    (h : ∀ token, ∃ q, Parses file last n (m token) q ∧ (last.IsLast → ∀ tokens,
      (∀ token ∈ tokens, token.InView) → ∀ a rest, tokens.headD last = token →
        (q tokens a rest ↔ p tokens a rest))) :
    Parses file last n (do m (← ParseM.peek)) p where
  sound {cursor after a} hcursor hrun := by
    obtain ⟨q, hq, hiff⟩ := h cursor.current
    have ⟨hleads, hphrase⟩ := hq.sound hcursor hrun
    exact ⟨hleads, (hiff hcursor.isLast _ hcursor.view_inView a _ hcursor.current_eq.symm).1 hphrase⟩
  complete {cursor a rest} hcursor hclean hlen hp := by
    obtain ⟨q, hq, hiff⟩ := h cursor.current
    exact hq.complete hcursor hclean hlen
      ((hiff hcursor.isLast _ hcursor.view_inView a rest hcursor.current_eq.symm).2 hp)

/-- A parser that does not depend on the token ahead, after a look at it. -/
theorem unread {m : ParseM α} {p : Phrase α} (h : Parses file last n m p) :
    Parses file last n (do let _ ← ParseM.peek; m) p where
  sound hcursor hrun := h.sound hcursor hrun
  complete hcursor hclean hlen hp := h.complete hcursor hclean hlen hp

/-- Decides by the token ahead between two parsers that do not depend on it. -/
theorem ite {test : Token → Bool} {p : Token → Prop} {m₁ m₂ : ParseM α} {q₁ q₂ : Phrase α}
    (htest : ∀ token, test token = true ↔ p token) (hlast : last.IsLast → ¬ p last)
    (h₁ : Parses file last n m₁ q₁) (h₂ : Parses file last n m₂ q₂) :
    Parses file last n (do if test (← ParseM.peek) then m₁ else m₂) fun tokens a rest =>
      Phrase.Starts p tokens ∧ q₁ tokens a rest ∨
        Phrase.Ahead (fun token => ¬ p token) tokens ∧ q₂ tokens a rest :=
  ifAhead htest hlast (unread h₁) (unread h₂)

/-- Decides by the token ahead, where the end of the text passes the test. -/
theorem iteAtEnd {test : Token → Bool} {p : Token → Prop} {m₁ m₂ : ParseM α} {q₁ q₂ : Phrase α}
    (htest : ∀ token, test token = true ↔ p token) (hlast : last.IsLast → p last)
    (h₁ : Parses file last n m₁ q₁) (h₂ : Parses file last n m₂ q₂) :
    Parses file last n (do if test (← ParseM.peek) then m₁ else m₂) fun tokens a rest =>
      Phrase.Ahead p tokens ∧ q₁ tokens a rest ∨
        Phrase.Starts (fun token => ¬ p token) tokens ∧ q₂ tokens a rest := by
  have hswap : (do if test (← ParseM.peek) then m₁ else m₂ : ParseM α) =
      (do if !test (← ParseM.peek) then m₂ else m₁) :=
    bind_congr fun token => by cases test token <;> rfl
  rw [hswap]
  refine (ite (p := fun token => ¬ p token) (fun token => by simp [← htest])
    (fun h hp => hp (hlast h)) h₂ h₁).congr fun _ tokens _ a rest => ?_
  rw [or_comm]
  simp only [Classical.not_not]

theorem expect {expected : Expected} (hend : last.IsLast → expected.accepts last = false) :
    Parses file last n (ParseM.expect expected) fun tokens token rest =>
      tokens.head? = some token ∧ expected.accepts token = true ∧ rest = tokens := by
  refine (ifAhead (p := fun token => expected.accepts token = true) (fun _ => Iff.rfl)
    (fun hlast => by simp [hend hlast]) peek
    (unread (fail (.unexpectedToken expected.phrase)))).congr fun _ tokens _ token rest => ?_
  cases tokens with
  | nil => simp
  | cons first tokens =>
    simp only [Phrase.starts_cons, List.headD_cons, and_false, or_false, List.head?_cons,
      Option.some.injEq]
    constructor
    · rintro ⟨haccepts, rfl, rfl⟩
      exact ⟨rfl, haccepts, rfl⟩
    · rintro ⟨rfl, haccepts, rfl⟩
      exact ⟨haccepts, rfl, rfl⟩

theorem take {expected : Expected} (hend : last.IsLast → expected.accepts last = false) :
    Parses file last n (ParseM.take expected) fun tokens token rest =>
      tokens = token :: rest ∧ expected.accepts token = true := by
  refine (bind (expect hend) fun token => bind advance fun _ => pure token).congr
    fun _ tokens _ token rest => ?_
  cases tokens with
  | nil => simp
  | cons first tokens => simp; grind

theorem takeKind (kind : Token.Kind) (h : kind ≠ .endOfText) :
    Parses file last n (ParseM.take (.kind kind)) fun tokens token rest =>
      tokens = token :: rest ∧ token.kind = kind :=
  (take fun hlast => by simpa [Expected.accepts, hlast.kind_eq] using h.symm).congr
    fun _ _ _ _ _ => by simp [Expected.accepts]

theorem takeText (text : String) (h : text ≠ "") :
    Parses file last n (ParseM.take (.text text)) fun tokens token rest =>
      tokens = token :: rest ∧ token.value = text :=
  (take fun hlast => by simpa [Expected.accepts, hlast.value_eq] using h.symm).congr
    fun _ _ _ _ _ => by simp [Expected.accepts]

theorem takeNextKind (kind : Token.Kind) (h : kind ≠ .endOfText) :
    Parses file last n (ParseM.takeNext (.kind kind)) fun tokens token rest =>
      tokens.tail = token :: rest ∧ token.kind = kind :=
  (bind advance fun _ => takeKind kind h).congr fun _ _ _ _ _ => by simp

theorem takeNextText (text : String) (h : text ≠ "") :
    Parses file last n (ParseM.takeNext (.text text)) fun tokens token rest =>
      tokens.tail = token :: rest ∧ token.value = text :=
  (bind advance fun _ => takeText text h).congr fun _ _ _ _ _ => by simp

theorem consume :
    Parses file last n ParseM.consume fun tokens token rest =>
      token = tokens.headD last ∧ rest = tokens.tail := by
  refine (bind peek fun token => bind advance fun _ => pure token).congr fun _ tokens _ token rest => ?_
  constructor
  · rintro ⟨_, _, ⟨rfl, rfl⟩, _, _, rfl, rfl, rfl⟩
    exact ⟨rfl, rfl⟩
  · rintro ⟨rfl, rfl⟩
    exact ⟨_, tokens, ⟨rfl, rfl⟩, (), _, rfl, rfl, rfl⟩

theorem expectDelimiter {delimiters : List String} (message : String) (h : "" ∉ delimiters) :
    Parses file last n (ParseM.expectDelimiter delimiters message) fun tokens _ rest =>
      Phrase.Starts (·.value ∈ delimiters) tokens ∧ rest = tokens := by
  refine (ifAhead (p := (·.value ∈ delimiters)) (fun _ => List.contains_iff_mem)
    (fun hlast => by simpa [hlast.value_eq] using h) (unread (pure ()))
    (bind peek fun token => fail (.unexpectedText token.value message))).congr
    fun _ tokens _ _ rest => ?_
  simp

/-- Parsers may read the name of their file. -/
theorem getFile {m : String → ParseM α} {p : Phrase α} (h : Parses file last n (m file) p) :
    Parses file last n (do m (← get).file) p where
  sound := by
    intro cursor after a hcursor hrun
    replace hrun : m cursor.file cursor = .ok a after := hrun
    exact h.sound hcursor (hcursor.file_eq ▸ hrun)
  complete := by
    intro cursor a rest hcursor hclean hlen hp
    show ∃ after, m cursor.file cursor = .ok a after ∧ _
    rw [hcursor.file_eq]
    exact h.complete hcursor hclean hlen hp

/-- The budget of a cursor is enough for a parser that needs as much as there are tokens. -/
theorem getBudget {m : Nat → ParseM α} {p : Phrase α}
    (h : ∀ bound, Parses file last bound (m bound) p) :
    Parses file last n (do m (← get).budget) p where
  sound {cursor} _ _ hcursor hrun := (h cursor.budget).sound hcursor hrun
  complete {cursor} _ _ hcursor hclean _ hp :=
    (h cursor.budget).complete hcursor hclean cursor.length_view_lt_budget hp

end Parses

end ParseM

end Offside
