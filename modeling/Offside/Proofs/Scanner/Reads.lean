import Offside.Proofs.Scanner.Delivers
import Offside.Proofs.Token.Cut
import Offside.Proofs.Token.Moved

/-!
# Reading a part of a text

`Scanner.Reads` relates a part of a text to its tokens without regard to places: a scanner inside
blocks of given widths, with the part ahead, delivers those tokens. There is a rule for each kind of
step, and `exists_tokenize_of_reads` is the result for a whole text.
-/

namespace Offside

open Token (Moved)

namespace Scanner

/-- A scanner with the text ahead, inside blocks of the given widths. No tokens are due before. -/
structure At (scanner : Scanner) (widths : List Nat) (text : List Char) : Prop where
  rest : scanner.rest = text
  widths : scanner.layout.widths = widths
  pending : scanner.pending = []

/-- From every place at which the text begins, inside blocks of the given widths, the tokens lead to
the text and the blocks after them. -/
def Reads (widths : List Nat) (text : List Char) (tokens : List Token) (widths' : List Nat)
    (text' : List Char) : Prop :=
  ∀ scanner : Scanner, scanner.At widths text → ∃ found after,
    scanner.Delivers found after ∧ after.At widths' text' ∧ Moved [] tokens found

variable {widths widths' widths'' : List Nat} {text text' text'' : List Char}
  {tokens tokens' : List Token}

theorem Reads.refl : Reads widths text [] widths text :=
  fun scanner h => ⟨[], scanner, .refl, h, .nil⟩

theorem Reads.trans (h : Reads widths text tokens widths' text')
    (h' : Reads widths' text' tokens' widths'' text'') :
    Reads widths text (tokens ++ tokens') widths'' text'' := by
  intro scanner hat
  obtain ⟨found, middle, hdelivers, hmiddle, hmoved⟩ := h _ hat
  obtain ⟨found', after, hdelivers', hafter, hmoved'⟩ := h' _ hmiddle
  exact ⟨found ++ found', after, hdelivers.trans hdelivers', hafter, hmoved.append hmoved'⟩

theorem Reads.cut {kind : Token.Kind} {value : String}
    (hcut : Token.cut? text = some (kind, value, text')) :
    Reads widths text [.bare kind value] widths text' := by
  intro scanner hat
  have hskip : scanner.skipSpaces.rest = text := by
    cases text with
    | nil => cases hcut
    | cons c text =>
      refine (congrArg _ hat.rest).trans (List.dropWhile_cons_of_neg fun hspace => ?_)
      rw [beq_iff_eq.1 hspace] at hcut
      cases hcut
  have hkind := Token.Kind.isSynthetic_of_cut? hcut
  exact ⟨_, _, .of_goes (.cut hat.pending (hskip ▸ hcut) rfl) (Token.isEnd_of_plain hkind) .refl,
    ⟨rfl, hat.widths, rfl⟩, .cons _ _ .nil⟩

/-! ## Line breaks -/

/-- The tokens that wait are delivered first. -/
theorem delivers_pending {scanner : Scanner} (hbreaks : scanner.PendingBreaks) :
    scanner.Delivers scanner.pending { scanner with pending := [] } := by
  obtain ⟨file, rest, line, column, layout, pending⟩ := scanner
  induction pending with
  | nil => exact .refl
  | cons token others ih =>
    exact .step rfl (hbreaks token List.mem_cons_self).isEnd
      (ih fun later hlater => hbreaks later (List.mem_cons_of_mem _ hlater))

theorem seek_replicate (breaks width width' : Nat) {text : List Char}
    (hhead : ∀ c ∈ text.head?, c ≠ ' ' ∧ c ≠ '\n') :
    LineStart.seek breaks width' (List.replicate width ' ' ++ text) =
      ⟨breaks, width' + width, text⟩ := by
  induction width generalizing width' with
  | zero =>
    cases text with
    | nil => rfl
    | cons c text =>
      obtain ⟨hspace, hnewline⟩ := hhead c rfl
      rw [List.replicate_zero, List.nil_append, LineStart.seek]
      · rfl
      · exact fun others heq => hspace (List.cons.inj heq).1
      · exact fun others heq => hnewline (List.cons.inj heq).1
  | succ width ih =>
    rw [List.replicate_succ, List.cons_append, LineStart.seek, ih, Nat.add_assoc, Nat.add_comm 1]

/-- From the end of a line to the beginning of the next one, past the spaces there. -/
theorem Reads.lineBreak {width : Nat} {kinds : List Token.Kind}
    (hkinds : (Layout.mk widths).breaks? width = some kinds)
    (hhead : ∀ c ∈ text.head?, c ≠ ' ' ∧ c ≠ '\n') (hend : text = [] → width = 0) :
    Reads widths ('\n' :: (List.replicate width ' ' ++ text))
      (.bare .newline "\n" :: kinds.map (.bare · "")) ((Layout.mk widths).enter width).widths text := by
  intro scanner hat
  have hlayout : scanner.layout = ⟨widths⟩ := congrArg Layout.mk hat.widths
  have hseek := seek_replicate 1 width 0 hhead
  rw [Nat.zero_add] at hseek
  have hlevel : (LineStart.seek 1 0 (List.replicate width ' ' ++ text)).level = width := by
    rw [hseek, LineStart.level]
    split
    · rename_i hnil
      exact (hend (List.isEmpty_iff.1 hnil)).symm
    · rfl
  have hskip : scanner.skipSpaces.rest = '\n' :: (List.replicate width ' ' ++ text) := by
    simp [skipSpaces, hat.rest]
  have hkinds' : scanner.layout.breaks? width = some kinds := by rwa [hlayout]
  have hgoes := Goes.lineBreak hat.pending hskip rfl hlevel.symm hkinds'
  have hbreaks := (hgoes.regular (by simp [PendingBreaks, hat.pending])).2
  refine ⟨_, _, .of_goes hgoes rfl (delivers_pending hbreaks),
    ⟨congrArg LineStart.rest hseek, ?_, rfl⟩, .cons _ _ (.map (fun _ => ⟨_, _, rfl⟩) kinds)⟩
  show (scanner.layout.enter _).widths = _
  rw [hlayout, hlevel]

/-- Spaces before a token are no matter. -/
theorem Reads.space (h : Reads widths text tokens widths' text') (hne : tokens ≠ []) :
    Reads widths (' ' :: text) tokens widths' text' := by
  intro scanner hat
  let later : Scanner := { scanner with rest := text, column := scanner.column + 1 }
  obtain ⟨found, after, hdelivers, hafter, hmoved⟩ :=
    h later ⟨rfl, hat.widths, hat.pending⟩
  have hskip : scanner.skipSpaces = later.skipSpaces := by
    simp [skipSpaces, later, hat.rest, Nat.add_assoc, Nat.add_comm 1]
  have hnext : scanner.next = later.next := next_congr hskip hat.pending hat.pending
  cases hdelivers with
  | refl => cases hmoved; exact absurd rfl hne
  | step hresult hend hrest =>
    rw [← hnext] at hresult hrest
    exact ⟨_, after, .step hresult hend hrest, hafter, hmoved⟩

theorem Reads.spaces {spaces : List Char} (h : Reads widths text tokens widths' text')
    (hne : tokens ≠ []) (hspaces : spaces.dropWhile (· == ' ') = []) :
    Reads widths (spaces ++ text) tokens widths' text' := by
  induction spaces with
  | nil => exact h
  | cons c spaces ih =>
    rw [List.dropWhile_cons] at hspaces
    split at hspaces
    · rename_i hspace
      rw [beq_iff_eq.1 hspace, List.cons_append]
      exact (ih hspaces).space hne
    · cases hspaces

/-- The tokens have the classes that their texts have. -/
theorem Reads.proper (h : Reads widths text tokens widths' text') :
    ∀ token ∈ tokens, token.Proper := by
  let scanner : Scanner := { file := "", rest := text, layout := ⟨widths⟩ }
  obtain ⟨found, after, hdelivers, -, hmoved⟩ := h scanner ⟨rfl, rfl, rfl⟩
  have hproper := hdelivers.proper (by simp [PendingBreaks, scanner])
  clear hdelivers h
  induction hmoved with
  | nil => simp
  | cons line column _ ih =>
    rw [List.forall_mem_cons] at hproper ⊢
    exact ⟨hproper.1, ih hproper.2⟩

/-- Where only spaces are left, the text ends. -/
theorem At.ends {scanner : Scanner} (hat : scanner.At widths text)
    (hspaces : text.dropWhile (· == ' ') = []) : scanner.Ends scanner.skipSpaces.endToken := by
  have hskip : scanner.skipSpaces.rest = [] := by
    rw [← hspaces, ← hat.rest]
    rfl
  exact ⟨by rw [next_of_end hat.pending hskip], rfl⟩

end Scanner

theorem exists_tokenize_of_reads {source : String} (file : Option String) {tokens : List Token}
    {widths : List Nat} {text : List Char}
    (h : Scanner.Reads [0] source.toList tokens widths text)
    (hspaces : text.dropWhile (· == ' ') = []) :
    ∃ found last, (tokenize source file).result = .ok (found ++ [last]) ∧ Moved [] tokens found := by
  have hat : (Scanner.ofText source file).At [0] source.toList := ⟨rfl, rfl, rfl⟩
  obtain ⟨found, after, hdelivers, hafter, hmoved⟩ := h _ hat
  exact ⟨found, _, tokenize_eq_ok_iff.2 ⟨after, hdelivers, hafter.ends hspaces⟩, hmoved⟩

end Offside
