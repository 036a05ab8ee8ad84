import Offside.Proofs.Phrase.Moved
import Offside.Proofs.Scanner.Reads
import Offside.Proofs.Token.Word
import Offside.Proofs.TypeExpr.Spelling

/-!
# Types are read back

A type is written by its canonical spelling (`TypeExpr.text`) and read by `TypeExpr.parse`. The two
are inverse on the types whose names are names, `TypeExpr.rereads_of_isSpellable`, and these are all
the types that the parser answers wherever it stands in a text (`Phrase.TypeTerm.isSpellable`).
-/

namespace Offside

/-! ## Cursors in a text -/

/-- A cursor in a text: on its first token, or further on by steps that met no fault. -/
inductive Cursor.InText (source : String) (file : Option String) : Cursor → Prop
  | start {log : Array Event} {cursor : Cursor}
    (h : (Cursor.ofText source file log).result = .ok cursor) : InText source file cursor
  | step {cursor after : Cursor} (h : InText source file cursor)
    (hrun : ParseM.advance.run cursor = .ok () after) : InText source file after

namespace Cursor

variable {source : String} {file : Option String} {cursor : Cursor}

theorem mem_next (stream : Token.Stream) :
    stream.next.1 ∈ stream.ahead ++ [stream.last] ∧
      stream.next.2.ahead ++ [stream.next.2.last] ⊆ stream.ahead ++ [stream.last] := by
  obtain ⟨ahead, last⟩ := stream
  cases ahead with
  | nil => simp [Token.Stream.next]
  | cons delivery ahead => simp [Token.Stream.next]

/-- The tokens around a cursor are tokens of its text. -/
theorem InText.mem (h : cursor.InText source file) :
    (∃ delivery ∈ (Token.Stream.ofText source file).ahead ++ [(Token.Stream.ofText source file).last],
      delivery.result = .ok cursor.current) ∧
      cursor.stream.ahead ++ [cursor.stream.last] ⊆
        (Token.Stream.ofText source file).ahead ++ [(Token.Stream.ofText source file).last] := by
  induction h with
  | start h =>
    obtain ⟨current, hresult, rfl⟩ := Cursor.ofText_eq_ok_iff.1 h
    obtain ⟨hfirst, hrest⟩ := mem_next (Token.Stream.ofText source file)
    exact ⟨⟨_, hfirst, hresult⟩, hrest⟩
  | @step cursor after h hrun ih =>
    obtain ⟨hfirst, hrest⟩ := mem_next cursor.stream
    rw [show ParseM.advance.run cursor = ParseM.advance cursor from rfl, ParseM.advance_eq] at hrun
    split at hrun
    · rename_i current hresult
      cases hrun
      exact ⟨⟨_, ih.2 hfirst, hresult⟩, fun _ hmem => ih.2 (hrest hmem)⟩
    · cases hrun

theorem InText.sound (h : cursor.InText source file) :
    cursor.Sound (file.getD Scanner.unknownFile) cursor.endToken := by
  induction h with
  | start h => exact (Cursor.sound_ofText h).1
  | step _ hrun ih =>
    obtain ⟨hleads, -⟩ := ParseM.leads_of_advance ih hrun
    rw [hleads.sound.endToken_eq]
    exact hleads.sound

/-- The names in view are spelled like names. -/
theorem InText.worded (h : cursor.InText source file) : ∀ token ∈ cursor.view, token.Worded := by
  intro token htoken
  obtain ⟨⟨delivery, hmem, hresult⟩, hahead⟩ := h.mem
  have hall := Token.Stream.worded_ofText source file
  unfold view at htoken
  split at htoken
  · cases htoken
  · rcases List.mem_cons.1 htoken with rfl | htoken
    · exact hall delivery hmem _ hresult
    · obtain ⟨later, hlater, hresult'⟩ := mem_tokens htoken
      exact hall later (hahead (List.mem_append_left _ hlater)) _ hresult'

theorem isEnd_of_view (h : cursor.view = []) : cursor.current.isEnd = true := by
  unfold view at h
  split at h
  · assumption
  · cases h

end Cursor

/-! ## Parsed types -/

namespace Phrase

open TypeExpr

/-- The names among the tokens are spelled like names. -/
def Worded (tokens : List Token) : Prop :=
  ∀ token ∈ tokens, token.Worded

theorem Worded.mono {tokens rest : List Token} (h : Worded tokens) (hsuffix : rest <:+ tokens) :
    Worded rest :=
  fun token hmem => h token (hsuffix.subset hmem)

theorem Worded.head {token : Token} {tokens : List Token} (h : Worded (token :: tokens)) :
    token.Worded :=
  h token List.mem_cons_self

theorem Worded.tail {token : Token} {tokens : List Token} (h : Worded (token :: tokens)) :
    Worded tokens :=
  h.mono (List.suffix_cons _ _)

theorem Path.all_isConstant {tokens rest : List Token} {path : List String}
    (h : Path tokens path rest) (hworded : Worded tokens) : path.all Text.isConstant = true := by
  induction h with
  | stop => rfl
  | more hstep _ ih =>
    obtain ⟨-, hname⟩ := hstep
    have hfirst := hworded.tail.head.constant hname
    rw [List.all_cons, hfirst, ih hworded.tail.tail]
    rfl

mutual

/-- The names in a type that a text spells are names. -/
theorem TypeTerm.isSpellable : ∀ {tokens rest : List Token} {type : TypeExpr},
    TypeTerm tokens type rest → Worded tokens → type.isSpellable = true
  | _, _, _, .tuple _ hentries, hworded => areSpellable_entries hentries hworded.tail
  | _, _, _, .array _ _ helement, hworded => helement.isSpellable hworded.tail.tail
  | _, _, .function _ none, .function _ hparams _, hworded => by
    rw [TypeExpr.isSpellable, hparams.areSpellable hworded.tail]
  | _, _, .function _ (some type), .function _ hparams hresult, hworded => by
    have htype := hresult.isSpellable (hworded.tail.mono hparams.suffix) type rfl
    rw [TypeExpr.isSpellable, hparams.areSpellable hworded.tail, htype]
    rfl
  | _, _, _, .named hname hpath, hworded => by
    rw [TypeExpr.isSpellable, List.all_cons, hworded.head.constant hname,
      Path.all_isConstant hpath hworded.tail]
    rfl

theorem areSpellable_entries : ∀ {tokens rest : List Token}
    {entries : List (Option String × TypeExpr)}, Items ")" Entry tokens entries rest →
      Worded tokens → areSpellableEntries entries = true
  | _, _, _, .nil _, _ => rfl
  | _, _, _, .last _ hitem _, hworded => hitem.areSpellable rfl hworded
  | _, _, _, .more _ hitem _ hothers, hworded =>
    hitem.areSpellable (areSpellable_entries hothers (hworded.mono hitem.takes.suffix).tail) hworded

/-- An entry of a tuple before others. -/
theorem Entry.areSpellable : ∀ {tokens rest : List Token} {entry : Option String × TypeExpr}
    {others : List (Option String × TypeExpr)}, Entry tokens entry rest →
      areSpellableEntries others = true → Worded tokens → areSpellableEntries (entry :: others) = true
  | _, _, _, _, .named hname _ htype, hothers, hworded => by
    have htype' := htype.isSpellable hworded.tail.tail
    rw [areSpellableEntries, hworded.head.identifier hname, htype', hothers]
    rfl
  | _, _, _, _, .unnamed _ htype, hothers, hworded => by
    rw [areSpellableEntries, htype.isSpellable hworded, hothers]
    rfl

theorem areSpellable_types : ∀ {tokens rest : List Token} {types : List TypeExpr},
    Items ")" TypeTerm tokens types rest → Worded tokens → areSpellable types = true
  | _, _, _, .nil _, _ => rfl
  | _, _, _, .last _ hitem _, hworded => by
    rw [areSpellable, hitem.isSpellable hworded]
    rfl
  | _, _, _, .more _ hitem _ hothers, hworded => by
    have hothers' := areSpellable_types hothers (hworded.mono hitem.takes.suffix).tail
    rw [areSpellable, hitem.isSpellable hworded, hothers']
    rfl

theorem Domain.areSpellable : ∀ {tokens rest : List Token} {params : List TypeExpr},
    Domain tokens params rest → Worded tokens → TypeExpr.areSpellable params = true
  | _, _, _, .list _ hparams, hworded => areSpellable_types hparams hworded.tail
  | _, _, _, .single _ htype, hworded => by
    rw [TypeExpr.areSpellable, htype.isSpellable hworded]
    rfl
  | _, _, _, .none _, _ => rfl

theorem Codomain.isSpellable : ∀ {tokens rest : List Token} {result : Option TypeExpr},
    Codomain tokens result rest → Worded tokens → ∀ type ∈ result, type.isSpellable = true
  | _, _, _, .some _ htype, hworded, _, rfl => htype.isSpellable hworded.tail
  | _, _, _, .none _, _, _, hmem => nomatch hmem

end

end Phrase

/-! ## Reading back -/

namespace TypeExpr

/-- The spelling of the type is read as the type, with nothing after it. -/
def Rereads (type : TypeExpr) (file : Option String) : Prop :=
  ∃ cursor after, (Cursor.ofText type.text file #[]).result = .ok cursor ∧
    parse.run cursor = .ok type after ∧ after.current.isEnd = true

theorem rereads_of_isSpellable {type : TypeExpr} (h : type.isSpellable = true)
    (file : Option String) : type.Rereads file := by
  have hreads := spells_text type h [0] [] (by simp [Text.Apart])
  rw [List.append_nil] at hreads
  obtain ⟨found, last, htokens, hmoved⟩ := exists_tokenize_of_reads file hreads rfl
  have hterm := Phrase.typeTerm_tokens type [] h Phrase.ahead_nil
  rw [List.append_nil] at hterm
  obtain ⟨rest, hterm', hrest⟩ := hterm.moved hmoved fun _ => rfl
  cases hrest
  obtain ⟨cursor, hcursor⟩ := Cursor.exists_ofText #[] htokens
  obtain ⟨hsound, hview⟩ := Cursor.sound_ofText hcursor
  obtain ⟨hclean, heq⟩ := (hview _).1 htokens
  obtain ⟨rfl, -⟩ := List.append_inj' heq rfl
  obtain ⟨after, hrun, hafter⟩ := parses_parse.complete hsound hclean (Nat.lt_succ_self _) hterm'
  exact ⟨cursor, after, hcursor, hrun, Cursor.isEnd_of_view hafter⟩

/-- A type that is parsed anywhere in a text has only names for names. -/
theorem isSpellable_of_parse {source : String} {file : Option String} {cursor after : Cursor}
    {type : TypeExpr} (hcursor : cursor.InText source file)
    (hrun : parse.run cursor = .ok type after) : type.isSpellable = true := by
  obtain ⟨-, hterm⟩ := (parses_parse (n := 0)).sound hcursor.sound hrun
  exact hterm.isSpellable hcursor.worded

/-- Writing and reading a type are inverse: a type whose names are names is read back from its
spelling, and every type that is parsed anywhere in a text is one of these. -/
theorem parse_text :
    (∀ (type : TypeExpr) (file : Option String), type.isSpellable = true → type.Rereads file) ∧
      ∀ (source : String) (file : Option String) (cursor after : Cursor) (type : TypeExpr),
        cursor.InText source file → parse.run cursor = .ok type after →
          type.isSpellable = true ∧ ∀ file', type.Rereads file' := by
  refine ⟨fun type file h => rereads_of_isSpellable h file,
    fun source file cursor after type hcursor hrun => ?_⟩
  have h := isSpellable_of_parse hcursor hrun
  exact ⟨h, rereads_of_isSpellable h⟩

/-- A nested function type, named and unnamed entries, and the spellings that depend on what is
inside. -/
theorem parse_text_nested :
    let type : TypeExpr := .function
      [.tuple [(some "a", .named ["A", "B"]), (none, .array (.function [] none))],
        .function [.tuple [(none, .named ["A"])]] none]
      (some (.function [.named ["C"]] (some (.tuple []))))
    type.text = "fn ((a: A::B, []fn), fn ((A))) -> fn (C) -> ()" ∧ type.Rereads none ∧
      ∃ cursor after, cursor.InText type.text none ∧ parse.run cursor = .ok type after ∧
        type.isSpellable = true ∧ type.Rereads (some "f") := by
  intro type
  have hrereads : type.Rereads none := parse_text.1 type none (by decide +kernel)
  obtain ⟨cursor, after, hcursor, hrun, -⟩ := hrereads
  obtain ⟨hspellable, hagain⟩ :=
    parse_text.2 type.text none cursor after type (.start hcursor) hrun
  exact ⟨by decide +kernel, hagain none, cursor, after, .start hcursor, hrun, hspellable,
    hagain (some "f")⟩

end TypeExpr

end Offside
