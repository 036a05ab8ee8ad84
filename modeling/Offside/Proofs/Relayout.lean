import Offside.Proofs.Scanner.Lays
import Offside.Proofs.Scanner.Passes
import Offside.Proofs.Token.Recut

/-!
# Texts laid out anew

`Token.relaid` writes tokens as a text in one fixed way: one space between the tokens of a line, and
two columns more inside a block than around it. That text has the same tokens, so that it is written
the same way again (`tokenize_relaid`).

Both texts are walked at once. The widths of the open blocks differ, but not their number: where the
scanner of the first text is inside some blocks, that of the new text is inside as many
(`Scanner.Passes.reads`).
-/

namespace Offside

open Layout (nested)
open Scanner (StartsLine Reads margin)
open Text (Separated)

namespace Token

/-- The class and the text of a token. -/
def spelling (token : Token) : Kind × String :=
  (token.kind, token.value)

/-- The text of tokens inside `depth` blocks, where `begun` tells whether other text stands on the
line already. -/
def write (depth : Nat) (begun : Bool) : List Token → List Char
  | [] => []
  | token :: tokens =>
    match token.kind with
    | .newline => '\n' :: write depth false tokens
    | .indent => write (depth + 1) begun tokens
    | .outdent => write (depth - 1) begun tokens
    | .endOfText => write depth begun tokens
    | _ =>
      (if begun then [' '] else margin depth) ++ (token.value.toList ++ write depth true tokens)

/-- The text of tokens, laid out anew. -/
def relaid (tokens : List Token) : String :=
  String.ofList (write 0 false tokens)

variable {token : Token} {tokens tokens' : List Token} {depth : Nat} {begun : Bool}

theorem write_newline (h : token.kind = .newline) :
    write depth begun (token :: tokens) = '\n' :: write depth false tokens := by
  rw [write, h]

theorem write_plain (h : token.kind.isSynthetic = false) :
    write depth begun (token :: tokens) =
      (if begun then [' '] else margin depth) ++
        (token.value.toList ++ write depth true tokens) := by
  rw [write]
  revert h
  cases token.kind <;> simp [Kind.isSynthetic]

/-- Only the classes and the texts of tokens are written. -/
theorem write_congr (h : tokens.map spelling = tokens'.map spelling) :
    write depth begun tokens = write depth begun tokens' := by
  induction tokens generalizing tokens' depth begun with
  | nil =>
    rw [List.map_nil, eq_comm, List.map_eq_nil_iff] at h
    rw [h]
  | cons token tokens ih =>
    cases tokens' with
    | nil => cases h
    | cons token' tokens' =>
      obtain ⟨hfirst, hrest⟩ := List.cons.inj h
      obtain ⟨hkind, hvalue⟩ := Prod.mk.inj hfirst
      rw [write, write, hkind, hvalue]
      simp only [ih hrest]

theorem write_append_end (h : token.kind = .endOfText) :
    write depth begun (tokens ++ [token]) = write depth begun tokens := by
  induction tokens generalizing depth begun with
  | nil => simp [write, h]
  | cons first tokens ih =>
    rw [List.cons_append, write, write]
    simp only [ih]

end Token

namespace Layout

variable {layout : Layout} {level : Nat} {kinds : List Token.Kind}

open Token (write)

/-- A line break leads to the same number of blocks in both texts. The shifts of it are not
written. -/
theorem Breaks.write_shifts (h : layout.Breaks level kinds) (hbottom : 0 ∈ layout.widths)
    (here : Scanner) (tokens : List Token) :
    write layout.depth false (kinds.map (here.mark · "") ++ tokens) =
      write (layout.enter level).depth false tokens := by
  have houtdents (depth count : Nat) :
      write depth false ((List.replicate count Token.Kind.outdent).map (here.mark · "") ++ tokens) =
        write (depth - count) false tokens := by
    induction count generalizing depth with
    | zero => rfl
    | succ count ih => exact (ih (depth - 1)).trans (by rw [Nat.sub_sub, Nat.add_comm 1])
  cases h with
  | stay _ hwidths =>
    rw [depth_of_same hwidths]
    rfl
  | deeper _ hwidths =>
    rw [depth_of_cons hbottom hwidths]
    rfl
  | back count _ hwidths =>
    rw [houtdents, depth_of_drop hbottom hwidths, Nat.add_sub_cancel]

/-- A line break is read inside the blocks of the new text as it is inside those of the other. -/
theorem Breaks.reads {ahead : List Char} (h : layout.Breaks level kinds)
    (hbottom : 0 ∈ layout.widths) (hahead : StartsLine (layout.enter level).depth ahead) :
    Reads (nested layout.depth) ('\n' :: (margin (layout.enter level).depth ++ ahead))
      (.bare .newline "\n" :: kinds.map (.bare · "")) (nested (layout.enter level).depth)
      ahead := by
  cases h with
  | stay _ hwidths =>
    rw [depth_of_same hwidths] at hahead ⊢
    simpa using Reads.back (Nat.le_refl _) hahead
  | deeper _ hwidths =>
    rw [depth_of_cons hbottom hwidths] at hahead ⊢
    exact Reads.deeper _ hahead
  | back count _ hwidths =>
    have hdepth := depth_of_drop hbottom hwidths
    have hback := Reads.back (Nat.le.intro hdepth.symm) hahead
    rw [hdepth, Nat.add_sub_cancel_left] at hback
    rwa [List.map_replicate, hdepth]

end Layout

namespace Scanner

variable {scanner after : Scanner} {tokens : List Token}

open Token (write)

/-- The tokens begin with text, or there are none and all blocks are closed. -/
def Opens (depth : Nat) (tokens : List Token) : Prop :=
  tokens = [] ∧ depth = 0 ∨
    ∃ token later, tokens = token :: later ∧ token.kind.isSynthetic = false

/-- The tokens are read again from their text, which ends `depth'` blocks deep: behind other tokens
of a line inside `depth` blocks, and from the beginning of such a line on. -/
structure Rewrites (depth depth' : Nat) (tokens : List Token) : Prop where
  separated : Separated (write depth true tokens)
  goesOn : Reads (nested depth) (write depth true tokens)
    (tokens.map fun token => .bare token.kind token.value) (nested depth') []
  starts : Opens depth tokens → ∃ ahead, write depth false tokens = margin depth ++ ahead ∧
    StartsLine depth ahead ∧ Reads (nested depth) ahead
      (tokens.map fun token => .bare token.kind token.value) (nested depth') []

/-- The text of a passage to the end is read again, with as many blocks around it as the scanner has
open. -/
theorem Passes.rewrites (h : Passes scanner tokens after) (hend : after.skipSpaces.rest = [])
    (hbottom : 0 ∈ scanner.layout.widths) (hdescends : scanner.layout.Descends) :
    Rewrites scanner.layout.depth after.layout.depth tokens := by
  induction h with
  | @refl scanner =>
    refine ⟨by simp [write, Separated], .refl, fun hopens => ?_⟩
    obtain ⟨-, hdepth⟩ | ⟨token, later, hnil, -⟩ := hopens
    · rw [hdepth]
      exact ⟨[], rfl, ⟨by simp, fun _ => rfl⟩, .refl⟩
    · cases hnil
  | @cut scanner after kind value rest tokens hcut _ ih =>
    -- A space or a line break comes next, so that the token ends where it did.
    obtain ⟨hseparated, hreads, -⟩ := ih hend hbottom hdescends
    have htoken := (Reads.cut (Token.cut?_append hseparated (Token.cut?_value hcut))).trans hreads
    obtain ⟨c, others, hvalue, hc⟩ := Token.exists_head_of_cut? hcut
    have hwrite (begun : Bool) : write scanner.layout.depth begun
        (⟨kind, value, scanner.line, scanner.skipSpaces.column⟩ :: tokens) =
          (if begun then [' '] else margin scanner.layout.depth) ++
            (value.toList ++ write scanner.layout.depth true tokens) :=
      Token.write_plain (Token.Kind.isSynthetic_of_cut? hcut)
    refine ⟨?_, ?_, fun _ => ⟨_, hwrite false, ?_, htoken⟩⟩
    · rw [hwrite true]
      exact (Text.spaced_cons _).separated
    · rw [hwrite true]
      exact htoken.space (List.cons_ne_nil _ _)
    · rw [hvalue]
      exact ⟨by simp [hc], fun hnil => absurd hnil (List.cons_ne_nil _ _)⟩
  | @lineBreak scanner after rest kinds tokens hrest hkinds hpasses ih =>
    -- The next line begins with text, unless there is none: then no blocks are open.
    have hbreaks := Layout.breaks_of_breaks? hkinds hbottom
    obtain ⟨-, -, hstarts⟩ := ih hend (Layout.bottom_enter hbottom)
      (Layout.descends_enter hdescends _)
    have hopens : Opens (scanner.afterBreak rest).layout.depth tokens := by
      obtain ⟨hnil, htokens⟩ | hplain := hpasses.afterBreak hend
      · refine .inl ⟨htokens, ?_⟩
        rw [Layout.depth, (breaks?_of_rest_nil hkinds hnil hbottom hdescends).2]
        rfl
      · exact .inr hplain
    obtain ⟨ahead, hahead, hstart, hreads⟩ := hstarts hopens
    have hall := (hbreaks.reads hbottom hstart).trans hreads
    have hwrite : write scanner.layout.depth true
        ((scanner.afterBreak rest).breakTokens kinds ++ tokens) =
          '\n' :: (margin (scanner.afterBreak rest).layout.depth ++ ahead) := by
      rw [breakTokens, List.cons_append, Token.write_newline rfl,
        hbreaks.write_shifts hbottom (scanner.afterBreak rest) tokens, ← hahead]
      rfl
    refine ⟨?_, ?_, fun hopens => ?_⟩
    · rw [hwrite]
      exact Text.separated_newline _
    · rw [hwrite]
      rw [breakTokens, List.cons_append, List.map_cons, List.map_append, List.map_map]
      exact hall
    · obtain ⟨hnil, -⟩ | ⟨token, later, heq, hkind⟩ := hopens
      · cases hnil
      · cases heq
        cases hkind

/-- The first line begins like any other, but for spaces, which are not written. -/
theorem Passes.reads (h : Passes scanner tokens after) (hend : after.skipSpaces.rest = [])
    (hbottom : 0 ∈ scanner.layout.widths) (hdescends : scanner.layout.Descends)
    (hdepth : scanner.layout.depth = 0) :
    Reads [0] (write 0 false tokens) (tokens.map fun token => .bare token.kind token.value)
      (nested after.layout.depth) [] := by
  obtain ⟨-, hgoesOn, hstarts⟩ := h.rewrites hend hbottom hdescends
  rw [hdepth] at hgoesOn hstarts
  have hopens (h : Opens 0 tokens) : Reads [0] (write 0 false tokens)
      (tokens.map fun token => .bare token.kind token.value) (nested after.layout.depth) [] := by
    obtain ⟨ahead, hahead, -, hreads⟩ := hstarts h
    rwa [show write 0 false tokens = ahead from hahead]
  cases h with
  | refl => exact hopens (.inl ⟨rfl, rfl⟩)
  | cut hcut => exact hopens (.inr ⟨_, _, rfl, Token.Kind.isSynthetic_of_cut? hcut⟩)
  | lineBreak =>
    rw [breakTokens, List.cons_append, Token.write_newline rfl] at hgoesOn ⊢
    exact hgoesOn

end Scanner

theorem Token.Moved.map_spelling {tokens found : List Token}
    (h : Moved [] (tokens.map fun token => .bare token.kind token.value) found) :
    found.map spelling = tokens.map spelling := by
  induction tokens generalizing found with
  | nil =>
    cases h
    rfl
  | cons token tokens ih =>
    obtain _ | ⟨line, column, h⟩ := h
    rw [List.map_cons, List.map_cons, ih h]
    rfl

/-- A text that is read as the tokens of another has tokens that are spelled like those. -/
theorem exists_spelled_of_reads {source source' : String} {file : Option String}
    {tokens : List Token} {last : Token} {widths : List Nat} {behind : List Char}
    (h : (tokenize source file).result = .ok (tokens ++ [last]))
    (hreads : Reads [0] source'.toList (tokens.map fun token => .bare token.kind token.value) widths
      behind) (hspaces : behind.dropWhile (· == ' ') = []) (file' : Option String) :
    ∃ stream', (tokenize source' file').result = .ok stream' ∧
      stream'.map Token.spelling = (tokens ++ [last]).map Token.spelling := by
  obtain ⟨found, last', hfound, hmoved⟩ := exists_tokenize_of_reads file' hreads hspaces
  have hlast := (inView_of_tokenize h).2
  have hlast' := (inView_of_tokenize hfound).2
  refine ⟨_, hfound, ?_⟩
  rw [List.map_append, List.map_append, hmoved.map_spelling]
  simp [Token.spelling, hlast.kind_eq, hlast.value_eq, hlast'.kind_eq, hlast'.value_eq]

/-- The text of tokens, laid out anew, has the same tokens, and is laid out the same way again. -/
theorem tokenize_relaid {source : String} {file : Option String} {stream : List Token}
    (file' : Option String) (h : (tokenize source file).result = .ok stream) :
    ∃ stream', (tokenize (Token.relaid stream) file').result = .ok stream' ∧
      stream'.map Token.spelling = stream.map Token.spelling ∧
        Token.relaid stream' = Token.relaid stream := by
  obtain ⟨tokens, after, hpasses, hend, rfl⟩ := Scanner.exists_passes_of_tokenize h
  have hbottom : 0 ∈ (Scanner.ofText source file).layout.widths := List.mem_singleton.2 rfl
  have hreads := hpasses.reads hend hbottom (List.pairwise_singleton _ _) rfl
  have htext : (Token.relaid (tokens ++ [after.skipSpaces.endToken])).toList =
      Token.write 0 false tokens := by
    rw [Token.relaid, String.toList_ofList, Token.write_append_end rfl]
  rw [← htext] at hreads
  obtain ⟨stream', hstream', hspelling⟩ := exists_spelled_of_reads h hreads rfl file'
  exact ⟨stream', hstream', hspelling, congrArg String.ofList (Token.write_congr hspelling)⟩

theorem tokenize_relaid_block :
    let source := "a  ->-1.5\n     b::c\n \n     d\n  "
    ∃ stream stream', (tokenize source none).result = .ok stream ∧
      Token.relaid stream = "a -> -1.5\n  b :: c\n  d\n" ∧
        (tokenize (Token.relaid stream) none).result = .ok stream' ∧
          stream'.map Token.spelling = stream.map Token.spelling ∧
            Token.relaid stream' = Token.relaid stream := by
  intro source
  have hrelaid : (tokenize source none).result.toOption.map Token.relaid =
      some "a -> -1.5\n  b :: c\n  d\n" := by decide +kernel
  obtain ⟨stream, hstream⟩ := exists_of_isOk
    (by decide +kernel : (tokenize source none).result.isOk = true)
  rw [hstream] at hrelaid
  obtain ⟨stream', hagain⟩ := tokenize_relaid none hstream
  exact ⟨stream, stream', hstream, Option.some.inj hrelaid, hagain⟩

end Offside
