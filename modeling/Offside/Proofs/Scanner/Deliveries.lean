import Offside.Proofs.Scanner.Goes
import Offside.Proofs.Token.Proper

/-!
# What a scanner delivers

`Scanner.forall_mem_stream` carries an invariant of a scanner over its whole stream. It gives
`Token.Stream.Regular`, which every stream of a text has (`Token.Stream.regular_ofText`): the class
of a token is the one that its text has, only a closing parenthesis is of its class, and the end
token comes last and has no text.
-/

namespace Offside

namespace Scanner

/-- What holds of each delivery of a scanner that keeps an invariant holds all over its stream. -/
theorem forall_mem_stream {inv : Scanner → Prop} {p : Delivery → Prop}
    (hnext : ∀ scanner, inv scanner → p scanner.next.1 ∧ inv scanner.next.2) (scanner : Scanner)
    (h : inv scanner) : (∀ delivery ∈ scanner.stream.ahead, p delivery) ∧ p scanner.stream.last := by
  fun_induction stream scanner with
  | case1 scanner delivery hlast => exact ⟨by simp, (hnext scanner h).1⟩
  | case2 scanner delivery hlast stream ih =>
    obtain ⟨hfirst, hrest⟩ := hnext scanner h
    obtain ⟨hahead, hend⟩ := ih hrest
    refine ⟨fun delivery hmem => ?_, hend⟩
    rcases List.mem_cons.1 hmem with rfl | hmem
    · exact hfirst
    · exact hahead delivery hmem

/-- The deliveries before the last of a stream are not last, and the last one is. -/
theorem isLast_stream (scanner : Scanner) :
    (∀ delivery ∈ scanner.stream.ahead, ¬ delivery.isLast) ∧ scanner.stream.last.isLast := by
  fun_induction stream scanner with
  | case1 scanner delivery hlast => exact ⟨by simp, hlast⟩
  | case2 scanner delivery hlast stream ih =>
    refine ⟨fun delivery hmem => ?_, ih.2⟩
    rcases List.mem_cons.1 hmem with rfl | hmem
    · exact hlast
    · exact ih.1 delivery hmem

end Scanner

/-- A token whose class is the one that its text has. The end token has no text, and only a closing
parenthesis is of the class of one. -/
structure Token.Regular (token : Token) : Prop where
  proper : token.Proper
  value_of_isEnd : token.isEnd = true → token.value = ""
  value_of_rightParen : token.kind = .rightParen → token.value = ")"

/-- A token for white space, as line breaks make them. -/
def Token.IsBreak (token : Token) : Prop :=
  token.kind = .newline ∧ token.value = "\n" ∨
    (token.kind = .indent ∨ token.kind = .outdent) ∧ token.value = ""

/-- A token of text is not the end token. -/
theorem Token.isEnd_of_plain {token : Token} (h : token.kind.isSynthetic = false) :
    token.isEnd = false := by
  rw [isEnd, beq_eq_false_iff_ne]
  intro hend
  rw [hend] at h
  cases h

theorem Token.IsBreak.isEnd {token : Token} (h : token.IsBreak) : token.isEnd = false := by
  rcases h with ⟨hkind, -⟩ | ⟨hkind | hkind, -⟩ <;> rw [Token.isEnd, hkind] <;> rfl

theorem Token.IsBreak.regular {token : Token} (h : token.IsBreak) : token.Regular := by
  have hmarks : ∀ mark ∈ Token.marks, "\n" ≠ mark.1 ∧ "" ≠ mark.1 := by decide +kernel
  rcases h with ⟨hkind, hvalue⟩ | ⟨hkind, hvalue⟩
  · refine ⟨fun mark hmark heq => absurd (hvalue ▸ heq) (hmarks mark hmark).1, fun hend => ?_, ?_⟩
    · simp [Token.isEnd, hkind] at hend
    · simp [hkind]
  · refine ⟨fun mark hmark heq => absurd (hvalue ▸ heq) (hmarks mark hmark).2, fun _ => hvalue, ?_⟩
    rcases hkind with hkind | hkind <;> simp [hkind]

/-- A delivery whose token, if it is one, is regular. -/
def Delivery.Regular (delivery : Delivery) : Prop :=
  ∀ token, delivery.result = .ok token → token.Regular

namespace Scanner

/-- Only white space waits to be delivered. -/
def PendingBreaks (scanner : Scanner) : Prop :=
  ∀ token ∈ scanner.pending, token.IsBreak

theorem Goes.regular {scanner after : Scanner} {delivery : Delivery}
    (h : scanner.Goes delivery after) (hbreaks : scanner.PendingBreaks) :
    delivery.Regular ∧ after.PendingBreaks := by
  cases h with
  | release hpending =>
    rw [PendingBreaks, hpending, List.forall_mem_cons] at hbreaks
    refine ⟨fun _ heq => ?_, hbreaks.2⟩
    cases heq
    exact hbreaks.1.regular
  | stop =>
    have hmarks : ∀ mark ∈ Token.marks, "" ≠ mark.1 := by decide +kernel
    refine ⟨fun _ heq => ?_, hbreaks⟩
    cases heq
    exact ⟨fun mark hmark heq => absurd heq (hmarks mark hmark), fun _ => rfl, nofun⟩
  | lineBreak _ _ _ _ hkinds =>
    refine ⟨fun _ heq => ?_, fun token htoken => ?_⟩
    · cases heq
      exact Token.IsBreak.regular (.inl ⟨rfl, rfl⟩)
    · obtain ⟨kind, hkind, rfl⟩ := List.mem_map.1 htoken
      exact .inr ⟨Layout.isShift_of_breaks? hkinds kind hkind, rfl⟩
  | indentation =>
    refine ⟨nofun, List.forall_mem_cons.2 ⟨.inl ⟨rfl, rfl⟩, fun token htoken => ?_⟩⟩
    obtain ⟨_, -, rfl⟩ := List.mem_map.1 htoken
    exact .inr ⟨.inr rfl, rfl⟩
  | cut _ hcut htoken =>
    subst htoken
    refine ⟨fun _ heq => ?_, by simp [PendingBreaks]⟩
    cases heq
    refine ⟨Token.Kind.eq_of_cut? hcut, fun hend => ?_, fun hkind => ?_⟩
    · rw [Token.isEnd_of_plain (Token.Kind.isSynthetic_of_cut? hcut)] at hend
      cases hend
    · cases hkind
      exact Token.value_of_cut?_rightParen hcut
  | unrecognised => exact ⟨nofun, hbreaks⟩

/-- The end token comes only where nothing but spaces is left. -/
theorem Goes.spaces {scanner after : Scanner} {delivery : Delivery} {last : Token}
    (h : scanner.Goes delivery after) (hbreaks : scanner.PendingBreaks)
    (hresult : delivery.result = .ok last) (hend : last.isEnd = true) :
    scanner.pending = [] ∧ scanner.skipSpaces.rest = [] := by
  cases h with
  | release hpending =>
    cases hresult
    rw [(hbreaks last (hpending ▸ List.mem_cons_self)).isEnd] at hend
    cases hend
  | stop hpending hrest => exact ⟨hpending, hrest⟩
  | lineBreak =>
    cases hresult
    cases hend
  | cut _ hcut htoken =>
    cases hresult
    rw [htoken, Token.isEnd_of_plain (Token.Kind.isSynthetic_of_cut? hcut)] at hend
    cases hend
  | indentation | unrecognised => cases hresult

theorem regular_next {scanner : Scanner} (h : scanner.PendingBreaks) :
    scanner.next.1.Regular ∧ scanner.next.2.PendingBreaks :=
  scanner.goes_next.regular h

end Scanner

/-- The scanner of some text delivers the token, be it behind a fault. -/
def Token.Delivered (token : Token) : Prop :=
  ∃ source file, ∃ delivery ∈ (Stream.ofText source file).ahead ++ [(Stream.ofText source file).last],
    delivery.result = .ok token

/-- What holds of every token that a scanner can deliver next holds of those of a text. -/
theorem Token.Delivered.of_next {p : Token → Prop} {token : Token} (h : token.Delivered)
    (hnext : ∀ (scanner : Scanner) (token : Token), scanner.PendingBreaks →
      scanner.next.1.result = .ok token → p token) : p token := by
  obtain ⟨source, file, delivery, hmem, hresult⟩ := h
  have hstep (scanner : Scanner) (hbreaks : scanner.PendingBreaks) :
      (∀ token, scanner.next.1.result = .ok token → p token) ∧ scanner.next.2.PendingBreaks :=
    ⟨fun token => hnext scanner token hbreaks, (Scanner.regular_next hbreaks).2⟩
  have hall := @Scanner.forall_mem_stream Scanner.PendingBreaks
    (fun delivery => ∀ token, delivery.result = .ok token → p token) hstep
    (Scanner.ofText source file) (by simp [Scanner.PendingBreaks, Scanner.ofText])
  have hmem' := List.mem_append.1 hmem
  rw [List.mem_singleton] at hmem'
  obtain hahead | rfl := hmem'
  · exact hall.1 delivery hahead token hresult
  · exact hall.2 token hresult

theorem Token.Delivered.regular {token : Token} (h : token.Delivered) : token.Regular :=
  h.of_next fun _ token hbreaks hresult => (Scanner.regular_next hbreaks).1 token hresult

/-- A stream of regular tokens that ends in the end token or in a fault. -/
structure Token.Stream.Regular (stream : Token.Stream) : Prop where
  ahead : ∀ delivery ∈ stream.ahead, delivery.Regular ∧ ¬ delivery.isLast
  last : stream.last.Regular ∧ stream.last.isLast

theorem Token.Stream.regular_ofText (source : String) (file : Option String) :
    (Token.Stream.ofText source file).Regular := by
  have hregular := Scanner.forall_mem_stream (fun _ => Scanner.regular_next)
    (Scanner.ofText source file) (by simp [Scanner.PendingBreaks, Scanner.ofText])
  have hlast := Scanner.isLast_stream (Scanner.ofText source file)
  exact ⟨fun delivery hmem => ⟨hregular.1 delivery hmem, hlast.1 delivery hmem⟩,
    hregular.2, hlast.2⟩

end Offside
