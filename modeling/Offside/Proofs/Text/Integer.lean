import Mathlib.Data.Nat.Digits.Defs
import Offside.Grammar.Operand
import Offside.Proofs.Token.Spelling

/-!
# Integers as texts

A numeral is an optional sign, decimal digits, and perhaps an `L`. It denotes the value of its
digits in base ten, negated after a minus sign (`Text.numeralValue`), and is read as that value where
it is one of 64 bits (`Text.int64OfText?_numeral`).

An integer of 64 bits is written as a sign, if it is negative, and decimal digits
(`Text.exists_toList_toString`), and read back from them (`Text.int64OfText?_toString`).
-/

namespace Offside.Text

open Pattern (IsSign IsDigits)

variable {sign digits suffix : List Char}

/-- What decimal digits denote, with their sign before them. -/
def numeralValue (sign digits : List Char) : Int :=
  let value : Nat := Nat.ofDigits 10 (digits.reverse.map fun digit => digit.toNat - '0'.toNat)
  if sign = ['-'] then -(value : Int) else value

theorem decimalValue_eq_ofDigits (digits : List Char) : decimalValue digits =
    Nat.ofDigits 10 (digits.reverse.map fun digit => digit.toNat - '0'.toNat) := by
  rw [decimalValue, Nat.ofDigits_eq_foldr, List.foldr_map, List.foldr_reverse]
  exact congrArg (fun step => digits.foldl step 0) (funext₂ fun value digit => Nat.add_comm ..)

theorem intOfText?_numeral (hsign : IsSign sign) (hdigits : IsDigits digits) :
    intOfText? (String.ofList (sign ++ digits)) = some (numeralValue sign digits) := by
  have hsplit := Pattern.splitSign_of_isSign hsign hdigits []
  rw [List.append_nil] at hsplit
  have hall : ¬ (digits.isEmpty || !digits.all Char.isDigit) = true := by
    rw [List.all_eq_true.2 hdigits.all]
    simpa using hdigits.ne_nil
  rw [intOfText?, String.toList_ofList, hsplit]
  dsimp only
  rw [if_neg hall, decimalValue_eq_ofDigits]
  simp only [beq_iff_eq]
  rfl

/-- The last digit is no `L`. -/
theorem trim_numeral (sign : List Char) (hdigits : IsDigits digits)
    (hsuffix : suffix = [] ∨ suffix = ['L']) :
    ((sign ++ (digits ++ suffix)).reverse.dropWhile (· == 'L')).reverse = sign ++ digits := by
  obtain ⟨c, others, hreverse⟩ :=
    List.exists_cons_of_ne_nil (List.reverse_ne_nil_iff.2 hdigits.ne_nil)
  have hdigit := hdigits.all c (List.mem_reverse.1 (hreverse ▸ List.mem_cons_self))
  have hlong : ¬ (c == 'L') = true := by
    intro heq
    rw [beq_iff_eq.1 heq] at hdigit
    cases hdigit
  have htrim : ((sign ++ digits).reverse.dropWhile (· == 'L')).reverse = sign ++ digits := by
    rw [List.reverse_append, hreverse, List.cons_append, List.dropWhile_cons, if_neg hlong,
      ← List.cons_append, ← hreverse, ← List.reverse_append, List.reverse_reverse]
  rw [← List.append_assoc]
  obtain rfl | rfl := hsuffix
  · rwa [List.append_nil]
  · rwa [List.reverse_append]

/-- A numeral is read as its value, with or without an `L` behind it, if it has 64 bits. -/
theorem int64OfText?_numeral (hsign : IsSign sign) (hdigits : IsDigits digits)
    (hsuffix : suffix = [] ∨ suffix = ['L']) :
    int64OfText? (String.ofList (sign ++ (digits ++ suffix))) =
      if -2 ^ 63 ≤ numeralValue sign digits ∧ numeralValue sign digits ≤ 2 ^ 63 - 1 then
        some (Int64.ofInt (numeralValue sign digits))
      else none := by
  rw [int64OfText?, String.toList_ofList, trim_numeral sign hdigits hsuffix,
    intOfText?_numeral hsign hdigits]
  simp only [Bool.and_eq_true, decide_eq_true_eq]
  rfl

/-- How an integer is written. -/
theorem exists_toList_toString (value : Int) : ∃ sign digits,
    (toString value).toList = sign ++ digits ∧ (sign = [] ∨ sign = ['-']) ∧ IsDigits digits ∧
      numeralValue sign digits = value := by
  have hdigits (n : Nat) : IsDigits (Nat.toDigits 10 n) ∧
      Nat.ofDigits 10 ((Nat.toDigits 10 n).reverse.map fun c => c.toNat - '0'.toNat) = n :=
    ⟨⟨Nat.toDigits_ne_nil, fun c hc => Nat.isDigit_of_mem_toDigits (by decide) (by decide) hc⟩,
      (decimalValue_eq_ofDigits _).symm.trans Nat.ofDigitChars_ten_toDigits⟩
  rw [Int.toString_eq_repr, Int.repr_eq_if]
  split
  · rename_i hle
    obtain ⟨hdigits, hvalue⟩ := hdigits value.toNat
    refine ⟨[], Nat.toDigits 10 value.toNat, Nat.toList_repr, .inl rfl, hdigits, ?_⟩
    rw [numeralValue, hvalue, if_neg (by simp)]
    exact Int.toNat_of_nonneg hle
  · rename_i hlt
    obtain ⟨hdigits, hvalue⟩ := hdigits (-value).toNat
    refine ⟨['-'], Nat.toDigits 10 (-value).toNat, ?_, .inr rfl, hdigits, ?_⟩
    · rw [String.toList_append, Nat.toList_repr]
      rfl
    · rw [numeralValue, hvalue, if_pos rfl]
      omega

/-- An integer of 64 bits is read back from its digits. -/
theorem int64OfText?_toString (value : Int64) :
    int64OfText? (toString value.toInt) = some value := by
  obtain ⟨sign, digits, htext, hsign, hdigits, hvalue⟩ := exists_toList_toString value.toInt
  have hread := int64OfText?_numeral (hsign.imp_right .inr) hdigits (.inl rfl)
  have hrange : -2 ^ 63 ≤ value.toInt ∧ value.toInt ≤ 2 ^ 63 - 1 :=
    ⟨value.minValue_le_toInt, value.toInt_le⟩
  rw [List.append_nil, ← htext, String.ofList_toList, hvalue, if_pos hrange, Int64.ofInt_toInt]
    at hread
  exact hread

end Offside.Text
