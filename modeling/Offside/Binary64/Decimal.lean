import Offside.Binary64.Basic
import Offside.Token.Pattern
/-!
# Reading decimal numbers

`Binary64.ofRatio` is the number nearest to a quotient of natural numbers, by exact arithmetic:
of two neighbours at the same distance it takes the one with the even last bit, and a quotient
beyond the largest number becomes infinite. `Binary64.ofText?` reads a decimal fraction with it.
-/

namespace Offside

/-- The value of a sequence of decimal digits. -/
def Text.decimalValue (digits : List Char) : Nat :=
  digits.foldl (fun value digit => 10 * value + (digit.toNat - '0'.toNat)) 0

namespace Binary64

/-- The integer nearest to a quotient. A half goes to the even neighbour. -/
def roundToEven (num den : Nat) : Nat :=
  let quotient := num / den
  let rest := num % den
  if 2 * rest < den || (2 * rest == den && quotient % 2 == 0) then quotient else quotient + 1

/-- The exponent of the greatest power of two that is at most a positive quotient. -/
def log2Ratio (num den : Nat) : Int :=
  let exponent : Int := num.log2 - den.log2
  if den <<< num.log2 ≤ num <<< den.log2 then exponent else exponent - 1

/-- The magnitude nearest to the quotient of two positive numbers. The last place of the result
stands for `2 ^ place`; the exponent field and the fraction then add up to one number, and a
fraction that rounds up to the next power of two carries into the exponent. -/
def magnitudeOfRatio (num den : Nat) : Nat :=
  let place := max (log2Ratio num den - 52) (-1074)
  let significand :=
    if 0 ≤ place then roundToEven num (den <<< place.toNat)
    else roundToEven (num <<< (-place).toNat) den
  min infinity ((place + 1074).toNat * leadingBit + significand)

/-- The number nearest to `num / den`, or to its negation. -/
def ofRatio (negative : Bool) (num den : Nat) : Binary64 :=
  ofMagnitude negative (if num = 0 then 0 else magnitudeOfRatio num den)

/-- Reads digits with a point among them, after an optional sign. -/
def ofText? (text : String) : Option Binary64 :=
  let (sign, unsigned) := Pattern.splitSign text.toList
  match unsigned.takeWhile Char.isDigit, unsigned.dropWhile Char.isDigit with
  | whole, '.' :: fraction =>
    if fraction.all Char.isDigit && !(whole ++ fraction).isEmpty then
      let digits := Text.decimalValue (whole ++ fraction)
      some (ofRatio (sign == ['-']) digits (Nat.pow 10 fraction.length))
    else none
  | _, _ => none

end Binary64

end Offside
