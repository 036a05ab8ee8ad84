import Offside.Binary64.Basic
/-!
# Writing numbers with the fewest digits

`Binary64.shortest` finds the decimal with the fewest digits that reads back as a given number, and
among those the one nearest to it; an exact tie goes to the larger. It tests one grid of decimals
after another, by exact arithmetic. `Binary64.text` lays the digits out: positionally where the
first digit stands for a power of ten from -4 to 15, and otherwise with an exponent.
-/

namespace Offside

/-- The number `digits * 10 ^ exponent`. -/
structure Decimal where
  digits : Nat
  exponent : Int
deriving DecidableEq, Repr

namespace Binary64

/-- The integer `m` in the absolute value `m * 2 ^ e` of a finite number. -/
def significand (x : Binary64) : Nat :=
  if x.magnitude < leadingBit then x.magnitude else x.magnitude % leadingBit + leadingBit

/-- The exponent `e` in the absolute value `m * 2 ^ e` of a finite number. -/
def exponent (x : Binary64) : Int :=
  if x.magnitude < leadingBit then -1074 else (x.magnitude / leadingBit : Nat) - 1075

/-- The quarters of a last place between a number and the end below it of the interval that reads
back as the number. The interval is narrower below a power of two. -/
def quartersBelow (x : Binary64) : Nat :=
  if x.magnitude % leadingBit = 0 && 2 * leadingBit ≤ x.magnitude then 1 else 2

/-- Whether `n` quarters of the last place of `x` and the decimal `d * 10 ^ e` compare by `r`. -/
def compareQuarters (r : Nat → Nat → Bool) (x : Binary64) (n d : Nat) (e : Int) : Bool :=
  let power := x.exponent - 2
  r ((n * Nat.pow 10 (-e).toNat) <<< power.toNat) ((d * Nat.pow 10 e.toNat) <<< (-power).toNat)

/-- Whether `d * 10 ^ e` reads back as the positive number `x`. The ends of the interval do so where
the significand is even. -/
def readsBack (x : Binary64) (d : Nat) (e : Int) : Bool :=
  let low := 4 * x.significand - x.quartersBelow
  let high := 4 * x.significand + 2
  if x.significand % 2 = 0 then
    x.compareQuarters (· ≤ ·) low d e && x.compareQuarters (· ≥ ·) high d e
  else
    x.compareQuarters (· < ·) low d e && x.compareQuarters (· > ·) high d e

/-- The whole part of `x / 10 ^ e`, for a positive number `x`. -/
def wholePart (x : Binary64) (e : Int) : Nat :=
  ((x.significand * Nat.pow 10 (-e).toNat) <<< x.exponent.toNat)
    / (Nat.pow 10 e.toNat <<< (-x.exponent).toNat)

/-- The power of ten for which the first digit of a positive number stands. The smallest number is
above `10 ^ -324`. -/
def firstPlace (x : Binary64) : Int :=
  (Nat.toDigits 10 (x.wholePart (-324))).length - 325

/-- The decimal on the grid of step `10 ^ e` that is nearest to `x` and reads back as it. -/
def onGrid? (x : Binary64) (e : Int) : Option Decimal :=
  let below := x.wholePart e
  let above := below + 1
  -- Twice the number against the sum of its two neighbours on the grid.
  let nearerBelow := x.compareQuarters (· < ·) (8 * x.significand) (below + above) e
  match x.readsBack below e, x.readsBack above e with
  | true, true => some ⟨if nearerBelow then below else above, e⟩
  | true, false => some ⟨below, e⟩
  | false, true => some ⟨above, e⟩
  | false, false => none

/-- The shortest decimal for a positive number. Seventeen digits suffice for every number. -/
def shortest (x : Binary64) : Decimal :=
  let place := x.firstPlace
  ((List.range 17).findSome? fun (count : Nat) => x.onGrid? (place - count)).getD ⟨0, 0⟩

/-- The decimal digits of a number without the zeros at their end, and how many those are. -/
def significantDigits (n : Nat) : List Char × Nat :=
  let digits := Nat.toDigits 10 n
  let zeros := digits.reverse.takeWhile (· == '0')
  (digits.take (digits.length - zeros.length), zeros.length)

/-- Digits, the first of which stands for `10 ^ place`, in positional notation. -/
def positional (digits : List Char) (place : Int) : List Char :=
  let whole := digits.take (place + 1).toNat
  let fraction := digits.drop (place + 1).toNat
  let wholeZeros := List.replicate ((place + 1).toNat - digits.length) '0'
  let fractionZeros := List.replicate (-(place + 1)).toNat '0'
  (if whole.isEmpty then ['0'] else whole ++ wholeZeros)
    ++ '.' :: (if fraction.isEmpty then ['0'] else fractionZeros ++ fraction)

/-- Digits, the first of which stands for `10 ^ place`, with the exponent written out. -/
def scientific (digits : List Char) (place : Int) : List Char :=
  digits.take 1 ++ (if digits.length = 1 then [] else '.' :: digits.drop 1)
    ++ 'e' :: (toString place).toList

/-- The text of the absolute value. -/
def absText (x : Binary64) : String :=
  if x.magnitude = 0 then "0.0"
  else if x.magnitude = infinity then "inf"
  else
    let decimal := x.shortest
    let (digits, zeros) := significantDigits decimal.digits
    let place : Int := decimal.exponent + zeros + digits.length - 1
    String.ofList
      (if -4 ≤ place && place ≤ 15 then positional digits place else scientific digits place)

/-- The number in the fewest digits that read back as it. -/
def text (x : Binary64) : String :=
  if x.isNaN then "NaN"
  else if x.isNegative then "-" ++ x.absText
  else x.absText

end Binary64

end Offside
