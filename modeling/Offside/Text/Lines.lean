/-!
# The lines of a text

`Text.lines` cuts a text at its line breaks and `Text.line?` picks one line by its number. A line
break is a line feed or a carriage return followed by a line feed; the break is not part of the
line, and a text that ends in a break has no empty line after it.
-/

namespace Offside.Text

/-- The lines of a text, first to last, without their breaks. -/
def lines : List Char → List (List Char)
  | [] => []
  | '\n' :: rest => [] :: lines rest
  | '\r' :: '\n' :: rest => [] :: lines rest
  | c :: rest =>
    match lines rest with
    | [] => [[c]]
    | line :: others => (c :: line) :: others

/-- The line with the given number, counted from 1. -/
def line? (text : String) : Nat → Option String
  | 0 => none
  | number + 1 => (lines text.toList)[number]?.map String.ofList

end Offside.Text
