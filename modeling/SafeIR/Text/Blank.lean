/-!
# Blanks and lines

The white-space characters of Unicode, trimming, and the division of a text into lines.
-/

namespace SafeIR.Text

/-- The characters with the property `White_Space`. -/
def isBlank (c : Char) : Bool :=
  let n := c.toNat
  9 ≤ n && n ≤ 13 || n == 0x20 || n == 0x85 || n == 0xa0 || n == 0x1680 ||
    0x2000 ≤ n && n ≤ 0x200a || n == 0x2028 || n == 0x2029 || n == 0x202f || n == 0x205f ||
    n == 0x3000

/-- Without the blanks at both ends. -/
def trim (cs : List Char) : List Char :=
  ((cs.dropWhile isBlank).reverse.dropWhile isBlank).reverse

/-- A line without the carriage return that may end it. -/
def dropReturn (line : List Char) : List Char :=
  match line.reverse with
  | '\r' :: r => r.reverse
  | _ => line

/-- The lines of a text, where `line` is what came before on the current one, reversed. Each line
feed ends a line, together with a carriage return before it; the last line needs none. -/
def linesFrom : List Char → List Char → List (List Char)
  | [], [] => []
  | [], line => [line.reverse]
  | '\n' :: cs, line => dropReturn line.reverse :: linesFrom cs []
  | c :: cs, line => linesFrom cs (c :: line)

/-- The lines of a text. -/
def lines (s : String) : List String := (linesFrom s.toList []).map String.ofList

end SafeIR.Text
