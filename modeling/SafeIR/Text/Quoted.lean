import SafeIR.Text.Printable

/-!
# Quoted text

Text between double quotes, as string literals and messages show it: quotes and backslashes get a
backslash, four control characters have names, and every other character that has no glyph of its
own is written by its code point.
-/

namespace SafeIR.Text

/-- The characters that stand for one character between quotes. -/
def escapeChar (c : Char) : List Char :=
  match c with
  | '"' => ['\\', '"']
  | '\\' => ['\\', '\\']
  | '\n' => ['\\', 'n']
  | '\r' => ['\\', 'r']
  | '\t' => ['\\', 't']
  | '\x00' => ['\\', '0']
  | c =>
    if isPrintable c then [c]
    else ['\\', 'u', '\x7b'] ++ Nat.toDigits 16 c.toNat ++ ['\x7d']

/-- A text in quotes, with escapes. -/
def quote (s : String) : String :=
  String.ofList (['"'] ++ s.toList.flatMap escapeChar ++ ['"'])

end SafeIR.Text
