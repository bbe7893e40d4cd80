import SafeIR.Decimal.Read

/-!
# Quotes and escapes

Names may stand between double quotes, which are no part of the name. In a byte string `\\` is a
backslash and `\XX`, with two hexadecimal digits, is the byte of that value; any other backslash
stands for itself.
-/

namespace SafeIR.Source

/-- Without the quotes around it, if there are any. -/
def unquote (cs : List Char) : List Char :=
  match cs with
  | '"' :: r => if r.getLast? = some '"' then r.dropLast else cs
  | _ => cs

namespace Escape

/-- The byte `\`. -/
def backslash : UInt8 := 0x5c

/-- The value of a byte that is a hexadecimal digit. -/
def digit? (b : UInt8) : Option Nat := Decimal.hexDigit? (Char.ofNat b.toNat)

/-- The byte that two hexadecimal digits spell. -/
def pair? (high low : UInt8) : Option UInt8 := do
  return UInt8.ofNat (16 * (← digit? high) + (← digit? low))

/-- The bytes that a byte string stands for. -/
def decode : List UInt8 → List UInt8
  | [] => []
  | [a] => [a]
  | [a, b] => if a = backslash ∧ b = backslash then [backslash] else [a, b]
  | a :: b :: c :: bs =>
    if a = backslash then
      if b = backslash then backslash :: decode (c :: bs)
      else match pair? b c with
        | some byte => byte :: decode bs
        | none => a :: decode (b :: c :: bs)
    else a :: decode (b :: c :: bs)

end Escape

end SafeIR.Source
