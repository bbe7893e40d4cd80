import SafeIR.Decimal.Shortest

/-!
# Decimal notation of floats

Two styles write a float with its shortest digits. Literals are always positional and an integral
value has no point. Diagnostics give an integral value one zero after the point and switch to an
exponent for very large and very small magnitudes.
-/

namespace SafeIR.Decimal

open Binary (Format Datum)

/-- How a style writes a finite number. -/
structure Style where
  /-- Write `.0` after an integral value. -/
  pointZero : Bool
  /-- Use an exponent when the decimal exponent of the leading digit is outside `[low, high)`. -/
  positional : Option (Int × Int)

/-- Literals in generated code. -/
def Style.literal : Style := ⟨false, none⟩

/-- Values quoted in messages: positional from `1e-4` up to, but not including, `1e16`. -/
def Style.diagnostic : Style := ⟨true, some (-4, 16)⟩

def zeros (n : Nat) : String := String.ofList (List.replicate n '0')

/-- The digits with the decimal point in its place. -/
def pointed (pointZero : Bool) (s : Scientific) : String :=
  let digits := toString s.digits
  if 0 ≤ s.exponent then digits ++ zeros s.exponent.toNat ++ (if pointZero then ".0" else "")
  else
    let places := (-s.exponent).toNat
    if places < digits.length then
      String.ofList (digits.toList.take (digits.length - places)) ++ "." ++
        String.ofList (digits.toList.drop (digits.length - places))
    else "0." ++ zeros (places - digits.length) ++ digits

/-- One digit, a point and the others if there are more, then the exponent. -/
def exponential (s : Scientific) : String :=
  let digits := toString s.digits
  let lead := String.ofList (digits.toList.take 1)
  let others := String.ofList (digits.toList.drop 1)
  lead ++ (if others.isEmpty then "" else "." ++ others) ++ "e" ++
    toString (s.exponent + digits.length - 1)

/-- A number without its sign. -/
def Style.magnitude (st : Style) (s : Scientific) : String :=
  match st.positional with
  | none => pointed st.pointZero s
  | some (low, high) =>
    let lead := s.exponent + (length s.digits : Int) - 1
    if s.digits = 0 ∨ low ≤ lead ∧ lead < high then pointed st.pointZero s else exponential s

/-- The text of a finite number; negative zero keeps its sign. -/
def Style.finite (st : Style) (f : Format) (negative : Bool) (m : Nat) (e : Int) : String :=
  (if negative then "-" else "") ++ st.magnitude (if m = 0 then ⟨0, 0⟩ else shortest f m e)

/-- The text of any float in a message. -/
def describe (f : Format) (bits : Nat) : String :=
  match f.decode bits with
  | .nan => "NaN"
  | .infinite s => if s then "-inf" else "inf"
  | .finite s m e => Style.diagnostic.finite f s m e

end SafeIR.Decimal
