import SafeIR.Binary.Format
import SafeIR.Decimal.Notation
import SafeIR.Layout.Scalar
import SafeIR.Power

/-!
# Literals of generated code

An integer literal is wrapped to the width of its scalar first, so two integers have the same
literal exactly when they are congruent. The least integer of a width has no literal of its own and
is named; other negative numbers stand between parentheses.
-/

namespace SafeIR.Target

open Layout (Scalar)

/-- The integer of `bits` bits, in two's complement, that is congruent to `v`. -/
def wrapTo (bits : Nat) (v : Int) : Int := if 128 ≤ bits then v else Int.bmod v (twoPow bits)

/-- A float literal, from the bits in its format. -/
def floatText (f : Binary.Format) (ty : String) (bits : Nat) : String :=
  match f.decode bits with
  | .nan => ty ++ "::NAN"
  | .infinite negative => ty ++ (if negative then "::NEG_INFINITY" else "::INFINITY")
  | .finite negative m e =>
    let digits := Decimal.Style.literal.finite f negative m e
    if negative then "(" ++ digits ++ ty ++ ")" else digits ++ ty

/-- The literal for a float given by the bits of a double. -/
def floatLiteral (bits : Nat) : Scalar → String
  | .f32 => floatText Binary.single "f32" (Binary.narrow bits)
  | _ => floatText Binary.double "f64" bits

/-- The literal for an integer at a scalar. -/
def intLiteral (v : Int) (s : Scalar) : String :=
  match s with
  | .bool => if v % 2 = 0 then "false" else "true"
  | .ptr => toString (v % (twoPow 64 : Int)) ++ "u64"
  | .f32 | .f64 => floatLiteral (Binary.double.ofInt v) s
  | .int bits =>
    let w := wrapTo bits v
    if bits ≤ 128 ∧ w = -(twoPow (bits - 1) : Int) then s.typeName ++ "::MIN"
    else if w < 0 then "(" ++ toString w ++ s.typeName ++ ")"
    else toString w ++ s.typeName

end SafeIR.Target
