import SafeIR.Power

/-!
# Binary floating-point formats

A float is the bit pattern of an IEEE interchange format, kept as a natural number below
`2 ^ width`. `Format.decode` reads it as an exact number `mantissa * 2 ^ exponent`, and
`Format.round` gives the pattern nearest to a quotient of naturals, ties to even. Everything
between the two is exact integer arithmetic.
-/

namespace SafeIR.Binary

/-- An interchange format, by the number of stored fraction bits and of exponent bits. -/
structure Format where
  fraction : Nat
  exponent : Nat
  deriving DecidableEq, Repr

/-- What a bit pattern stands for. A finite datum is `mantissa * 2 ^ exponent`, signed. -/
inductive Datum where
  | nan
  | infinite (negative : Bool)
  | finite (negative : Bool) (mantissa : Nat) (exponent : Int)
  deriving DecidableEq, Repr

def single : Format := ⟨23, 8⟩
def double : Format := ⟨52, 11⟩

/-- The quotient rounded to the nearest natural, a half to the even one. -/
def roundHalfEven (num den : Nat) : Nat :=
  let q := num / den
  let twice := 2 * (num % den)
  if twice < den then q
  else if den < twice then q + 1
  else q + q % 2

/-- The exponent `k` with `2 ^ k ≤ num / den < 2 ^ (k + 1)`, for positive arguments. -/
def floorLog2 (num den : Nat) : Int :=
  let k : Int := (num.log2 : Int) - (den.log2 : Int)
  let reached := if 0 ≤ k then den * twoPow k.toNat ≤ num else den ≤ num * twoPow (-k).toNat
  if reached then k else k - 1

namespace Format

/-- The exponent of the smallest step, shared by the subnormals and the least normals. -/
def minExponent (f : Format) : Int := 2 - (twoPow (f.exponent - 1) : Int) - f.fraction

/-- The weight of the sign bit. -/
def signWeight (f : Format) : Nat := twoPow (f.fraction + f.exponent)

/-- The sign, as part of a pattern. -/
def signBit (f : Format) (negative : Bool) : Nat := if negative then f.signWeight else 0

/-- The magnitude bits of infinity: the exponent field full, the fraction empty. -/
def infinity (f : Format) : Nat := (twoPow f.exponent - 1) * twoPow f.fraction

/-- The quiet bit of a number that is none. -/
def quiet (f : Format) : Nat := twoPow (f.fraction - 1)

/-- The sign bit is set. -/
def isNegative (f : Format) (bits : Nat) : Bool := bits / f.signWeight % 2 == 1

/-- What a pattern stands for. -/
def decode (f : Format) (bits : Nat) : Datum :=
  let fraction := bits % twoPow f.fraction
  let field := bits / twoPow f.fraction % twoPow f.exponent
  let negative := f.isNegative bits
  if field = twoPow f.exponent - 1 then
    if fraction = 0 then .infinite negative else .nan
  else if field = 0 then .finite negative fraction f.minExponent
  else .finite negative (twoPow f.fraction + fraction) (f.minExponent + field - 1)

/-- The bits of `mantissa * 2 ^ exponent`. Adding the mantissa to the scaled exponent lets a
mantissa that rounding carried past its range move into the next binade by itself; what passes
the largest finite number is infinity. -/
def assemble (f : Format) (negative : Bool) (mantissa : Nat) (exponent : Int) : Nat :=
  let magnitude := mantissa + (exponent - f.minExponent).toNat * twoPow f.fraction
  f.signBit negative + min magnitude f.infinity

/-- The pattern nearest to `num / den`, ties to even. -/
def round (f : Format) (negative : Bool) (num den : Nat) : Nat :=
  if num = 0 then f.signBit negative
  else
    let e := max f.minExponent (floorLog2 num den - f.fraction)
    let m := if 0 ≤ e then roundHalfEven num (den * twoPow e.toNat)
      else roundHalfEven (num * twoPow (-e).toNat) den
    f.assemble negative m e

/-- The pattern nearest to `mantissa * 2 ^ exponent`. -/
def roundScaled (f : Format) (negative : Bool) (mantissa : Nat) (exponent : Int) : Nat :=
  if 0 ≤ exponent then f.round negative (mantissa * twoPow exponent.toNat) 1
  else f.round negative mantissa (twoPow (-exponent).toNat)

/-- The pattern nearest to an integer. -/
def ofInt (f : Format) (v : Int) : Nat := f.round (v < 0) v.natAbs 1

/-- The pattern stands for no number. -/
def isNaN (f : Format) (bits : Nat) : Bool := f.decode bits = .nan

end Format

/-- Narrow a double to a single. A number that is none stays none, is made quiet and keeps the
leading bits of its payload. -/
def narrow (bits : Nat) : Nat :=
  match double.decode bits with
  | .nan =>
    let payload := bits % twoPow double.fraction / twoPow (double.fraction - single.fraction)
    single.signBit (double.isNegative bits) + single.infinity + (payload ||| single.quiet)
  | .infinite s => single.signBit s + single.infinity
  | .finite s m e => single.roundScaled s m e

/-- Widen a single to a double, which is exact. -/
def widen (bits : Nat) : Nat :=
  match single.decode bits with
  | .nan =>
    let payload := bits % twoPow single.fraction * twoPow (double.fraction - single.fraction)
    double.signBit (single.isNegative bits) + double.infinity + (payload ||| double.quiet)
  | .infinite s => double.signBit s + double.infinity
  | .finite s m e => double.roundScaled s m e

end SafeIR.Binary
