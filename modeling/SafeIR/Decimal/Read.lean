import SafeIR.Binary.Format
import SafeIR.Power

/-!
# Reading numerals

Numerals in source text: natural numbers with an optional sign, hexadecimal words, and decimal
fractions that are rounded to the nearest double.
-/

namespace SafeIR.Decimal

open Binary

/-- The value of a run of decimal digits. -/
def ofDigits (cs : List Char) : Nat := cs.foldl (fun n c => 10 * n + (c.toNat - 48)) 0

/-- Digits only, and at least one. -/
def isNumeral (cs : List Char) : Bool := ! cs.isEmpty && cs.all Char.isDigit

/-- A natural number: decimal digits, which one plus sign may precede. -/
def nat? (cs : List Char) : Option Nat :=
  match cs with
  | '+' :: ds => if isNumeral ds then some (ofDigits ds) else none
  | ds => if isNumeral ds then some (ofDigits ds) else none

/-- A natural number that fits in `bits` bits. -/
def unsigned? (bits : Nat) (cs : List Char) : Option Nat :=
  (nat? cs).filter (· < twoPow bits)

/-- An integer that fits in `bits` bits in two's complement. -/
def signed? (bits : Nat) (cs : List Char) : Option Int :=
  let v : Option Int := match cs with
    | '-' :: ds => if isNumeral ds then some (-(ofDigits ds : Int)) else none
    | ds => (nat? ds).map fun n => (n : Int)
  v.filter fun v => -(twoPow (bits - 1) : Int) ≤ v ∧ v < twoPow (bits - 1)

/-- The value of one hexadecimal digit of either case. -/
def hexDigit? (c : Char) : Option Nat :=
  if '0' ≤ c ∧ c ≤ '9' then some (c.toNat - 48)
  else if 'a' ≤ c ∧ c ≤ 'f' then some (c.toNat - 87)
  else if 'A' ≤ c ∧ c ≤ 'F' then some (c.toNat - 55)
  else none

/-- A run of hexadecimal digits. -/
def hex? (cs : List Char) : Option Nat :=
  if cs.isEmpty then none
  else cs.foldl (fun acc c => do return 16 * (← acc) + (← hexDigit? c)) (some 0)

/-- The double nearest to `digits * 10 ^ exponent`. Outside a generous range of magnitudes the
answer is zero or infinity, whatever the digits. -/
def toDouble (negative : Bool) (digits : Nat) (length : Nat) (exponent : Int) : Nat :=
  let top := exponent + length
  if digits = 0 ∨ top < -400 then double.signBit negative
  else if 400 < top ∧ 400 < exponent then double.signBit negative + double.infinity
  else if 0 ≤ exponent then double.round negative (digits * tenPow exponent.toNat) 1
  else double.round negative digits (tenPow (-exponent).toNat)

/-- A decimal fraction `-12.5e+3` as the bits of the nearest double: digits, a point, digits that
may be missing, and an optional exponent. -/
def double? (cs : List Char) : Option Nat :=
  let (negative, cs) := match cs with
    | '-' :: r => (true, r)
    | r => (false, r)
  let whole := cs.takeWhile Char.isDigit
  match cs.dropWhile Char.isDigit with
  | '.' :: r =>
    let part := r.takeWhile Char.isDigit
    let value (e : Int) :=
      toDouble negative (ofDigits (whole ++ part)) (whole ++ part).length (e - part.length)
    let exponent? (sign : Int) (ds : List Char) :=
      if isNumeral ds then some (value (sign * ofDigits ds)) else none
    match r.dropWhile Char.isDigit with
    | [] => if whole.isEmpty then none else some (value 0)
    | c :: '-' :: ds => if c = 'e' ∨ c = 'E' then exponent? (-1) ds else none
    | c :: '+' :: ds => if c = 'e' ∨ c = 'E' then exponent? 1 ds else none
    | c :: ds => if c = 'e' ∨ c = 'E' then exponent? 1 ds else none
  | _ => none

end SafeIR.Decimal
