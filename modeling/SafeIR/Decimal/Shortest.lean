import SafeIR.Binary.Format
import SafeIR.Power

/-!
# Shortest decimals

The fewest significant digits that read back as a given float, and of those the nearest to it.
`shortest` walks the decimal grids from one digit up; on each it tests the two neighbours of the
exact value against the interval of reals that round to the float.
-/

namespace SafeIR.Decimal

open Binary (Format)

/-- The number `digits * 10 ^ exponent`. -/
structure Scientific where
  digits : Nat
  exponent : Int
  deriving DecidableEq, Repr

/-- How many decimal digits a natural has; none for zero. -/
def length (n : Nat) : Nat := if n = 0 then 0 else (Nat.toDigits 10 n).length

/-- The exponent `k` with `10 ^ k ≤ num / den < 10 ^ (k + 1)`, for positive arguments. -/
def floorLog10 (num den : Nat) : Int :=
  if den ≤ num then (length (num / den) : Int) - 1
  else -(length ((den + num - 1) / num - 1) : Int)

/-- Move trailing zeros into the exponent. -/
def strip : Nat → Nat → Int → Scientific
  | 0, digits, e => ⟨digits, e⟩
  | fuel + 1, digits, e =>
    if digits ≠ 0 ∧ digits % 10 = 0 then strip fuel (digits / 10) (e + 1) else ⟨digits, e⟩

/-- The reals that round to a float, in quarters of its unit: `value` is the float itself, and
the ends belong to the interval when its mantissa is even. -/
structure Interval where
  low : Nat
  value : Nat
  high : Nat
  closed : Bool

namespace Interval

/-- The interval of a positive mantissa. Just above a power of two the lower gap is half as
wide. -/
def of (f : Format) (mantissa : Nat) (exponent : Int) : Interval where
  low := 4 * mantissa - if mantissa = twoPow f.fraction ∧ f.minExponent < exponent then 1 else 2
  value := 4 * mantissa
  high := 4 * mantissa + 2
  closed := mantissa % 2 = 0

/-- Whether `point / scale` lies in the interval. -/
def contains (i : Interval) (point scale : Nat) : Bool :=
  if i.closed then i.low * scale ≤ point && point ≤ i.high * scale
  else i.low * scale < point && point < i.high * scale

end Interval

/-- The float on the grid of `n` digits: of the two neighbours that lie in its interval the
nearer, the upper one on a tie. The interval's unit is `num / den` and `k` is the decimal
exponent of the leading digit. -/
def onGrid (i : Interval) (num den : Nat) (k : Int) (n : Nat) : Option Scientific :=
  let e : Int := k - n + 1
  -- One step of the grid is `step / scale` units of the interval.
  let step := den * tenPow e.toNat
  let scale := num * tenPow (-e).toNat
  let q := i.value * scale / step
  let below := i.contains (q * step) scale
  let above := i.contains ((q + 1) * step) scale
  let nearer := 2 * (i.value * scale % step) < step
  if below && (nearer || ! above) then some (strip n q e)
  else if above then some (strip (n + 1) (q + 1) e)
  else none

/-- The first grid, from `n` digits up to `n + fuel`, that holds a point of the interval. -/
def search (i : Interval) (num den : Nat) (k : Int) : Nat → Nat → Scientific
  | 0, n => strip n (i.value * num / den) 0
  | fuel + 1, n =>
    match onGrid i num den k n with
    | some s => s
    | none => search i num den k fuel (n + 1)

/-- The shortest decimal of the positive number `mantissa * 2 ^ exponent` of a format. -/
def shortest (f : Format) (mantissa : Nat) (exponent : Int) : Scientific :=
  let unit := exponent - 2
  let num := twoPow unit.toNat
  let den := twoPow (-unit).toNat
  let i := Interval.of f mantissa exponent
  search i num den (floorLog10 (i.value * num) den) 20 1

end SafeIR.Decimal
