import SafeIR.Binary.Format
import SafeIR.Fault
import SafeIR.Power

/-!
# Operations on floats

The float intrinsics and the conversions to integers, on bit patterns of any format. Rounding to
an integer keeps the sign of zero; the minimum and the maximum prefer a number over none.
-/

namespace SafeIR.Binary

/-- The largest `r` below `2 ^ k` with `r * r ≤ n`, found from the highest bit down; `root` is
what the bits above gave. -/
def sqrtBits (n : Nat) : Nat → Nat → Nat
  | 0, root => root
  | k + 1, root => sqrtBits n k
    (if (root + twoPow k) * (root + twoPow k) ≤ n then root + twoPow k else root)

/-- The integer square root. -/
def sqrtFloor (n : Nat) : Nat := sqrtBits n (n.log2 / 2 + 1) 0

namespace Datum

/-- The magnitude of a finite datum, cut to an integer. -/
def truncNat (mantissa : Nat) (exponent : Int) : Nat :=
  if 0 ≤ exponent then mantissa * twoPow exponent.toNat else mantissa / twoPow (-exponent).toNat

/-- Whether a finite datum has a fractional part. -/
def hasFraction (mantissa : Nat) (exponent : Int) : Bool :=
  exponent < 0 && mantissa % twoPow (-exponent).toNat != 0

/-- The order of two data that are numbers; zeros of either sign are equal. -/
def le : Datum → Datum → Bool
  | .nan, _ => false
  | _, .nan => false
  | .infinite true, _ => true
  | _, .infinite false => true
  | .infinite false, _ => false
  | _, .infinite true => false
  | .finite s m e, .finite s' m' e' =>
    let low := min e e'
    let signed (s : Bool) (m : Nat) (e : Int) : Int :=
      if s then -(m * twoPow (e - low).toNat : Int) else m * twoPow (e - low).toNat
    signed s m e ≤ signed s' m' e'

/-- The integer toward zero; none for what is not finite. -/
def toInt? : Datum → Option Int
  | .finite s m e => some (if s then -(truncNat m e) else truncNat m e)
  | _ => none

end Datum

namespace Format

/-- The quiet pattern that stands for every number that is none. -/
def nan (f : Format) : Nat := f.infinity + f.quiet

/-- Drop the sign. -/
def fabs (f : Format) (bits : Nat) : Nat := bits % f.signWeight

/-- Round a finite pattern to an integer: `up s` says whether a magnitude with a fraction grows,
for sign `s`. -/
def roundToInt (f : Format) (up : Bool → Bool) (bits : Nat) : Nat :=
  match f.decode bits with
  | .finite s m e =>
    let n := Datum.truncNat m e
    f.round s (if Datum.hasFraction m e && up s then n + 1 else n) 1
  | _ => bits

def floor (f : Format) : Nat → Nat := f.roundToInt id
def ceil (f : Format) : Nat → Nat := f.roundToInt (! ·)
def trunc (f : Format) : Nat → Nat := f.roundToInt fun _ => false

/-- The square root, correctly rounded. Below the last bit kept only whether anything was cut
matters, so the root is taken with more bits than the format holds, and an odd half stands for
the part that was cut. -/
def sqrt (f : Format) (bits : Nat) : Nat :=
  match f.decode bits with
  | .nan => f.nan
  | .infinite s => if s then f.nan else bits
  | .finite s m e =>
    if m = 0 then bits
    else if s then f.nan
    else
      let shift := 2 * (f.fraction + 4) + (e % 2).toNat
      let n := m * twoPow shift
      let r := sqrtFloor n
      f.roundScaled false (2 * r + if r * r = n then 0 else 1) ((e - shift) / 2 - 1)

/-- The smaller number; what is no number is left out. -/
def minnum (f : Format) (a b : Nat) : Nat :=
  if f.isNaN a then b else if f.isNaN b then a
  else if (f.decode a).le (f.decode b) then a else b

/-- The larger number; what is no number is left out. -/
def maxnum (f : Format) (a b : Nat) : Nat :=
  if f.isNaN a then b else if f.isNaN b then a
  else if (f.decode a).le (f.decode b) then b else a

end Format

/-- A float intrinsic of one or two operands. -/
inductive FloatOp where
  | fabs | sqrt | floor | ceil | trunc | minnum | maxnum
  deriving DecidableEq, Repr

namespace FloatOp

def name : FloatOp → String
  | fabs => "fabs" | sqrt => "sqrt" | floor => "floor" | ceil => "ceil" | trunc => "trunc"
  | minnum => "minnum" | maxnum => "maxnum"

def all : List FloatOp := [fabs, sqrt, floor, ceil, trunc, minnum, maxnum]

def ofName? (s : String) : Option FloatOp := all.find? (·.name == s)

/-- The value; an operation of one operand does not read the second. -/
def eval (f : Format) (op : FloatOp) (a b : Nat) : Nat :=
  match op with
  | fabs => f.fabs a
  | sqrt => f.sqrt a
  | floor => f.floor a
  | ceil => f.ceil a
  | trunc => f.trunc a
  | minnum => f.minnum a b
  | maxnum => f.maxnum a b

end FloatOp

/-! ## Conversion to words -/

/-- The integer toward zero as a word of `w` bits, when it lies in `[low, high)`. -/
def toWord (w : Nat) (low high : Int) (d : Datum) : Except Trap (BitVec w) :=
  match d.toInt? with
  | some v => if low ≤ v ∧ v < high then .ok (BitVec.ofInt w v) else .error .invalidConversion
  | none => .error .invalidConversion

/-- Convert to a signed word; what does not fit traps. -/
def toSigned (f : Format) (w bits : Nat) : Except Trap (BitVec w) :=
  toWord w (-(twoPow (w - 1) : Int)) (twoPow (w - 1)) (f.decode bits)

/-- Convert to an unsigned word, which a signed local then holds; what does not fit traps. -/
def toUnsigned (f : Format) (w bits : Nat) : Except Trap (BitVec w) :=
  toWord w 0 (twoPow w) (f.decode bits)

end SafeIR.Binary
