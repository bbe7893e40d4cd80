import SafeIR.Fault

/-!
# Word intrinsics

Routines on words that generated code calls by name. `Raising` ones report a failure as a pending
exception; `Pure` ones always give a word of the same width.
-/

namespace SafeIR

/-- Arithmetic that raises an exception in place of overflowing. -/
inductive RaisingOp where
  | div | rem | add | sub | mul
  deriving DecidableEq, Repr

namespace RaisingOp

def name : RaisingOp → String
  | div => "checked_div" | rem => "checked_rem" | add => "checked_add" | sub => "checked_sub"
  | mul => "checked_mul"

def all : List RaisingOp := [div, rem, add, sub, mul]

def ofName? (s : String) : Option RaisingOp := all.find? (·.name == s)

variable {w : Nat}

/-- A pending `arithmeticOverflow` when the result does not fit. -/
def unlessOverflow (overflows : Bool) (result : BitVec w) : Emulated (BitVec w) :=
  if overflows then .raise .arithmeticOverflow else .ok result

def eval (op : RaisingOp) (a b : BitVec w) : Emulated (BitVec w) :=
  match op with
  | div => if b = 0 then .raise .divisionByZero else unlessOverflow (a.sdivOverflow b) (a.sdiv b)
  -- The least word over minus one leaves zero, although its quotient does not fit.
  | rem => if b = 0 then .raise .divisionByZero else .ok (a.srem b)
  | add => unlessOverflow (a.saddOverflow b) (a + b)
  | sub => unlessOverflow (a.ssubOverflow b) (a - b)
  | mul => unlessOverflow (a.smulOverflow b) (a * b)

end RaisingOp

/-- Raise an exception with a code of the program's choice. -/
def throwCode (code : BitVec 32) : Emulated Unit := .raise (.thrown code)

namespace Word

variable {w : Nat}

/-- The larger of two signed words, and so on for the others. -/
def smax (a b : BitVec w) : BitVec w := if a.toInt ≤ b.toInt then b else a
def smin (a b : BitVec w) : BitVec w := if a.toInt ≤ b.toInt then a else b
def umax (a b : BitVec w) : BitVec w := if a.toNat ≤ b.toNat then b else a
def umin (a b : BitVec w) : BitVec w := if a.toNat ≤ b.toNat then a else b

/-- The absolute value wraps: the least word is its own. -/
def abs (a : BitVec w) : BitVec w := if a.toInt < 0 then -a else a

/-- The bits of a word, the lowest first. -/
def bits (a : BitVec w) : List Bool := (List.range w).map a.getLsbD

/-- How many bits are set. -/
def ctpop (a : BitVec w) : BitVec w := BitVec.ofNat w ((bits a).count true)

/-- Zeros above the highest set bit; the width for zero. -/
def ctlz (a : BitVec w) : BitVec w := BitVec.ofNat w ((bits a).reverse.takeWhile (! ·)).length

/-- Zeros below the lowest set bit; the width for zero. -/
def cttz (a : BitVec w) : BitVec w := BitVec.ofNat w ((bits a).takeWhile (! ·)).length

/-- The bytes in reverse order, for a width that is a whole number of bytes. -/
def bswap (a : BitVec w) : BitVec w :=
  (List.range (w / 8)).foldl (fun acc i => acc <<< 8 ||| (a >>> (8 * i) &&& 0xff)) 0

end Word

/-- A total intrinsic on words of one width, of one or two operands. -/
inductive PureOp where
  | smax | smin | umax | umin | abs | ctpop | ctlz | cttz | bswap
  deriving DecidableEq, Repr

namespace PureOp

def name : PureOp → String
  | smax => "smax" | smin => "smin" | umax => "umax" | umin => "umin" | abs => "abs"
  | ctpop => "ctpop" | ctlz => "ctlz" | cttz => "cttz" | bswap => "bswap"

def all : List PureOp := [smax, smin, umax, umin, abs, ctpop, ctlz, cttz, bswap]

def ofName? (s : String) : Option PureOp := all.find? (·.name == s)

/-- The value; an operation of one operand does not read the second. -/
def eval {w : Nat} (op : PureOp) (a b : BitVec w) : BitVec w :=
  match op with
  | smax => Word.smax a b
  | smin => Word.smin a b
  | umax => Word.umax a b
  | umin => Word.umin a b
  | abs => Word.abs a
  | ctpop => Word.ctpop a
  | ctlz => Word.ctlz a
  | cttz => Word.cttz a
  | bswap => Word.bswap a

end PureOp

end SafeIR
