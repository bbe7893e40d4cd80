import SafeIR.Fault

/-!
# Checked word operations

Integer operations that a promise or a division makes partial. A word is a `BitVec w`; signed
operations read it in two's complement, unsigned ones as a natural number. A broken promise traps
with `integerOverflow`, a zero divisor with `divisionByZero`; every value that is returned is the
plain wrapping result.

`CheckedOp` names the operations and `CheckedOp.eval` is their meaning.
-/

namespace SafeIR

/-- A checked operation on two words of one width. -/
inductive CheckedOp where
  | sdiv | udiv | srem | urem | sdivExact | udivExact
  | addNsw | addNuw | subNsw | subNuw | mulNsw | mulNuw
  | shlNsw | shlNuw | lshrExact | ashrExact
  deriving DecidableEq, Repr

namespace Word

variable {w : Nat}

/-- Let a result through unless the promise about it is broken. -/
def unlessOverflow (broken : Bool) (result : BitVec w) : Except Trap (BitVec w) :=
  if broken then .error .integerOverflow else .ok result

/-- Let a division through unless the divisor is zero. -/
def unlessZero (divisor : BitVec w) (result : Except Trap (BitVec w)) : Except Trap (BitVec w) :=
  if divisor = 0 then .error .divisionByZero else result

/-- Signed division rounds toward zero. Its one overflow is the least word over minus one. -/
def sdiv (a b : BitVec w) : Except Trap (BitVec w) :=
  unlessZero b (unlessOverflow (a.sdivOverflow b) (a.sdiv b))

def udiv (a b : BitVec w) : Except Trap (BitVec w) :=
  unlessZero b (.ok (a.udiv b))

/-- The remainder takes the sign of the dividend; the least word over minus one leaves zero. -/
def srem (a b : BitVec w) : Except Trap (BitVec w) :=
  unlessZero b (.ok (a.srem b))

def urem (a b : BitVec w) : Except Trap (BitVec w) :=
  unlessZero b (.ok (a.umod b))

/-- A quotient without a rest. -/
def sdivExact (a b : BitVec w) : Except Trap (BitVec w) := do
  let q ← sdiv a b
  let r ← srem a b
  unlessOverflow (r != 0) q

def udivExact (a b : BitVec w) : Except Trap (BitVec w) := do
  let q ← udiv a b
  let r ← urem a b
  unlessOverflow (r != 0) q

/-- A sum that fits the signed words, and so on for the others. -/
def addNsw (a b : BitVec w) : Except Trap (BitVec w) := unlessOverflow (a.saddOverflow b) (a + b)
def addNuw (a b : BitVec w) : Except Trap (BitVec w) := unlessOverflow (a.uaddOverflow b) (a + b)
def subNsw (a b : BitVec w) : Except Trap (BitVec w) := unlessOverflow (a.ssubOverflow b) (a - b)
def subNuw (a b : BitVec w) : Except Trap (BitVec w) := unlessOverflow (a.usubOverflow b) (a - b)
def mulNsw (a b : BitVec w) : Except Trap (BitVec w) := unlessOverflow (a.smulOverflow b) (a * b)
def mulNuw (a b : BitVec w) : Except Trap (BitVec w) := unlessOverflow (a.umulOverflow b) (a * b)

/-- A left shift has to be by less than the width, and the promise is kept when shifting back
arithmetically gives the operand again. -/
def shlNsw (a b : BitVec w) : Except Trap (BitVec w) :=
  if w ≤ b.toNat then .error .integerOverflow
  else unlessOverflow ((a <<< b.toNat).sshiftRight b.toNat != a) (a <<< b.toNat)

/-- A shift that loses no bit. -/
def shlNuw (a b : BitVec w) : Except Trap (BitVec w) :=
  if w ≤ b.toNat then .error .integerOverflow
  else unlessOverflow ((a <<< b.toNat) >>> b.toNat != a) (a <<< b.toNat)

/-- The amount of a right shift: 32 bits of the operand, modulo the width. -/
def amount (b : BitVec w) : Nat := (b.setWidth 32).toNat % w

/-- Right shifts with `exact` promise that only zeros leave. -/
def lshrExact (a b : BitVec w) : Except Trap (BitVec w) :=
  let out := a >>> amount b
  unlessOverflow (out <<< amount b != a) out

/-- The same for an arithmetic shift, which repeats the sign. -/
def ashrExact (a b : BitVec w) : Except Trap (BitVec w) :=
  let out := a.sshiftRight (amount b)
  unlessOverflow (out <<< amount b != a) out

end Word

namespace CheckedOp

/-- The name under which generated code calls the operation. -/
def name : CheckedOp → String
  | sdiv => "sdiv" | udiv => "udiv" | srem => "srem" | urem => "urem"
  | sdivExact => "sdiv_exact" | udivExact => "udiv_exact"
  | addNsw => "add_nsw" | addNuw => "add_nuw" | subNsw => "sub_nsw" | subNuw => "sub_nuw"
  | mulNsw => "mul_nsw" | mulNuw => "mul_nuw" | shlNsw => "shl_nsw" | shlNuw => "shl_nuw"
  | lshrExact => "lshr_exact" | ashrExact => "ashr_exact"

def all : List CheckedOp :=
  [sdiv, udiv, srem, urem, sdivExact, udivExact, addNsw, addNuw, subNsw, subNuw, mulNsw, mulNuw,
    shlNsw, shlNuw, lshrExact, ashrExact]

def ofName? (s : String) : Option CheckedOp := all.find? (·.name == s)

/-- What a checked operation gives. -/
def eval {w : Nat} : CheckedOp → BitVec w → BitVec w → Except Trap (BitVec w)
  | sdiv => Word.sdiv
  | udiv => Word.udiv
  | srem => Word.srem
  | urem => Word.urem
  | sdivExact => Word.sdivExact
  | udivExact => Word.udivExact
  | addNsw => Word.addNsw
  | addNuw => Word.addNuw
  | subNsw => Word.subNsw
  | subNuw => Word.subNuw
  | mulNsw => Word.mulNsw
  | mulNuw => Word.mulNuw
  | shlNsw => Word.shlNsw
  | shlNuw => Word.shlNuw
  | lshrExact => Word.lshrExact
  | ashrExact => Word.ashrExact

end CheckedOp

end SafeIR
