/-!
# Operation names

The binary operations, conversions and comparisons of the instruction set, each with the word that
names it in source text.
-/

namespace SafeIR

/-- Operations on two numbers. -/
inductive BinaryOp where
  | add | sub | mul | sdiv | udiv | srem | urem | shl | lshr | ashr | and | or | xor
  | fadd | fsub | fmul | fdiv | frem
  deriving DecidableEq, Repr

namespace BinaryOp

def all : List BinaryOp :=
  [add, sub, mul, sdiv, udiv, srem, urem, shl, lshr, ashr, and, or, xor,
    fadd, fsub, fmul, fdiv, frem]

def word : BinaryOp → String
  | add => "add"
  | sub => "sub"
  | mul => "mul"
  | sdiv => "sdiv"
  | udiv => "udiv"
  | srem => "srem"
  | urem => "urem"
  | shl => "shl"
  | lshr => "lshr"
  | ashr => "ashr"
  | and => "and"
  | or => "or"
  | xor => "xor"
  | fadd => "fadd"
  | fsub => "fsub"
  | fmul => "fmul"
  | fdiv => "fdiv"
  | frem => "frem"

def ofWord? (w : String) : Option BinaryOp := all.find? (·.word == w)

def isFloat : BinaryOp → Bool
  | fadd | fsub | fmul | fdiv | frem => true
  | _ => false

end BinaryOp

/-- Conversions. -/
inductive CastOp where
  | trunc | zext | sext | fptrunc | fpext | fptoui | fptosi | uitofp | sitofp
  | ptrtoint | inttoptr | bitcast | addrspacecast
  deriving DecidableEq, Repr

namespace CastOp

def all : List CastOp :=
  [trunc, zext, sext, fptrunc, fpext, fptoui, fptosi, uitofp, sitofp,
    ptrtoint, inttoptr, bitcast, addrspacecast]

def word : CastOp → String
  | trunc => "trunc"
  | zext => "zext"
  | sext => "sext"
  | fptrunc => "fptrunc"
  | fpext => "fpext"
  | fptoui => "fptoui"
  | fptosi => "fptosi"
  | uitofp => "uitofp"
  | sitofp => "sitofp"
  | ptrtoint => "ptrtoint"
  | inttoptr => "inttoptr"
  | bitcast => "bitcast"
  | addrspacecast => "addrspacecast"

def ofWord? (w : String) : Option CastOp := all.find? (·.word == w)

end CastOp

/-- Integer comparisons: `u` compares as unsigned, `s` as signed. -/
inductive IntPredicate where
  | eq | ne | ugt | uge | ult | ule | sgt | sge | slt | sle
  deriving DecidableEq, Repr

namespace IntPredicate

def all : List IntPredicate := [eq, ne, ugt, uge, ult, ule, sgt, sge, slt, sle]

def word : IntPredicate → String
  | eq => "eq"
  | ne => "ne"
  | ugt => "ugt"
  | uge => "uge"
  | ult => "ult"
  | ule => "ule"
  | sgt => "sgt"
  | sge => "sge"
  | slt => "slt"
  | sle => "sle"

def ofWord? (w : String) : Option IntPredicate := all.find? (·.word == w)

end IntPredicate

/-- Float comparisons: `o` is false and `u` is true when an operand is no number. -/
inductive FloatPredicate where
  | never | oeq | ogt | oge | olt | ole | one | ord
  | ueq | ugt | uge | ult | ule | une | uno | always
  deriving DecidableEq, Repr

namespace FloatPredicate

def all : List FloatPredicate :=
  [never, oeq, ogt, oge, olt, ole, one, ord, ueq, ugt, uge, ult, ule, une, uno, always]

def word : FloatPredicate → String
  | never => "false"
  | oeq => "oeq"
  | ogt => "ogt"
  | oge => "oge"
  | olt => "olt"
  | ole => "ole"
  | one => "one"
  | ord => "ord"
  | ueq => "ueq"
  | ugt => "ugt"
  | uge => "uge"
  | ult => "ult"
  | ule => "ule"
  | une => "une"
  | uno => "uno"
  | always => "true"

def ofWord? (w : String) : Option FloatPredicate := all.find? (·.word == w)

end FloatPredicate

/-- The promises an arithmetic instruction makes: no signed wrap, no unsigned wrap, no remainder. -/
structure WrapFlags where
  nsw : Bool := false
  nuw : Bool := false
  exact : Bool := false
  deriving DecidableEq, Repr

end SafeIR
