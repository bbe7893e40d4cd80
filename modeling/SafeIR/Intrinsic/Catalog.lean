import SafeIR.Power
import SafeIR.Target.Type

/-!
# Intrinsics

Declared functions that generated code does not call as such: each stands for a function of the
support library, or for nothing. An entry says how many arguments that function takes, how many
further operands a call site has that mean nothing here, and how the call is made.

A call to an intrinsic that may raise an exception needs a check afterwards. `Proof.holds` tells
from the constant operands that a call cannot raise.
-/

namespace SafeIR.Intrinsic

/-- How a call is made; the text is the name of the function. -/
inductive Strategy where
  /-- A plain call. -/
  | pure (function : String)
  /-- A call that may trap. -/
  | fallible (function : String)
  /-- A call that may raise an exception. -/
  | mayThrow (function : String)
  /-- A call on the guest memory, which may trap. -/
  | memory (function : String)
  | noOp
  deriving DecidableEq, Repr

/-- The routine that is called, if any. -/
def Strategy.function? : Strategy → Option String
  | pure f | fallible f | mayThrow f | memory f => some f
  | noOp => none

/-- A reason why a call cannot raise. -/
inductive Proof where
  /-- The divisor is neither zero nor minus one. -/
  | safeDivisor
  /-- Both operands are known and the exact result fits. -/
  | sumFits
  | differenceFits
  | productFits
  deriving DecidableEq, Repr

/-- Whether an integer fits in `bits` bits in two's complement. -/
def fits (value : Int) (bits : Nat) : Bool :=
  -(twoPow (bits - 1) : Int) ≤ value && value < twoPow (bits - 1)

namespace Proof

/-- Whether the exact result of an operation on the first two operands is known and fits, also in
the 128 bits that constants have. -/
def resultFits (f : Int → Int → Int) (bits : Nat) : List (Option Int) → Bool
  | some a :: some b :: _ => fits (f a b) 128 && fits (f a b) bits
  | _ => false

/-- Whether a call cannot raise, from the values of its constant operands and the width. -/
def holds (p : Proof) (args : List (Option Int)) (bits : Nat) : Bool :=
  match p with
  | safeDivisor =>
    match args with
    | _ :: some d :: _ => d != 0 && d != -1
    | _ => false
  | sumFits => resultFits (· + ·) bits args
  | differenceFits => resultFits (· - ·) bits args
  | productFits => resultFits (· * ·) bits args

end Proof

/-- An entry of the catalog. -/
structure Entry where
  name : String
  /-- The number of arguments that are passed on. -/
  arity : Nat
  strategy : Strategy
  /-- The types that the first argument may have, or none if there is one function for all. -/
  overloads : List String := []
  /-- The number of operands behind the arguments that mean nothing here. -/
  trailing : Nat := 0
  /-- The types that the arguments of a memory function are cast to. -/
  casts : List Target.Ty := []
  proof : Option Proof := none
  deriving Repr

namespace Entry

/-- The number of operands of a call site. -/
def operandCount (e : Entry) : Nat := e.arity + e.trailing

/-- The routine may raise. -/
def mayThrow (e : Entry) : Bool :=
  match e.strategy with
  | .mayThrow _ => true
  | _ => false

/-- The function to call; the type of the first argument selects among overloads. -/
def path? (e : Entry) (ty : Option String) : Option String := do
  let function ← e.strategy.function?
  if e.overloads.isEmpty then return "irbridge_runtime::intrinsics::" ++ function
  else
    let ty ← ty.filter e.overloads.contains
    return "irbridge_runtime::intrinsics::" ++ ty ++ "::" ++ function

end Entry

def ints : List String := ["i8", "i16", "i32", "i64"]

def floats : List String := ["f32", "f64"]

def u64 : Target.Ty := .unsigned 64

def u8 : Target.Ty := .unsigned 8

/-- All intrinsics, with different names. -/
def catalog : List Entry := [
  { name := "checked_div", arity := 2, strategy := .mayThrow "checked_div",
    overloads := ints, proof := some .safeDivisor },
  { name := "checked_rem", arity := 2, strategy := .mayThrow "checked_rem",
    overloads := ints, proof := some .safeDivisor },
  { name := "checked_add", arity := 2, strategy := .mayThrow "checked_add",
    overloads := ints, proof := some .sumFits },
  { name := "checked_sub", arity := 2, strategy := .mayThrow "checked_sub",
    overloads := ints, proof := some .differenceFits },
  { name := "checked_mul", arity := 2, strategy := .mayThrow "checked_mul",
    overloads := ints, proof := some .productFits },
  { name := "irbridge.throw", arity := 1, strategy := .mayThrow "throw" },
  { name := "__irbridge_throw", arity := 1, strategy := .mayThrow "throw" },
  { name := "llvm.smax", arity := 2, strategy := .pure "smax", overloads := ints },
  { name := "llvm.smin", arity := 2, strategy := .pure "smin", overloads := ints },
  { name := "llvm.umax", arity := 2, strategy := .pure "umax", overloads := ints },
  { name := "llvm.umin", arity := 2, strategy := .pure "umin", overloads := ints },
  { name := "llvm.abs", arity := 1, strategy := .pure "abs", overloads := ints, trailing := 1 },
  { name := "llvm.ctpop", arity := 1, strategy := .pure "ctpop", overloads := ints },
  { name := "llvm.ctlz", arity := 1, strategy := .pure "ctlz", overloads := ints, trailing := 1 },
  { name := "llvm.cttz", arity := 1, strategy := .pure "cttz", overloads := ints, trailing := 1 },
  { name := "llvm.bswap", arity := 1, strategy := .pure "bswap", overloads := ints },
  { name := "llvm.fabs", arity := 1, strategy := .pure "fabs", overloads := floats },
  { name := "llvm.sqrt", arity := 1, strategy := .pure "sqrt", overloads := floats },
  { name := "llvm.floor", arity := 1, strategy := .pure "floor", overloads := floats },
  { name := "llvm.ceil", arity := 1, strategy := .pure "ceil", overloads := floats },
  { name := "llvm.trunc", arity := 1, strategy := .pure "trunc", overloads := floats },
  { name := "llvm.minnum", arity := 2, strategy := .pure "minnum", overloads := floats },
  { name := "llvm.maxnum", arity := 2, strategy := .pure "maxnum", overloads := floats },
  { name := "llvm.memcpy", arity := 3, strategy := .memory "memcpy",
    casts := [u64, u64, u64], trailing := 1 },
  { name := "llvm.memmove", arity := 3, strategy := .memory "memmove",
    casts := [u64, u64, u64], trailing := 1 },
  { name := "llvm.memset", arity := 3, strategy := .memory "memset",
    casts := [u64, u8, u64], trailing := 1 },
  { name := "malloc", arity := 1, strategy := .memory "malloc", casts := [u64] },
  { name := "calloc", arity := 2, strategy := .memory "calloc", casts := [u64, u64] },
  { name := "free", arity := 1, strategy := .memory "free", casts := [u64] },
  { name := "llvm.trap", arity := 0, strategy := .fallible "trap" },
  { name := "abort", arity := 0, strategy := .fallible "trap" },
  { name := "llvm.lifetime.start", arity := 0, strategy := .noOp },
  { name := "llvm.lifetime.end", arity := 0, strategy := .noOp },
  { name := "llvm.assume", arity := 0, strategy := .noOp },
  { name := "llvm.dbg.declare", arity := 0, strategy := .noOp },
  { name := "llvm.dbg.value", arity := 0, strategy := .noOp },
  { name := "llvm.dbg.label", arity := 0, strategy := .noOp },
  { name := "llvm.dbg.assign", arity := 0, strategy := .noOp },
  { name := "llvm.experimental.noalias.scope.decl", arity := 0, strategy := .noOp }]

end SafeIR.Intrinsic
