/-!
# Faults

A run of generated code ends with a value or with a fault. A fault is a trap, which no handler
catches, or an emulated exception, which travels up the call chain to the nearest handler.

* `Trap`, `Exception`, `Fault`: the causes, each with its wording in a `message` function.
* `Emulated`: what a routine that may raise returns, a value together with the pending exception.
-/

namespace SafeIR

/-- Why a run stops for good. -/
inductive Trap where
  | outOfBounds
  | nullDereference
  | divisionByZero
  /-- An operation that promised not to overflow did. -/
  | integerOverflow
  /-- A float that is not a number, or too large, was converted to an integer. -/
  | invalidConversion
  | unreachable
  | stackOverflow
  | abort
  /-- The function was too large and stands as a stub. -/
  | untranslated
  | unresolvedExternal
  | externalSignatureMismatch
  | resumeWithoutException
  deriving DecidableEq, Repr

namespace Trap

def message : Trap → String
  | outOfBounds => "memory access out of bounds"
  | nullDereference => "null pointer dereference"
  | divisionByZero => "integer division by zero"
  | integerOverflow => "integer overflow"
  | invalidConversion => "invalid float to integer conversion"
  | unreachable => "unreachable executed"
  | stackOverflow => "stack overflow"
  | abort => "abort"
  | untranslated => "function was not translated"
  | unresolvedExternal => "call to unresolved external function"
  | externalSignatureMismatch => "external function returned a value of the wrong type"
  | resumeWithoutException => "resume without a pending exception"

/-- Every trap, in the order in which they are declared. -/
def all : List Trap :=
  [outOfBounds, nullDereference, divisionByZero, integerOverflow, invalidConversion, unreachable,
    stackOverflow, abort, untranslated, unresolvedExternal, externalSignatureMismatch,
    resumeWithoutException]

end Trap

/-- An emulated exception. A thrown one carries the 32-bit code it was thrown with. -/
inductive Exception where
  | divisionByZero
  | arithmeticOverflow
  | thrown (code : BitVec 32)
  deriving DecidableEq, Repr

namespace Exception

def message : Exception → String
  | divisionByZero => "division by zero"
  | arithmeticOverflow => "arithmetic overflow"
  | thrown c => s!"thrown with code {c.toInt}"

/-- The code a handler sees: `-1` and `-2` stand for the two arithmetic kinds. -/
def code : Exception → Int
  | divisionByZero => -1
  | arithmeticOverflow => -2
  | thrown c => c.toInt

end Exception

/-- Why a function did not return normally. -/
inductive Fault where
  | trap (t : Trap)
  | exception (e : Exception)
  deriving DecidableEq, Repr

namespace Fault

def message : Fault → String
  | trap t => "trap: " ++ t.message
  | exception e => "exception: " ++ e.message

/-- Raise again what a landing pad holds; with nothing held, that is a trap. -/
def resume : Option Exception → Fault
  | some e => exception e
  | none => trap .resumeWithoutException

/-- The trap, if it is one. -/
def asTrap? : Fault → Option Trap
  | trap t => some t
  | exception _ => none

/-- The exception, if it is one. -/
def asException? : Fault → Option Exception
  | trap _ => none
  | exception e => some e

end Fault

/-- How a function ends. -/
abbrev Outcome (α : Type) := Except Fault α

/-- The result of a routine that may raise. While an exception is pending the value is a
placeholder that nobody reads. -/
structure Emulated (α : Type) where
  value : α
  pending : Option Exception
  deriving DecidableEq, Repr

namespace Emulated

variable {α : Type}

/-- A result without an exception. -/
def ok (a : α) : Emulated α := ⟨a, none⟩

/-- An exception, with a result that does not matter. -/
def raise [Inhabited α] (e : Exception) : Emulated α := ⟨default, some e⟩

/-- An exception was raised. -/
def isPending (r : Emulated α) : Bool := r.pending.isSome

/-- The result, or the exception that was raised. -/
def outcome (r : Emulated α) : Outcome α :=
  match r.pending with
  | none => .ok r.value
  | some e => .error (.exception e)

end Emulated

end SafeIR
