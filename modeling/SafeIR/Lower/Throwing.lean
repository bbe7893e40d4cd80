import SafeIR.Intrinsic.Catalog
import SafeIR.Target.Code

/-!
# Calls that may raise

A call to an intrinsic that may raise becomes the call, the extraction of its value and a check. An
exception leaves the function, or, under a handler, is kept in the exception slot before control
moves to the unwind block.
-/

namespace SafeIR.Lower

open Target (Expr Step Stmt Var)

/-- Where an exception goes. -/
inductive Handler where
  /-- Out of the function. -/
  | propagate
  /-- To a block; `normal` and `unwind` are the steps along the two edges. -/
  | invoke (normal unwind : List Step)
  deriving DecidableEq, Repr

/-- A call of a routine that may raise, about to be written. -/
structure Throwing where
  entry : Intrinsic.Entry
  path : String
  args : List Expr
  /-- The values of the arguments that are constants. -/
  constants : List (Option Int)
  /-- The width of the operands, if the intrinsic has overloads. -/
  bits : Option Nat
  dest : Option Var

namespace Throwing

/-- Whether the check may be left out. -/
def canElide (elide : Bool) (c : Throwing) : Bool :=
  match c.entry.proof, c.bits with
  | some proof, some bits => elide && proof.holds c.constants bits
  | _, _ => false

/-- Keep the value of the call. -/
def takeValue (c : Throwing) : List Step :=
  (c.dest.map fun d => Step.assign d (.pure .resultValue)).toList

/-- The code of a routine that may raise. -/
def lower (elide : Bool) (c : Throwing) (handler : Handler) : List Stmt :=
  .attempt c.path c.args ::
    if c.canElide elide then
      match handler with
      | .propagate => c.takeValue.map .step
      | .invoke normal _ => (c.takeValue ++ normal).map .step
    else
      match handler with
      | .propagate => c.takeValue.map .step ++ [.propagate]
      | .invoke normal unwind => [.ifRaised (.hold :: unwind) (c.takeValue ++ normal)]

end Throwing

end SafeIR.Lower
