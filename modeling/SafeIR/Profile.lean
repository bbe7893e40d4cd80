/-!
# Target profile

What a caller may choose about generated code.
-/

namespace SafeIR

/-- What becomes of a call to a declared function that is no intrinsic. -/
inductive UnknownIntrinsics where
  | reject
  /-- It is passed on to the host. -/
  | external
  deriving DecidableEq, Repr

/-- What becomes of a promise, such as no signed wrap, that does not hold. -/
inductive Overflow where
  | trap
  | wrap
  deriving DecidableEq, Repr

/-- How code is generated. -/
structure Profile where
  name : String := "safe-rust"
  maxIntWidth : Nat := 64
  unknownIntrinsics : UnknownIntrinsics := .reject
  overflow : Overflow := .trap
  /-- The size up to which a function is written out. -/
  maxStatements : Nat := 100000
  /-- Leave out checks that cannot fail. -/
  elideProvenChecks : Bool := false
  deriving DecidableEq, Repr

/-- What a translation is asked for. -/
structure Options where
  profile : Profile := {}
  parallel : Bool := true
  deriving DecidableEq, Repr

end SafeIR
