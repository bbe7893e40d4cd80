import SafeIR.IR.Module
import SafeIR.Layout.Scalar
import SafeIR.Word.Checked

/-!
# Generated code

The language that functions are lowered to. An expression has no effects. An action may fail or
touch the guest memory, and ends the function with a fault if it fails. A step is one simple
statement; a statement adds branches and exits. A function runs as a loop over its blocks, in
which a step names the next block, or straight through if it is flat.
-/

namespace SafeIR.Target

open IR (BlockId ValueId)
open Layout (Scalar)

/-- A variable of the code. -/
inductive Var where
  | value (id : ValueId)
  /-- Where a caught exception waits for the landing pad. -/
  | exception
  | named (name : String)
  deriving DecidableEq, Repr

/-- Operators of the code. -/
inductive BinaryOp where
  | and | or | xor | add | sub | mul | div | rem | eq | ne | lt | le | gt | ge | both | either
  deriving DecidableEq, Repr

/-- Operations modulo the width; shifts take their amount modulo the width too. -/
inductive WrappingOp where
  | add | sub | mul | shl | shr
  deriving DecidableEq, Repr

/-- An expression without effects. -/
inductive Expr where
  | var (v : Var)
  /-- The constant that holds the address of a global. -/
  | global (name : String)
  | int (value : Int) (s : Scalar)
  | float (bits : Nat) (s : Scalar)
  | zero (s : Scalar)
  | bool (value : Bool)
  /-- A number of a type, as it is. -/
  | number (value : Int) (ty : Ty)
  /-- A number of the type that the other side has. -/
  | numeral (value : Nat)
  | text (code : String)
  | paren (e : Expr)
  | cast (e : Expr) (ty : Ty)
  | not (e : Expr)
  | neg (e : Expr)
  | binary (op : BinaryOp) (l r : Expr)
  | wrapping (op : WrappingOp) (l r : Expr)
  | wrappingNeg (e : Expr)
  | isNan (e : Expr)
  | toBits (e : Expr)
  | ofBits (ty : Ty) (e : Expr)
  | ifElse (cond yes no : Expr)
  /-- The value of the call made last, whether or not it raised. -/
  | resultValue
  /-- The value of the outcome that is matched on. -/
  | outcomeValue
  | clone (v : Var)
  | take (v : Var)
  | none
  deriving DecidableEq, Repr

/-- A call whose outcome is a value or a fault. -/
inductive Call where
  | function (name : String) (args : List Expr)
  /-- A host function, whose answer must have the type given; with no type it is dropped. -/
  | external (name : String) (args : List Expr) (ret : Option Ty)
  deriving DecidableEq, Repr

/-- What a step computes, maybe with an effect. -/
inductive Action where
  | pure (e : Expr)
  | checked (s : Scalar) (op : CheckedOp) (l r : Expr)
  | toInt (signed : Bool) (source target : Scalar) (e : Expr)
  | alloca (size : Expr) (align : Nat)
  | load (s : Scalar) (address : Expr)
  | store (s : Scalar) (address value : Expr)
  | call (c : Call)
  | intrinsic (path : String) (args : List Expr) (fallible memory : Bool)
  deriving DecidableEq, Repr

/-- What is done without a branch. -/
inductive Step where
  | assign (dest : Var) (a : Action)
  | run (a : Action)
  /-- Assign to several variables at once. -/
  | copies (pairs : List (Var × Expr))
  /-- Keep the exception that was caught. -/
  | hold
  | goto (b : BlockId)
  | text (code : String)
  deriving DecidableEq, Repr

/-- A statement. -/
inductive Stmt where
  | step (s : Step)
  /-- Call a function that may raise, and keep its result. -/
  | attempt (path : String) (args : List Expr)
  /-- Leave the function if the call raised. -/
  | propagate
  /-- Choose by whether the call raised. -/
  | ifRaised (raised normal : List Step)
  /-- Choose by the outcome of a call; a trap leaves the function. -/
  | matchOutcome (c : Call) (normal raised : List Step)
  | ifElse (cond : Expr) (yes no : List Step)
  | switch (value : Expr) (cases : List (Expr × List Step)) (default : List Step)
  | next
  | ret (value : Option Expr)
  | resume (pending : Expr)
  | unreachable
  deriving DecidableEq, Repr

/-- A variable with its type and first value. -/
inductive Local where
  | scalar (id : ValueId) (s : Scalar)
  | exception (v : Var)
  | text (name ty init : String)
  deriving DecidableEq, Repr

/-- A function of the generated code. -/
structure Function where
  name : String
  sourceName : String
  params : List (Var × Ty)
  ret : Ty
  locals : List Local
  blocks : List (List Stmt)
  /-- The blocks run straight through. -/
  flat : Bool
  /-- The function allocates on the stack. -/
  usesFrame : Bool

/-- The size of a function: its variables and statements. -/
def Function.statementCount (f : Function) : Nat :=
  f.locals.length + (f.blocks.map List.length).foldr (· + ·) 0

end SafeIR.Target
