import SafeIR.Target.Type

/-!
# Scalars

The values that generated code keeps in one variable: truth values, integers, floats and
addresses.
-/

namespace SafeIR.Layout

/-- A value that fits in one variable. -/
inductive Scalar where
  | bool
  | int (bits : Nat)
  | f32
  | f64
  | ptr
  deriving DecidableEq, Repr

namespace Scalar

/-- The width of the variable for an integer. Integers of an uncommon width are kept in the widest
type. -/
def wordBits (bits : Nat) : Nat := if bits ∈ [8, 16, 32, 64] then bits else 128

/-- The type of the variable. -/
def ty : Scalar → Target.Ty
  | bool => .bool
  | int bits => .signed (wordBits bits)
  | f32 => .f32
  | f64 => .f64
  | ptr => .unsigned 64

/-- The type in which the bits are read as unsigned. -/
def unsignedTy : Scalar → Target.Ty
  | int bits => .unsigned (wordBits bits)
  | s => s.ty

def typeName (s : Scalar) : String := s.ty.text

/-- What ends the names of the memory accesses. -/
def memorySuffix : Scalar → String
  | ptr => "ptr"
  | s => s.typeName

/-- The zero of a scalar, as a literal. -/
def zeroLiteral : Scalar → String
  | bool => "false"
  | f32 => "0.0f32"
  | f64 => "0.0f64"
  | s => "0" ++ s.typeName

/-- The width of a scalar. -/
def bits : Scalar → Nat
  | bool => 1
  | int bits => bits
  | f32 => 32
  | f64 | ptr => 64

def isInt : Scalar → Bool
  | int _ => true
  | _ => false

def isFloat : Scalar → Bool
  | f32 | f64 => true
  | _ => false

end Scalar

end SafeIR.Layout
