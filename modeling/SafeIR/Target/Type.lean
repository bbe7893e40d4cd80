/-!
# Types of generated code

The types that variables, parameters and casts of generated code have.
-/

namespace SafeIR.Target

/-- A type of the generated code. -/
inductive Ty where
  | unit
  | bool
  | signed (bits : Nat)
  | unsigned (bits : Nat)
  | f32
  | f64
  /-- A variable that may hold an exception. -/
  | exception
  /-- A type given by its text. -/
  | other (text : String)
  deriving DecidableEq, Repr

/-- The text of a type. -/
def Ty.text : Ty → String
  | unit => "()"
  | bool => "bool"
  | signed bits => "i" ++ toString bits
  | unsigned bits => "u" ++ toString bits
  | f32 => "f32"
  | f64 => "f64"
  | exception => "Option<Exception>"
  | other text => text

end SafeIR.Target
