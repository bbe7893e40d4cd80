import SafeIR.Source.Type

/-!
# Values as spelled

The operands of instructions and initializers, with the names of locals and globals unresolved.
-/

namespace SafeIR.Source

/-- A value as it is written. -/
inductive Value where
  /-- `%name`. -/
  | local (name : String)
  /-- `@name`. -/
  | global (name : String)
  /-- An argument that only annotates a call, as written. -/
  | metadata (text : String)
  | int (value : Int)
  /-- A float, by the bits of a double. -/
  | float (bits : Nat)
  | bool (value : Bool)
  | null
  | undef
  | poison
  | zero
  | bytes (data : List UInt8)
  | array (items : List (Ty × Value))
  | struct (fields : List (Ty × Value))

/-- A value with its type. -/
abbrev Operand := Ty × Value

end SafeIR.Source
