import SafeIR.Decimal.Notation
import SafeIR.Source.Value
import SafeIR.Text.Quoted

/-!
# Values in messages

The form in which messages show a value of the source text.
-/

namespace SafeIR.Source

mutual

def Ty.describe : Ty → String
  | .void => "Void"
  | .int bits => "Int(" ++ toString bits ++ ")"
  | .half => "Half"
  | .float => "Float"
  | .double => "Double"
  | .x86Fp80 => "X86Fp80"
  | .fp128 => "Fp128"
  | .ptr => "Ptr"
  | .label => "Label"
  | .metadata => "Metadata"
  | .array len elem => "Array \x7b len: " ++ toString len ++ ", elem: " ++ elem.describe ++ " \x7d"
  | .vector len elem =>
    "Vector \x7b len: " ++ toString len ++ ", elem: " ++ elem.describe ++ " \x7d"
  | .struct packed fields =>
    "Struct \x7b fields: [" ++ describeTypes fields ++ "], packed: " ++ toString packed ++ " \x7d"
  | .named name => "Named(" ++ Text.quote name ++ ")"
  | .function ret params varargs =>
    "Function \x7b ret: " ++ ret.describe ++ ", params: [" ++ describeTypes params ++ "], varargs: "
      ++ toString varargs ++ " \x7d"

def describeTypes : List Ty → String
  | [] => ""
  | [t] => t.describe
  | t :: u :: ts => t.describe ++ ", " ++ describeTypes (u :: ts)

end

/-- A typed value inside an aggregate, from the text of the value. -/
def describeOperand (ty : Ty) (value : String) : String :=
  "OperandRecord \x7b ty: Some(" ++ ty.describe ++ "), value: " ++ value ++ " \x7d"

/-- A constant, from its text. -/
def describeConst (inside : Bool) (text : String) : String :=
  if inside then "Const(" ++ text ++ ")" else text

mutual

/-- A value. Inside an aggregate it says of which kind it is. -/
def Value.describe (inside : Bool) : Value → String
  | .local name => if inside then "Local(" ++ Text.quote name ++ ")" else "%" ++ name
  | .global name => if inside then "Global(" ++ Text.quote name ++ ")" else "@" ++ name
  | .metadata text => if inside then "Metadata(" ++ Text.quote text ++ ")" else text
  | .int v => describeConst inside ("Int(" ++ toString v ++ ")")
  | .float bits => describeConst inside ("Float(" ++ Decimal.describe Binary.double bits ++ ")")
  | .bool b => describeConst inside ("Bool(" ++ toString b ++ ")")
  | .null => describeConst inside "Null"
  | .undef => describeConst inside "Undef"
  | .poison => describeConst inside "Poison"
  | .zero => describeConst inside "Zero"
  | .bytes data =>
    describeConst inside
      ("Bytes([" ++ String.intercalate ", " (data.map fun b => toString b.toNat) ++ "])")
  | .array items => describeConst inside ("Array([" ++ describeOperands items ++ "])")
  | .struct fields => describeConst inside ("Struct([" ++ describeOperands fields ++ "])")

def describeOperands : List (Ty × Value) → String
  | [] => ""
  | [(ty, v)] => describeOperand ty (v.describe true)
  | (ty, v) :: i :: is => describeOperand ty (v.describe true) ++ ", " ++ describeOperands (i :: is)

end

end SafeIR.Source
