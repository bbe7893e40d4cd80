/-!
# Types as spelled

A type as the text of a module spells it: names of structures are kept, and every pointer is the
one opaque pointer. `Ty.text` is the canonical spelling.
-/

namespace SafeIR.Source

/-- A type as it is written. -/
inductive Ty where
  | void
  | int (bits : Nat)
  | half
  | float
  | double
  | x86Fp80
  | fp128
  | ptr
  | label
  | metadata
  | array (len : Nat) (elem : Ty)
  | vector (len : Nat) (elem : Ty)
  | struct (packed : Bool) (fields : List Ty)
  | named (name : String)
  | function (ret : Ty) (params : List Ty) (varargs : Bool)

namespace Ty

def isVoid : Ty → Bool
  | void => true
  | _ => false

mutual

/-- A type as it is written. -/
def text : Ty → String
  | .void => "void"
  | .int bits => "i" ++ toString bits
  | .half => "half"
  | .float => "float"
  | .double => "double"
  | .x86Fp80 => "x86_fp80"
  | .fp128 => "fp128"
  | .ptr => "ptr"
  | .label => "label"
  | .metadata => "metadata"
  | .array len elem => "[" ++ toString len ++ " x " ++ elem.text ++ "]"
  | .vector len elem => "<" ++ toString len ++ " x " ++ elem.text ++ ">"
  | .struct packed fields =>
    if packed then "<\x7b " ++ listText fields ++ " \x7d>"
    else "\x7b " ++ listText fields ++ " \x7d"
  | .named name => "%" ++ name
  | .function ret params varargs =>
    ret.text ++ " (" ++ (match params, varargs with
      | [], true => "..."
      | ps, true => listText ps ++ ", ..."
      | ps, false => listText ps) ++ ")"

/-- The spellings of several types, with commas between them. -/
def listText : List Ty → String
  | [] => ""
  | [t] => t.text
  | t :: u :: ts => t.text ++ ", " ++ listText (u :: ts)

end

end Ty

end SafeIR.Source
