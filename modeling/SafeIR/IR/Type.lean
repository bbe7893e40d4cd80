/-!
# Resolved types

Types of a module in which every name stands for its structure. Equality is decidable, by
`Ty.beq`.
-/

namespace SafeIR.IR

/-- A type without names. -/
inductive Ty where
  | void
  | int (bits : Nat)
  | half
  | float
  | double
  | x86Fp80
  | fp128
  | ptr
  | label
  | metadata
  | array (len : Nat) (elem : Ty)
  | struct (packed : Bool) (fields : List Ty)
  | function (ret : Ty) (params : List Ty) (varargs : Bool)

namespace Ty

instance : Inhabited Ty := ⟨void⟩

/-- The type has parts. -/
def isAggregate : Ty → Bool
  | array .. | struct .. => true
  | _ => false

/-! ## Equality -/

mutual

def beq : Ty → Ty → Bool
  | void, void => true
  | int a, int b => a == b
  | half, half => true
  | float, float => true
  | double, double => true
  | x86Fp80, x86Fp80 => true
  | fp128, fp128 => true
  | ptr, ptr => true
  | label, label => true
  | metadata, metadata => true
  | array n a, array m b => n == m && beq a b
  | struct p fs, struct q gs => p == q && beqList fs gs
  | function r ps v, function s qs w => beq r s && beqList ps qs && v == w
  | _, _ => false

def beqList : List Ty → List Ty → Bool
  | [], [] => true
  | a :: as, b :: bs => beq a b && beqList as bs
  | _, _ => false

end

mutual

theorem beq_iff : (a b : Ty) → (beq a b = true ↔ a = b)
  | void, b => by cases b <;> simp [beq]
  | int n, b => by cases b <;> simp [beq]
  | half, b => by cases b <;> simp [beq]
  | float, b => by cases b <;> simp [beq]
  | double, b => by cases b <;> simp [beq]
  | x86Fp80, b => by cases b <;> simp [beq]
  | fp128, b => by cases b <;> simp [beq]
  | ptr, b => by cases b <;> simp [beq]
  | label, b => by cases b <;> simp [beq]
  | metadata, b => by cases b <;> simp [beq]
  | array n a, b => by cases b <;> simp [beq, beq_iff a]
  | struct p fs, b => by cases b <;> simp [beq, beqList_iff fs]
  | function r ps v, b => by cases b <;> simp [beq, beq_iff r, beqList_iff ps, and_assoc]

theorem beqList_iff : (as bs : List Ty) → (beqList as bs = true ↔ as = bs)
  | [], bs => by cases bs <;> simp [beqList]
  | a :: as, bs => by cases bs <;> simp [beqList, beq_iff a, beqList_iff as]

end

instance : DecidableEq Ty := fun a b => decidable_of_iff _ (beq_iff a b)

/-! ## Text -/

mutual

/-- A type as it is written. -/
def text : Ty → String
  | .void => "void"
  | .int bits => "i" ++ toString bits
  | .half => "half"
  | .float => "float"
  | .double => "double"
  | .x86Fp80 => "x86_fp80"
  | .fp128 => "fp128"
  | .ptr => "ptr"
  | .label => "label"
  | .metadata => "metadata"
  | .array len elem => "[" ++ toString len ++ " x " ++ elem.text ++ "]"
  | .struct packed fields =>
    if packed then "<\x7b " ++ listText fields ++ " \x7d>"
    else "\x7b " ++ listText fields ++ " \x7d"
  | .function ret params varargs =>
    ret.text ++ " (" ++ (match params, varargs with
      | [], true => "..."
      | ps, true => listText ps ++ ", ..."
      | ps, false => listText ps) ++ ")"

def listText : List Ty → String
  | [] => ""
  | [t] => t.text
  | t :: u :: ts => t.text ++ ", " ++ listText (u :: ts)

end

mutual

/-- The form in which messages show a type inside constant data. -/
def describe : Ty → String
  | .void => "Void"
  | .int bits => "Int(" ++ toString bits ++ ")"
  | .half => "Half"
  | .float => "Float"
  | .double => "Double"
  | .x86Fp80 => "X86Fp80"
  | .fp128 => "Fp128"
  | .ptr => "Ptr"
  | .label => "Label"
  | .metadata => "Metadata"
  | .array len elem => "Array \x7b len: " ++ toString len ++ ", elem: " ++ elem.describe ++ " \x7d"
  | .struct packed fields =>
    "Struct \x7b fields: [" ++ describeList fields ++ "], packed: " ++ toString packed ++ " \x7d"
  | .function ret params varargs =>
    "Function \x7b ret: " ++ ret.describe ++ ", params: [" ++ describeList params ++ "], varargs: "
      ++ toString varargs ++ " \x7d"

def describeList : List Ty → String
  | [] => ""
  | [t] => t.describe
  | t :: u :: ts => t.describe ++ ", " ++ describeList (u :: ts)

end

end Ty

end SafeIR.IR
