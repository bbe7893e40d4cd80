import SafeIR.Decimal.Notation
import SafeIR.IR.Type
import SafeIR.Opcode

/-!
# Resolved modules

A module in which names are resolved: functions, blocks, values and globals are referred to by
their position. A block is a list of instructions and one terminator.
-/

namespace SafeIR.IR

/-! ## References -/

/-- The place of a function in its module. -/
structure FuncId where
  index : Nat
  deriving DecidableEq, Repr

/-- The place of a block in its function. -/
structure BlockId where
  index : Nat
  deriving DecidableEq, Repr

/-- The place of a value in its function. -/
structure ValueId where
  index : Nat
  deriving DecidableEq, Repr

/-- The place of a global in its module. -/
structure GlobalId where
  index : Nat
  deriving DecidableEq, Repr

def FuncId.text (f : FuncId) : String := "f" ++ toString f.index

def BlockId.text (b : BlockId) : String := "B" ++ toString b.index

def ValueId.text (v : ValueId) : String := "v" ++ toString v.index

def GlobalId.text (g : GlobalId) : String := "g" ++ toString g.index

/-! ## Constants -/

/-- The value of a constant; its type is given where it is used. -/
inductive Constant where
  | int (value : Int)
  /-- A float, by the bits of a double. -/
  | float (bits : Nat)
  | bool (value : Bool)
  | null
  | undef
  | zero
  | bytes (data : List UInt8)
  | array (items : List (Ty × Constant))
  | struct (fields : List (Ty × Constant))
  /-- The address of a global. -/
  | global (id : GlobalId)

namespace Constant

/-- The value of an integer or a truth value. -/
def asInt? : Constant → Option Int
  | int v => some v
  | bool b => some (if b then 1 else 0)
  | _ => none

mutual

/-- The form in which messages show a constant. -/
def describe : Constant → String
  | .int v => "Int(" ++ toString v ++ ")"
  | .float bits => "Float(" ++ Decimal.describe Binary.double bits ++ ")"
  | .bool b => "Bool(" ++ toString b ++ ")"
  | .null => "Null"
  | .undef => "Undef"
  | .zero => "Zero"
  | .bytes data => "Bytes([" ++ String.intercalate ", " (data.map fun b => toString b.toNat) ++ "])"
  | .array items => "Array([" ++ describeItems items ++ "])"
  | .struct fields => "Struct([" ++ describeItems fields ++ "])"
  | .global id => "Global(GlobalId(" ++ toString id.index ++ "))"

def describeItems : List (Ty × Constant) → String
  | [] => ""
  | [(ty, c)] => "(" ++ ty.describe ++ ", " ++ c.describe ++ ")"
  | (ty, c) :: i :: is =>
    "(" ++ ty.describe ++ ", " ++ c.describe ++ "), " ++ describeItems (i :: is)

end

end Constant

/-! ## Instructions -/

/-- What an instruction takes. -/
inductive Operand where
  | value (id : ValueId)
  | const (c : Constant)
  | global (id : GlobalId)
  /-- A function, as a callee or as a value. -/
  | function (id : FuncId)
  /-- An argument that only annotates a call. -/
  | metadata (text : String)

/-- The number of a constant operand. -/
def Operand.asInt? : Operand → Option Int
  | const c => c.asInt?
  | _ => none

/-- An operand with its type. -/
abbrev Typed := Ty × Operand

/-- What is called. -/
inductive Callee where
  | direct (f : FuncId)
  /-- A call through a pointer. -/
  | indirect (target : Operand)

/-- A call, with or without a handler. -/
structure CallSite where
  callee : Callee
  ret : Ty
  args : List Typed

/-- What an instruction computes. -/
inductive Op where
  | binary (op : BinaryOp) (flags : WrapFlags) (ty : Ty) (lhs rhs : Operand)
  | icmp (pred : IntPredicate) (ty : Ty) (lhs rhs : Operand)
  | fcmp (pred : FloatPredicate) (ty : Ty) (lhs rhs : Operand)
  | fneg (ty : Ty) (value : Operand)
  | select (ty : Ty) (cond yes no : Operand)
  | cast (op : CastOp) (source target : Ty) (value : Operand)
  | alloca (ty : Ty) (count : Option Operand) (align : Option Nat)
  | load (ty : Ty) (address : Operand)
  | store (ty : Ty) (value address : Operand)
  | gep (source : Ty) (base : Operand) (indices : List Typed)
  | phi (ty : Ty) (incoming : List (Operand × BlockId))
  | call (site : CallSite)
  | landingpad (ty : Ty) (cleanup : Bool) (clauses : Nat)

/-- The opcode, in messages. -/
def Op.opcode : Op → String
  | binary op .. => op.word
  | icmp .. => "icmp"
  | fcmp .. => "fcmp"
  | fneg .. => "fneg"
  | select .. => "select"
  | cast op .. => op.word
  | alloca .. => "alloca"
  | load .. => "load"
  | store .. => "store"
  | gep .. => "getelementptr"
  | phi .. => "phi"
  | call _ => "call"
  | landingpad .. => "landingpad"

/-- An operation and the value it makes. -/
structure Instruction where
  result : Option ValueId
  op : Op

/-- How a block ends. -/
inductive Terminator where
  | ret (value : Option Typed)
  | br (target : BlockId)
  | condBr (cond : Operand) (yes no : BlockId)
  | switch (ty : Ty) (value : Operand) (default : BlockId) (cases : List (Int × BlockId))
  | invoke (result : Option ValueId) (site : CallSite) (normal unwind : BlockId)
  | resume (value : Operand)
  | unreachable

namespace Terminator

/-- The opcode of a terminator, in messages. -/
def opcode : Terminator → String
  | ret _ => "ret"
  | br _ | condBr .. => "br"
  | switch .. => "switch"
  | invoke .. => "invoke"
  | resume _ => "resume"
  | unreachable => "unreachable"

/-- The blocks that may run next, in the order of the edges. -/
def successors : Terminator → List BlockId
  | ret _ | resume _ | unreachable => []
  | br target => [target]
  | condBr _ yes no => [yes, no]
  | switch _ _ default cases => default :: cases.map Prod.snd
  | invoke _ _ normal unwind => [normal, unwind]

end Terminator

/-! ## Modules -/

/-- A run of instructions with one end. -/
structure Block where
  id : BlockId
  label : String
  instructions : List Instruction
  terminator : Terminator

/-- What is known of a value: its name in the source text and its type. -/
structure ValueInfo where
  name : String
  ty : Ty

/-- A function; a declaration has no blocks. -/
structure Function where
  id : FuncId
  name : String
  /-- What the name says, if it is a linker symbol. -/
  demangled : Option String
  params : List ValueId
  ret : Ty
  varargs : Bool
  isDeclaration : Bool
  /-- Parameters, then results in the order of their definition. -/
  values : List ValueInfo
  blocks : List Block

namespace Function

/-- The type of a value, which is void for a value that is not there. -/
def typeOf (f : Function) (v : ValueId) : Ty := (f.values[v.index]?.map ValueInfo.ty).getD .void

/-- The instructions of all blocks. -/
def instructions (f : Function) : List Instruction := f.blocks.flatMap Block.instructions

/-- The number of instructions, terminators included. -/
def instructionCount (f : Function) : Nat :=
  (f.blocks.map fun b => b.instructions.length + 1).foldr (· + ·) 0

end Function

/-- A global variable or constant. -/
structure Global where
  id : GlobalId
  name : String
  ty : Ty
  isConstant : Bool
  /-- Nothing for a global that is defined elsewhere. -/
  initializer : Option Constant
  align : Option Nat

/-- A module with all names resolved. -/
structure Module where
  sourceFilename : Option String := none
  functions : List Function := []
  globals : List Global := []

namespace Module

/-- The first function of a name. -/
def function? (m : Module) (name : String) : Option Function :=
  m.functions.find? (·.name == name)

/-- The functions with a body. -/
def defined (m : Module) : List Function := m.functions.filter (! ·.isDeclaration)

end Module

end SafeIR.IR
