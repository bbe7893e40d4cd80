import SafeIR.Opcode
import SafeIR.Source.Value
import SafeIR.Word.Bytes

/-!
# Modules as spelled

What the text of a module says, item by item and in its order. `Op` has one constructor for each
shape of instruction; `Op.opcode`, `Op.ty?`, `Op.operands` and so on are the uniform view that
queries answer from.
-/

namespace SafeIR.Source

/-- A callee with its arguments; the signature is there if the text spells one out. -/
structure Call where
  ret : Ty
  signature : Option Ty
  callee : Value
  args : List Operand

/-- What a line says, with names as they are written. -/
inductive Op where
  | ret (value : Option Operand)
  | br (target : String)
  | condBr (cond : Operand) (yes no : String)
  | switch (value : Operand) (default : String) (cases : List (Operand × String))
  | unreachable
  | resume (value : Operand)
  | binary (op : BinaryOp) (flags : WrapFlags) (ty : Ty) (lhs rhs : Value)
  | icmp (pred : IntPredicate) (flags : WrapFlags) (ty : Ty) (lhs rhs : Value)
  | fcmp (pred : FloatPredicate) (flags : WrapFlags) (ty : Ty) (lhs rhs : Value)
  | fneg (flags : WrapFlags) (value : Operand)
  | select (cond yes no : Operand)
  | cast (op : CastOp) (flags : WrapFlags) (value : Operand) (target : Ty)
  | alloca (ty : Ty) (count : Option Operand) (align : Option Nat)
  | load (volatile : Bool) (ty : Ty) (address : Operand) (align : Option Nat)
  | store (volatile : Bool) (value address : Operand) (align : Option Nat)
  | gep (inbounds : Bool) (ty : Ty) (base : Operand) (indices : List Operand)
  | phi (ty : Ty) (incoming : List (Value × String))
  | call (tail : Bool) (site : Call)
  | invoke (site : Call) (normal unwind : String)
  | landingpad (ty : Ty) (cleanup : Bool) (clauses : List Operand)
  /-- A line of which only the opcode was understood. -/
  | other (opcode : String)

namespace Op

/-- The opcode of an operation. -/
def opcode : Op → String
  | ret _ => "ret"
  | br _ | condBr .. => "br"
  | switch .. => "switch"
  | unreachable => "unreachable"
  | resume _ => "resume"
  | binary op .. => op.word
  | icmp .. => "icmp"
  | fcmp .. => "fcmp"
  | fneg .. => "fneg"
  | select .. => "select"
  | cast op .. => op.word
  | alloca .. => "alloca"
  | load .. => "load"
  | store .. => "store"
  | gep .. => "getelementptr"
  | phi .. => "phi"
  | call .. => "call"
  | invoke .. => "invoke"
  | landingpad .. => "landingpad"
  | other opcode => opcode

/-- The type an instruction is about: of its operands, of what it allocates, loads or makes. -/
def ty? : Op → Option Ty
  | ret none => some .void
  | ret (some v) => some v.1
  | br _ | condBr .. | unreachable | other _ => none
  | switch v .. => some v.1
  | resume v => some v.1
  | binary _ _ ty .. | icmp _ _ ty .. | fcmp _ _ ty .. => some ty
  | fneg _ v => some v.1
  | select _ v _ => some v.1
  | cast _ _ _ target => some target
  | alloca ty .. | load _ ty .. | gep _ ty .. | phi ty _ | landingpad ty .. => some ty
  | store _ v .. => some v.1
  | call _ site | invoke site .. => some site.ret

/-- The operands, with their types. -/
def operands : Op → List Operand
  | ret v => v.toList
  | condBr c .. => [c]
  | switch v .. => [v]
  | resume v => [v]
  | binary _ _ ty l r | icmp _ _ ty l r | fcmp _ _ ty l r => [(ty, l), (ty, r)]
  | fneg _ v => [v]
  | select c a b => [c, a, b]
  | cast _ _ v _ => [v]
  | alloca _ count _ => count.toList
  | load _ _ p _ => [p]
  | store _ v p _ => [v, p]
  | gep _ _ base indices => base :: indices
  | call _ site | invoke site .. => (.ptr, site.callee) :: site.args
  | br _ | unreachable | phi .. | landingpad .. | other _ => []

/-- The labels that an operation names. -/
def labels : Op → List String
  | br target => [target]
  | condBr _ yes no => [yes, no]
  | switch _ default _ => [default]
  | invoke _ normal unwind => [normal, unwind]
  | _ => []

def cases : Op → List (Operand × String)
  | switch _ _ cases => cases
  | _ => []

def incoming : Op → List (Value × String)
  | phi _ incoming => incoming
  | _ => []

/-- The word of the comparison made. -/
def predicate? : Op → Option String
  | icmp pred .. => some pred.word
  | fcmp pred .. => some pred.word
  | _ => none

/-- The promises of an operation. -/
def wrapFlags : Op → WrapFlags
  | binary _ flags .. | icmp _ flags .. | fcmp _ flags .. | fneg flags _ | cast _ flags .. => flags
  | _ => {}

/-- The words of all flags, in a fixed order. -/
def flagWords (op : Op) : List String :=
  let word (b : Bool) (w : String) : List String := if b then [w] else []
  let (inbounds, volatile, tail) := match op with
    | gep inbounds .. => (inbounds, false, false)
    | load volatile .. | store volatile .. => (false, volatile, false)
    | call tail _ => (false, false, tail)
    | _ => (false, false, false)
  word op.wrapFlags.nuw "nuw" ++ word op.wrapFlags.nsw "nsw" ++ word op.wrapFlags.exact "exact"
    ++ word inbounds "inbounds" ++ word volatile "volatile" ++ word tail "tail"

def align? : Op → Option Nat
  | alloca _ _ align | load _ _ _ align | store _ _ _ align => align
  | _ => none

def calleeType? : Op → Option Ty
  | call _ site | invoke site .. => site.signature
  | _ => none

def cleanup : Op → Bool
  | landingpad _ cleanup _ => cleanup
  | _ => false

def clauses : Op → List Operand
  | landingpad _ _ clauses => clauses
  | _ => []

/-- Whether the operation ends a block. -/
def isTerminator : Op → Bool
  | ret _ | br _ | condBr .. | switch .. | invoke .. | resume _ | unreachable => true
  | _ => false

def isOther : Op → Bool
  | other _ => true
  | _ => false

/-- The type of a comparison between values of a type: a truth value, or a vector of them. -/
def truthType : Ty → Ty
  | .vector len _ => .vector len (.int 1)
  | _ => .int 1

/-- The type of the value an instruction makes, if it makes one. A line of which only the opcode
was understood has a type if the opcode alone tells it. -/
def resultType? : Op → Option Ty
  | icmp _ _ ty .. | fcmp _ _ ty .. => some (truthType ty)
  | alloca .. | gep .. => some .ptr
  | other opcode =>
    if opcode = "icmp" ∨ opcode = "fcmp" then some (.int 1)
    else if opcode = "alloca" ∨ opcode = "getelementptr" then some .ptr
    else none
  | op => op.ty?.filter (! ·.isVoid)

end Op

/-- One line of a block. -/
structure Instruction where
  /-- The name the line gives to its value. -/
  result : Option String
  op : Op
  /-- The source text, for messages. -/
  text : String
  offset : Nat

/-- The type of what an instruction defines. -/
def Instruction.resultType? (i : Instruction) : Option Ty := i.result.bind fun _ => i.op.resultType?

/-- A block as it is written. -/
structure Block where
  label : String
  instructions : List Instruction
  offset : Nat

/-- A parameter, with the name it has or is given. -/
structure Param where
  ty : Ty
  name : String

/-- A function as it is written. -/
structure Function where
  name : String
  returnType : Ty
  params : List Param
  varargs : Bool
  isDeclaration : Bool
  linkage : List String
  /-- The function that handles exceptions. -/
  personality : Option String
  blocks : List Block
  offset : Nat

namespace Function

/-- The type of a function. -/
def type (f : Function) : Ty := .function f.returnType (f.params.map Param.ty) f.varargs

/-- The named values of a function with their types: parameters, then results in order. -/
def namedValues (f : Function) : List (String × Ty) :=
  f.params.map (fun p => (p.name, p.ty)) ++
    f.blocks.flatMap fun b => b.instructions.filterMap fun i => do
      return (← i.result, ← i.resultType?)

/-- The type of a named value; of several with one name the last counts. -/
def valueType? (f : Function) (name : String) : Option Ty :=
  (f.namedValues.reverse.find? (·.1 == name)).map Prod.snd

end Function

/-- A global as it is written. -/
structure Global where
  name : String
  ty : Ty
  isConstant : Bool
  initializer : Option Value
  linkage : List String
  align : Option Nat
  offset : Nat

/-- The bytes of an initializer that is plain data: a byte string, or an array of integers whose
width is a whole number of bytes, each little-endian and cut to its width. -/
def Global.data? (g : Global) : Option (List UInt8) :=
  match g.initializer, g.ty with
  | some (.bytes data), _ => some data
  | some (.array items), .array _ (.int bits) =>
    if bits % 8 = 0 ∧ bits ≤ 128 then
      (items.mapM fun (item : Operand) => match item.2 with
        | Value.int value => some (Bytes.ofInt (bits / 8) value)
        | _ => none).map List.flatten
    else none
  | _, _ => none

/-- A named type; one without a body is opaque. -/
structure TypeDef where
  name : String
  body : Option Ty

/-- A module as it is written. -/
structure Module where
  sourceFilename : Option String := none
  triple : Option String := none
  dataLayout : Option String := none
  types : List TypeDef := []
  globals : List Global := []
  functions : List Function := []

end SafeIR.Source
