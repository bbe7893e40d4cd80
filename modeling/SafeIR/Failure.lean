import SafeIR.IR.Module
import SafeIR.Layout.Scalar
import SafeIR.Source.Error
import SafeIR.Version

/-!
# Failures

Why a module could not be read or lowered. Each cause is a constructor; `Failure.message` is the
wording. Only a function that grew too large can be replaced, so only that failure is recoverable.
-/

namespace SafeIR

/-- The number of an open module. -/
structure Handle where
  number : Nat
  deriving DecidableEq, Repr

/-- A handle, in messages. -/
def Handle.text (h : Handle) : String := "#" ++ toString h.number

/-- Where in a module something is wrong. -/
inductive Place where
  | function (name : String)
  | block (function label : String)
  | global (name : String)
  | initializer (name : String)
  deriving DecidableEq, Repr

/-- A place, in messages. -/
def Place.text : Place → String
  | function name => "function @" ++ name
  | block f label => "function @" ++ f ++ ", block %" ++ label
  | global name => "global @" ++ name
  | initializer name => "initializer of @" ++ name

/-- Ways in which a module contradicts itself. -/
inductive Malformed where
  | symbolTwice (name : String)
  | labelTwice (label : String) (place : Place)
  | valueTwice (name : String) (place : Place)
  /-- A name for the result of an instruction that makes none. -/
  | noValue (name : String) (place : Place)
  | unknownType (name : String) (place : Place)
  | unknownSymbol (name : String) (place : Place)
  | unknownValue (name : String) (place : Place)
  | unknownBlock (name : String) (place : Place)
  | localConstant (name : String) (place : Place)
  | metadataConstant (text : String) (place : Place)
  | emptyBlock (label : String) (place : Place)
  | earlyTerminator (opcode label : String) (place : Place)
  | noTerminator (label : String) (place : Place)
  | badCase (value : String) (place : Place)
  /-- A phi without an entry for a block that branches to it. -/
  | noIncoming (target source : String)
  | strayBranch (target : IR.BlockId)
  | strayGlobal (id : IR.GlobalId)
  | noIdentifier (name : String)

/-- What is wrong with a module. -/
def Malformed.message : Malformed → String
  | symbolTwice name => "symbol @" ++ name ++ " defined twice"
  | labelTwice label place => "block label %" ++ label ++ " defined twice in " ++ place.text
  | valueTwice name place => "%" ++ name ++ " defined more than once in " ++ place.text
  | noValue name place => "%" ++ name ++ " in " ++ place.text ++ " names a value of no type"
  | unknownType name place => "unknown type %" ++ name ++ " in " ++ place.text
  | unknownSymbol name place => "unknown symbol @" ++ name ++ " in " ++ place.text
  | unknownValue name place => "unknown value %" ++ name ++ " in " ++ place.text
  | unknownBlock name place => "unknown block %" ++ name ++ " in " ++ place.text
  | localConstant name place => "local %" ++ name ++ " used as a constant in " ++ place.text
  | metadataConstant text place =>
    "metadata `" ++ text ++ "` used as a constant in " ++ place.text
  | emptyBlock label place => "block %" ++ label ++ " in " ++ place.text ++ " is empty"
  | earlyTerminator opcode label place =>
    "terminator `" ++ opcode ++ "` in the middle of block %" ++ label ++ " in " ++ place.text
  | noTerminator label place =>
    "block %" ++ label ++ " in " ++ place.text ++ " does not end with a terminator"
  | badCase value place => "switch case " ++ value ++ " is not an integer in " ++ place.text
  | noIncoming target source =>
    "phi in %" ++ target ++ " has no value for predecessor %" ++ source
  | strayBranch target => "branch to unknown block " ++ target.text
  | strayGlobal id => "unknown global " ++ id.text
  | noIdentifier name => "no identifier for @" ++ name

/-- Why a type cannot be used. -/
inductive TypeProblem where
  | tooWide (limit : Nat)
  | uncommonWidth
  | uncommonFloat
  | notValue
  /-- A parameter or return type, as `what` says, that is no scalar. -/
  | aggregate (what function : String)
  | variadic
  deriving DecidableEq, Repr

/-- Why a type has no counterpart. -/
def TypeProblem.message : TypeProblem → String
  | tooWide limit => "wider than the profile's " ++ toString limit ++ "-bit limit"
  | uncommonWidth => "only i1, i8, i16, i32, i64 and i128 are mapped"
  | uncommonFloat => "no Rust float of this format"
  | notValue => "not a value type"
  | aggregate what function => "aggregate " ++ what ++ " of @" ++ function
  | variadic => "variadic functions cannot be defined"

/-- A type, or the function with it, and why it cannot be used. -/
structure UnsupportedType where
  subject : String
  problem : TypeProblem
  deriving DecidableEq, Repr

/-- The type and what is wrong with it. -/
def UnsupportedType.message (t : UnsupportedType) : String :=
  "unsupported type `" ++ t.subject ++ "`: " ++ t.problem.message

/-- Things a module may say that have no counterpart in generated code. -/
inductive Construct where
  | opcode (word : String)
  | vectorType (text : String)
  | recursiveType (name : String)
  | opaqueType (name : String)
  | functionAddress (name : String)
  /-- Constant data that ends behind the image. -/
  | overrun (ty : IR.Ty)
  | strayReference (id : IR.GlobalId)
  | tooManyBytes (count : Nat) (ty : IR.Ty)
  | mismatch (value : IR.Constant) (ty : IR.Ty)
  | unmapped (ty : UnsupportedType)

/-- A construct, in messages. -/
def Construct.message : Construct → String
  | opcode word => "opcode `" ++ word ++ "`"
  | vectorType text => "vector type `" ++ text ++ "`"
  | recursiveType name => "type %" ++ name ++ " contains itself"
  | opaqueType name => "opaque type %" ++ name
  | functionAddress name => "address of function @" ++ name ++ " in constant data"
  | overrun ty => "constant of type " ++ ty.text ++ " overruns its global"
  | strayReference id => "reference to unknown global " ++ id.text
  | tooManyBytes count ty => toString count ++ " bytes do not fit in " ++ ty.text
  | mismatch value ty => "cannot encode " ++ value.describe ++ " as " ++ ty.text
  | unmapped ty => ty.message

/-- Why an arithmetic operation does not exist at a scalar. -/
inductive NoArithmetic where
  | onInt (op : BinaryOp) (scalar : Layout.Scalar)
  | onBool (op : BinaryOp)
  | onFloat (op : BinaryOp)
  | onPtr (op : BinaryOp)
  deriving DecidableEq, Repr

/-- An operation without code, in messages. -/
def NoArithmetic.message : NoArithmetic → String
  | onInt op scalar => "`" ++ op.word ++ "` on integer type " ++ scalar.typeName
  | onBool op => "`" ++ op.word ++ "` on i1 is not supported"
  | onFloat op => "`" ++ op.word ++ "` on a float type"
  | onPtr op => "`" ++ op.word ++ "` on a pointer"

/-- Why an instruction cannot be lowered. -/
inductive Obstacle where
  | aggregateValue (ty : IR.Ty)
  | aggregateConstant
  | functionValue (name : String)
  | metadata
  | noResult (what : String)
  | notFloat (opcode : String) (ty : IR.Ty)
  | arithmetic (problem : NoArithmetic)
  | noCast (source target : IR.Ty)
  | badCount
  | dynamicField
  | noField (index : Int)
  | notAggregate
  | indirectCall
  | mismatchedArguments (name : String)
  | argumentCount (name : String) (expected got : Nat)
  | noOverload (ty name : String)
  | mixedOperands (name : String) (scalar : Layout.Scalar) (ty : IR.Ty)
  | badReturn (name : String) (scalar : Layout.Scalar) (ty : IR.Ty)

/-- Why an instruction has no code. -/
def Obstacle.message : Obstacle → String
  | aggregateValue ty => "aggregate value of type " ++ ty.text
  | aggregateConstant => "aggregate constant operand"
  | functionValue name => "address of @" ++ name ++ " used as a value"
  | metadata => "metadata operand"
  | noResult what => what ++ " without a result"
  | notFloat opcode ty => opcode ++ " on " ++ ty.text
  | arithmetic problem => problem.message
  | noCast source target => "cannot cast " ++ source.text ++ " to " ++ target.text
  | badCount => "non-integer element count"
  | dynamicField => "dynamic struct index"
  | noField index => "struct index " ++ toString index ++ " out of range"
  | notAggregate => "index into a non-aggregate type"
  | indirectCall => "indirect calls are not supported"
  | mismatchedArguments name => "call of @" ++ name ++ " with mismatched arguments"
  | argumentCount name expected got =>
    "@" ++ name ++ " expects " ++ toString expected ++ " arguments, got " ++ toString got
  | noOverload ty name => "no " ++ ty ++ " overload of @" ++ name
  | mixedOperands name scalar ty =>
    "@" ++ name ++ " mixes " ++ scalar.typeName ++ " and " ++ ty.text ++ " operands"
  | badReturn name scalar ty =>
    "@" ++ name ++ " on " ++ scalar.typeName ++ " cannot return " ++ ty.text

/-- Why a module is not read or not translated. -/
inductive Failure where
  | invalidHandle (handle : Handle)
  /-- The text is no module. -/
  | source (error : Source.Error)
  | malformed (cause : Malformed)
  | unsupportedConstruct (what : Construct) (place : Place)
  | unsupportedType (ty : UnsupportedType)
  | unsupportedIntrinsic (name function block : String)
  | unsupportedInstruction (opcode function block : String) (why : Obstacle)
  | tooManyStatements (function : String) (statements limit : Nat)
  | incompatibleVersion (found required : Version)
  | cancelled
  | unreadable (path reason : String)
  /-- A truth value as the initializer of a global without bytes: there is nowhere to put it. -/
  | noByte (name : String)

namespace Failure

/-- What a failure says. -/
def message : Failure → String
  | invalidHandle handle => "invalid or released module handle " ++ handle.text
  | source e =>
    "parse error at byte " ++ toString e.offset ++ ": line " ++ toString e.position.line
      ++ ", column " ++ toString e.position.column ++ ": " ++ e.cause.message
  | malformed cause => "parse error: " ++ cause.message
  | unsupportedConstruct what place =>
    "unsupported construct in " ++ place.text ++ ": " ++ what.message
  | unsupportedType ty => ty.message
  | unsupportedIntrinsic name function block =>
    "unsupported intrinsic `" ++ name ++ "` called from @" ++ function ++ " (block %" ++ block ++
      ")"
  | unsupportedInstruction opcode function block why =>
    "cannot lower `" ++ opcode ++ "` in @" ++ function ++ " (block %" ++ block ++ "): "
      ++ why.message
  | tooManyStatements function statements limit =>
    "function " ++ function ++ " has " ++ toString statements ++ " statements, limit is "
      ++ toString limit
  | incompatibleVersion found required =>
    "shim version " ++ found.text ++ " is incompatible with required " ++ required.text
  | cancelled => "translation cancelled"
  | unreadable path reason => "failed to read " ++ path ++ ": " ++ reason
  | noByte name => "no byte for the initializer of @" ++ name

/-- Whether the function at fault can be replaced by a stub. -/
def isRecoverable : Failure → Bool
  | tooManyStatements .. => true
  | _ => false

end Failure

end SafeIR
