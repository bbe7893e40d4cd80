import SafeIR.Failure
import SafeIR.Mangled.Parse
import SafeIR.Source.Module

/-!
# Queries

What can be asked about a module that is open. `Query.answer` looks at the module alone, so an
answer does not depend on how often or in what order queries are made.
-/

namespace SafeIR

/-- Why a call to a library failed. -/
inductive Library.Error where
  | invalidHandle (handle : Handle)
  | source (error : Source.Error)
  /-- `what` is the kind of thing that there are only `count` of. -/
  | outOfRange (what : String) (index count : Nat)
  | unknownValue (name function : String)
  | unreadable (path reason : String)
  deriving DecidableEq, Repr

/-- What an error says. -/
def Library.Error.message : Library.Error → String
  | invalidHandle handle => "invalid or released module handle " ++ handle.text
  | source e => e.message
  | outOfRange what index count =>
    what ++ " index " ++ toString index ++ " out of range (count " ++ toString count ++ ")"
  | unknownValue name function => "no value named %" ++ name ++ " in function " ++ function
  | unreadable path reason => "failed to read " ++ path ++ ": " ++ reason

/-- A question about an open module. -/
inductive Query where
  | info
  | types
  | globalCount
  | global (index : Nat)
  | functionCount
  | function (index : Nat)
  | block (function index : Nat)
  | instruction (function block index : Nat)
  | valueType (function : Nat) (name : String)
  | returnType (function : Nat)
  | functionType (function : Nat)
  | constantData (global : Nat)
  | demangledName (function : Nat)
  | noSignedWrap (function block index : Nat)
  | noUnsignedWrap (function block index : Nat)
  deriving DecidableEq, Repr

/-- The answers to all calls. -/
inductive Answer where
  | done
  | handle (h : Handle)
  | count (n : Nat)
  | version (v : Version)
  | info (m : Source.Module)
  | types (ts : List Source.TypeDef)
  | global (g : Source.Global)
  | function (f : Source.Function)
  | block (b : Source.Block)
  | instruction (i : Source.Instruction)
  | type (t : Source.Ty)
  | data (bytes : Option (List UInt8))
  | name (text : Option String)
  | flag (b : Bool)

namespace Query

open Library (Error)

/-- The item at an index, where `what` names the kind of item. -/
def item {α : Type} (what : String) (items : List α) (index : Nat) : Except Error α :=
  match items[index]? with
  | some a => .ok a
  | none => .error (.outOfRange what index items.length)

def functionAt (m : Source.Module) (f : Nat) : Except Error Source.Function :=
  item "function" m.functions f

def blockAt (m : Source.Module) (f b : Nat) : Except Error Source.Block := do
  item "block" (← functionAt m f).blocks b

def instructionAt (m : Source.Module) (f b i : Nat) : Except Error Source.Instruction := do
  item "instruction" (← blockAt m f b).instructions i

def globalAt (m : Source.Module) (g : Nat) : Except Error Source.Global :=
  item "global" m.globals g

/-- The type of a parameter or a result of an instruction. -/
def typeOfValue (m : Source.Module) (f : Nat) (name : String) : Except Error Source.Ty := do
  let fn ← functionAt m f
  match fn.valueType? name with
  | some t => .ok t
  | none => .error (.unknownValue name fn.name)

/-- The answer to a question about a module. -/
def answer [Demangler] (m : Source.Module) : Query → Except Error Answer
  | info => return .info m
  | types => return .types m.types
  | globalCount => return .count m.globals.length
  | global g => return .global (← globalAt m g)
  | functionCount => return .count m.functions.length
  | function f => return .function (← functionAt m f)
  | block f b => return .block (← blockAt m f b)
  | instruction f b i => return .instruction (← instructionAt m f b i)
  | valueType f name => return .type (← typeOfValue m f name)
  | returnType f => return .type (← functionAt m f).returnType
  | functionType f => return .type (← functionAt m f).type
  | constantData g => return .data (← globalAt m g).data?
  | demangledName f => return .name (Demangler.demangle (← functionAt m f).name)
  | noSignedWrap f b i => return .flag (← instructionAt m f b i).op.wrapFlags.nsw
  | noUnsignedWrap f b i => return .flag (← instructionAt m f b i).op.wrapFlags.nuw

end Query

end SafeIR
