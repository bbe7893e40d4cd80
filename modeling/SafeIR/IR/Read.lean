import SafeIR.IR.Resolve
import SafeIR.Mangled.Parse
import SafeIR.Source.Describe
import SafeIR.Source.Parse

/-!
# Resolving modules

`Module.ofSource` turns every name into a reference, expands named types and checks the structure
of blocks. The first thing that is wrong, in the order of the text, is reported: symbols first,
then globals, then functions, and in a function its labels, then its values, then its blocks.
-/

namespace SafeIR.IR

/-- The names that a function body may mention, each list in the order of the references. -/
structure Scope where
  place : Place
  types : TypeTable
  globals : List String
  functions : List String
  values : List String := []
  labels : List String := []

namespace Scope

/-- A type, with its names resolved. -/
def ty (s : Scope) (t : Source.Ty) : Result Ty := s.types.resolve s.place t

/-- The address of a global in constant data. -/
def address (s : Scope) (name : String) : Result Constant :=
  match s.globals.idxOf? name with
  | some i => return .global ⟨i⟩
  | none =>
    if s.functions.contains name then
      .error (.unsupportedConstruct (.functionAddress name) s.place)
    else .error (.malformed (.unknownSymbol name s.place))

mutual

/-- A value that may stand in constant data: a literal or the address of a global. -/
def constant (s : Scope) : Source.Value → Result Constant
  | .int v => return .int v
  | .float bits => return .float bits
  | .bool b => return .bool b
  | .null => return .null
  | .undef | .poison => return .undef
  | .zero => return .zero
  | .bytes data => return .bytes data
  | .array items => return .array (← constants s items)
  | .struct fields => return .struct (← constants s fields)
  | .global name => s.address name
  | .local name => .error (.malformed (.localConstant name s.place))
  | .metadata text => .error (.malformed (.metadataConstant text s.place))

def constants (s : Scope) : List (Source.Ty × Source.Value) → Result (List (Ty × Constant))
  | [] => return []
  | (t, v) :: items => return (← s.ty t, ← constant s v) :: (← constants s items)

end

/-- A value, by its name. -/
def value (s : Scope) (name : String) : Result ValueId :=
  match s.values.idxOf? name with
  | some i => return ⟨i⟩
  | none => .error (.malformed (.unknownValue name s.place))

/-- An operand, by what its name stands for. -/
def operand (s : Scope) : Source.Value → Result Operand
  | .local name => return .value (← s.value name)
  | .global name =>
    match s.globals.idxOf? name, s.functions.idxOf? name with
    | some i, _ => return .global ⟨i⟩
    | none, some i => return .function ⟨i⟩
    | none, none => .error (.malformed (.unknownSymbol name s.place))
  | .metadata text => return .metadata text
  | v => return .const (← s.constant v)

/-- An operand with its type. -/
def typed (s : Scope) (o : Source.Operand) : Result Typed :=
  return (← s.ty o.1, ← s.operand o.2)

/-- A block, by its label. -/
def label (s : Scope) (name : String) : Result BlockId :=
  match s.labels.idxOf? name with
  | some i => return ⟨i⟩
  | none => .error (.malformed (.unknownBlock name s.place))

/-- A call, direct if its callee is a function. -/
def site (s : Scope) (c : Source.Call) : Result CallSite := do
  let callee : Callee := match ← s.operand c.callee with
    | .function f => .direct f
    | target => .indirect target
  return { callee, ret := ← s.ty c.ret, args := ← c.args.mapM s.typed }

/-- An opcode that has no place in a block. -/
def unsupported {α : Type} (s : Scope) (opcode label : String) : Result α :=
  let place := match s.place with
    | .function name => .block name label
    | place => place
  .error (.unsupportedConstruct (.opcode opcode) place)

/-- An operation that is no terminator. -/
def op (s : Scope) (label : String) (o : Source.Op) : Result Op :=
  match o with
  | .binary op flags ty l r =>
    return .binary op flags (← s.ty ty) (← s.operand l) (← s.operand r)
  | .icmp pred _ ty l r => return .icmp pred (← s.ty ty) (← s.operand l) (← s.operand r)
  | .fcmp pred _ ty l r => return .fcmp pred (← s.ty ty) (← s.operand l) (← s.operand r)
  | .fneg _ v => do
    let (ty, value) ← s.typed v
    return .fneg ty value
  | .select cond yes no =>
    return .select (← s.ty yes.1) (← s.operand cond.2) (← s.operand yes.2) (← s.operand no.2)
  | .cast op _ v target => do
    let (source, value) ← s.typed v
    return .cast op source (← s.ty target) value
  | .alloca ty count align =>
    return .alloca (← s.ty ty) (← count.mapM fun c => s.operand c.2) align
  | .load _ ty address _ => return .load (← s.ty ty) (← s.operand address.2)
  | .store _ v address _ => do
    let (ty, value) ← s.typed v
    return .store ty value (← s.operand address.2)
  | .gep _ ty base indices =>
    return .gep (← s.ty ty) (← s.operand base.2) (← indices.mapM s.typed)
  | .phi ty incoming =>
    return .phi (← s.ty ty) (← incoming.mapM fun (v, l) => return (← s.operand v, ← s.label l))
  | .call _ c => return .call (← s.site c)
  | .landingpad ty cleanup clauses => return .landingpad (← s.ty ty) cleanup clauses.length
  | o => s.unsupported o.opcode label

/-- The value of a switch case. -/
def case (s : Scope) (v : Source.Value) : Result Int :=
  match v with
  | .int v => return v
  | .bool b => return if b then 1 else 0
  | v => .error (.malformed (.badCase (v.describe false) s.place))

/-- The end of a block. -/
def terminator (s : Scope) (label : String) (i : Source.Instruction) : Result Terminator :=
  match i.op with
  | .ret v => return .ret (← v.mapM s.typed)
  | .br target => return .br (← s.label target)
  | .condBr cond yes no => return .condBr (← s.operand cond.2) (← s.label yes) (← s.label no)
  | .switch v default cases => do
    let (ty, value) ← s.typed v
    let cases ← cases.mapM fun (c, target) => return (← s.case c.2, ← s.label target)
    return .switch ty value (← s.label default) cases
  | .invoke c normal unwind =>
    return .invoke (← i.result.mapM s.value) (← s.site c) (← s.label normal) (← s.label unwind)
  | .resume v => return .resume (← s.operand v.2)
  | .unreachable => return .unreachable
  | o => s.unsupported o.opcode label

end Scope

/-! ## Functions -/

/-- The values defined so far, in the order of the references. -/
def define (place : Place) (values : List ValueInfo) (name : String) (ty : Ty) :
    Result (List ValueInfo) :=
  if values.any (·.name == name) then .error (.malformed (.valueTwice name place))
  else return values ++ [⟨name, ty⟩]

/-- Define the result of an instruction, if it has one. -/
def defineResult (types : TypeTable) (place : Place) (label : String) (values : List ValueInfo)
    (i : Source.Instruction) : Result (List ValueInfo) :=
  match i.op with
  | .other opcode =>
    Scope.unsupported { place, types, globals := [], functions := [] } opcode label
  | op =>
    match i.result with
    | none => return values
    | some name =>
      match op.resultType? with
      | none => .error (.malformed (.noValue name place))
      | some ty => do define place values name (← types.resolve place ty)

/-- The labels of a function, which are different. -/
def labels (place : Place) : List String → List Source.Block → Result (List String)
  | seen, [] => return seen
  | seen, b :: bs =>
    if seen.contains b.label then .error (.malformed (.labelTwice b.label place))
    else labels place (seen ++ [b.label]) bs

namespace Scope

/-- An instruction that is no terminator. -/
def instruction (s : Scope) (label : String) (i : Source.Instruction) : Result Instruction :=
  if i.op.isTerminator then .error (.malformed (.earlyTerminator i.op.opcode label s.place))
  else return { result := ← i.result.mapM s.value, op := ← s.op label i.op }

/-- A block; its last instruction is its terminator. -/
def block (s : Scope) (index : Nat) (b : Source.Block) : Result Block :=
  match b.instructions.getLast? with
  | none => .error (.malformed (.emptyBlock b.label s.place))
  | some last => do
    let instructions ← b.instructions.dropLast.mapM (s.instruction b.label)
    if ! last.op.isTerminator then .error (.malformed (.noTerminator b.label s.place))
    else return { id := ⟨index⟩, label := b.label, instructions,
                  terminator := ← s.terminator b.label last }

end Scope

/-- A function: parameters first, then results, then blocks. -/
def Function.ofSource [Demangler] (types : TypeTable) (globals functions : List String)
    (index : Nat) (f : Source.Function) : Result Function := do
  let place := .function f.name
  let ret ← types.resolve place f.returnType
  let values ← f.params.foldlM (fun values (p : Source.Param) => do
    define place values p.name (← types.resolve place p.ty)) []
  let function : Function :=
    { id := ⟨index⟩, name := f.name, demangled := Demangler.demangle f.name
      params := (List.range f.params.length).map ValueId.mk, ret, varargs := f.varargs
      isDeclaration := f.isDeclaration, values, blocks := [] }
  if f.isDeclaration then return function
  else
    let labels ← labels place [] f.blocks
    let values ← f.blocks.foldlM (fun values b =>
      b.instructions.foldlM (defineResult types place b.label) values) values
    let scope : Scope :=
      { place, types, globals, functions, labels, values := values.map ValueInfo.name }
    let blocks ← f.blocks.zipIdx.mapM fun (b, i) => scope.block i b
    return { function with values, blocks }

/-! ## Modules -/

/-- A global. -/
def Global.ofSource (types : TypeTable) (globals functions : List String) (index : Nat)
    (g : Source.Global) : Result Global := do
  let scope : Scope := { place := .global g.name, types, globals, functions }
  return { id := ⟨index⟩, name := g.name, ty := ← scope.ty g.ty, isConstant := g.isConstant
           initializer := ← g.initializer.mapM scope.constant, align := g.align }

/-- All symbols of a module are different. -/
def checkSymbols : List String → List String → Result Unit
  | _, [] => return ()
  | seen, name :: names =>
    if seen.contains name then .error (.malformed (.symbolTwice name))
    else checkSymbols (name :: seen) names

/-- A module. -/
def Module.ofSource [Demangler] (m : Source.Module) : Result Module := do
  let types : TypeTable := ⟨m.types⟩
  let globals := m.globals.map Source.Global.name
  let functions := m.functions.map Source.Function.name
  checkSymbols [] (globals ++ functions)
  return { sourceFilename := m.sourceFilename
           globals := ← m.globals.zipIdx.mapM fun (g, i) =>
             Global.ofSource types globals functions i g
           functions := ← m.functions.zipIdx.mapM fun (f, i) =>
             Function.ofSource types globals functions i f }

/-- The module that bytes spell. -/
def Module.read [Demangler] (bytes : List UInt8) : Result Module :=
  match Source.Module.parse bytes with
  | .ok m => Module.ofSource m
  | .error e => .error (.source e)

end SafeIR.IR
