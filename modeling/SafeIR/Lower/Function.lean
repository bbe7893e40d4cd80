import SafeIR.Intrinsic.Lookup
import SafeIR.Layout.Image
import SafeIR.Lower.Operation
import SafeIR.Lower.Throwing
import SafeIR.Power

/-!
# Lowering of functions

`Lower.function` gives the code of one function. Blocks keep their order, so block `n` of the code
is block `n` of the function. A phi is an assignment on every edge into its block. A landing pad
takes every exception that reaches it: its clauses are not compared with the exception.
-/

namespace SafeIR.Lower

open IR (Block BlockId Constant FuncId GlobalId Operand Typed ValueId)
open Layout (Scalar)
open Target (Action Call Expr Step Stmt Var)

/-- What lowering gives. -/
abbrev Result := Except Failure

/-- What the lowering of every function of a module may look at. -/
structure Setting where
  module : IR.Module
  profile : Profile
  /-- The places of the globals. -/
  globals : List Layout.Entry
  /-- The identifiers of the functions, in their order. -/
  names : List String

/-- The types of the landing pads of a function. -/
def padTypes (f : IR.Function) : List IR.Ty :=
  f.instructions.filterMap fun i => match i.op with
    | .landingpad ty .. => some ty
    | _ => none

/-- The values that hold an exception: landing pads, and phis of the type of one. -/
def exceptionValues (f : IR.Function) : List ValueId :=
  f.instructions.filterMap fun i => match i.op with
    | .landingpad .. => i.result
    | .phi ty _ => if ty ∈ padTypes f then i.result else none
    | _ => none

/-- What the lowering of one function looks at. -/
structure Frame where
  setting : Setting
  function : IR.Function
  /-- The values that hold an exception. -/
  exceptions : List ValueId

/-- The block and opcode that a message names. -/
structure Site where
  block : Block
  opcode : String

namespace Frame

/-- The layout of a type. -/
def layout (fr : Frame) (ty : IR.Ty) : Result Layout :=
  (Layout.ofType fr.setting.profile.maxIntWidth ty).mapError .unsupportedType

/-- There is no code for the site. -/
def refuse {α : Type} (fr : Frame) (s : Site) (why : Obstacle) : Result α :=
  .error (.unsupportedInstruction s.opcode fr.function.name s.block.label why)

/-- The scalar of a type; values have no parts. -/
def scalar (fr : Frame) (s : Site) (ty : IR.Ty) : Result Scalar := do
  match (← fr.layout ty).scalar? with
  | some scalar => return scalar
  | none => fr.refuse s (.aggregateValue ty)

/-! ## Signature and variables -/

/-- The type of a parameter or of the result; `what` says which. -/
def boundaryType (fr : Frame) (ty : IR.Ty) (what : String) : Result Target.Ty := do
  match ← fr.layout ty with
  | .void => return .unit
  | l =>
    match l.scalar? with
    | some scalar => return scalar.ty
    | none => .error (.unsupportedType ⟨ty.text, .aggregate what fr.function.name⟩)

/-- The parameters and the result. -/
def signature (fr : Frame) : Result (List (Var × Target.Ty) × Target.Ty) := do
  if fr.function.varargs then
    .error (.unsupportedType ⟨"@" ++ fr.function.name, .variadic⟩)
  else
    let ret ← fr.boundaryType fr.function.ret "return type"
    let params ← fr.function.params.mapM fun p => do
      return (Var.value p, ← fr.boundaryType (fr.function.typeOf p) "parameter")
    return (params, ret)

/-- Some call has a handler. -/
def hasInvoke (f : IR.Function) : Bool :=
  f.blocks.any fun b => match b.terminator with
    | .invoke .. => true
    | _ => false

/-- The variable for a value, unless it has no representation. -/
def localOf? (fr : Frame) (id : ValueId) (ty : IR.Ty) : Option Target.Local :=
  if id ∈ fr.exceptions then some (.exception (.value id))
  else match fr.layout ty with
    | .ok l => l.scalar?.map (.scalar id)
    | .error _ => none

/-- The variables that are declared: those of all results, and the exception slot. -/
def locals (fr : Frame) : List Target.Local :=
  ((fr.function.values.zipIdx.drop fr.function.params.length).filterMap fun (info, i) =>
    fr.localOf? ⟨i⟩ info.ty) ++ (if hasInvoke fr.function then [.exception .exception] else [])

/-- The variable for a result, if it has one. -/
def dest? (fr : Frame) (result : Option ValueId) : Option Var :=
  (result.filter fun v => fr.function.typeOf v ≠ .void).map .value

/-! ## Operands -/

/-- The constant that holds an address. -/
def globalName (fr : Frame) (id : GlobalId) : Result Expr :=
  match Layout.Image.find? fr.setting.globals id with
  | some e => return .global e.constName
  | none => .error (.malformed (.strayGlobal id))

/-- A constant at a scalar. -/
def constant (fr : Frame) (s : Site) (scalar : Scalar) : Constant → Result Expr
  | .int v => return .int v scalar
  | .bool b => return .int (if b then 1 else 0) scalar
  | .float bits => return .float bits scalar
  | .null | .zero | .undef => return .zero scalar
  | _ => fr.refuse s .aggregateConstant

/-- The expression for an operand. -/
def operand (fr : Frame) (s : Site) (ty : IR.Ty) : Operand → Result Expr
  | .value id => return .var (.value id)
  | .global g | .const (.global g) => fr.globalName g
  | .const c => do fr.constant s (← fr.scalar s ty) c
  | .function f =>
    match fr.setting.module.functions[f.index]? with
    | some callee => fr.refuse s (.functionValue callee.name)
    | none => .error (.malformed (.noIdentifier f.text))
  | .metadata _ => fr.refuse s .metadata

def operands (fr : Frame) (s : Site) (args : List Typed) : Result (List Expr) :=
  args.mapM fun (ty, o) => fr.operand s ty o

/-! ## Edges -/

/-- The value that a phi takes when control comes from a block. -/
def arrival (fr : Frame) (source target : Block) (dest : ValueId) (ty : IR.Ty)
    (incoming : List (Operand × BlockId)) : Result (Var × Expr) :=
  match incoming.find? (·.2 = source.id) with
  | none => .error (.malformed (.noIncoming target.label source.label))
  | some (value, _) =>
    if dest ∈ fr.exceptions then
      match value with
      | .value v => return (.value dest, .clone (.value v))
      | _ => return (.value dest, .none)
    else return (.value dest, ← fr.operand ⟨source, "phi"⟩ ty value)

/-- The assignments to the phis of a block on the edge from another. -/
def arrivals (fr : Frame) (source target : Block) : Result (List (Var × Expr)) := do
  let pairs ← target.instructions.mapM fun i => match i.op, i.result with
    | .phi ty incoming, some dest => return some (← fr.arrival source target dest ty incoming)
    | _, _ => return none
  return pairs.filterMap id

/-- The steps along an edge: the phis, then the switch to the block. -/
def edge (fr : Frame) (source : Block) (target : BlockId) : Result (List Step) :=
  match fr.function.blocks[target.index]? with
  | none => .error (.malformed (.strayBranch target))
  | some block => return copies (← fr.arrivals source block) ++ [.goto target]

/-! ## Addresses -/

/-- The 64-bit two's complement integer that is congruent to an integer. -/
def wrap64 (v : Int) : Int := Int.bmod v (twoPow 64)

/-- The constant offset and the variable terms of indices into a layout that is not the first to be
indexed. -/
def innerOffsets (fr : Frame) (s : Site) :
    Layout → Int → List Typed → Result (Int × List (Expr × Int))
  | _, offset, [] => return (offset, [])
  | layout, offset, (ty, index) :: indices =>
    match layout with
    | .array elem _ =>
      match index.asInt? with
      | some k => innerOffsets fr s elem (wrap64 (offset + k * elem.stride)) indices
      | none => do
        let e ← fr.operand s ty index
        let (offset, terms) ← innerOffsets fr s elem offset indices
        return (offset, (e, wrap64 elem.stride) :: terms)
    | .struct packed fields =>
      match index.asInt? with
      | none => fr.refuse s .dynamicField
      | some k =>
        match if 0 ≤ k then fields[k.toNat]? else none,
          (Layout.struct packed fields).offsets[k.toNat]? with
        | some field, some start =>
          innerOffsets fr s field (wrap64 (offset + start)) indices
        | _, _ => fr.refuse s (.noField k)
    | _ => fr.refuse s .notAggregate

/-- The constant offset and the variable terms of an address: the first index counts whole
objects, the others go into the object. -/
def offsets (fr : Frame) (s : Site) (source : IR.Ty) (indices : List Typed) :
    Result (Int × List (Expr × Int)) := do
  let layout ← fr.layout source
  match indices with
  | [] => return (0, [])
  | (ty, index) :: indices =>
    match index.asInt? with
    | some k => fr.innerOffsets s layout (wrap64 (k * layout.stride)) indices
    | none =>
      let e ← fr.operand s ty index
      let (offset, terms) ← fr.innerOffsets s layout 0 indices
      return (offset, (e, wrap64 layout.stride) :: terms)

/-- The number of bytes that an allocation takes. -/
def allocationSize (fr : Frame) (s : Site) (size : Nat) : Option Operand → Result Expr
  | none => return .number size (.unsigned 64)
  | some count =>
    match count.asInt?, count with
    | some n, _ => return .number (constantSize size n) (.unsigned 64)
    | none, .value v => return dynamicSize size (.var (.value v))
    | none, _ => fr.refuse s .badCount

/-! ## Calls -/

/-- The two successors of a call that has a handler. -/
structure Edges where
  normal : BlockId
  unwind : BlockId

/-- A call with a handler: an exception takes the unwind edge, a trap leaves the function. -/
def matchOutcome (fr : Frame) (source : Block) (call : Call) (dest : Option Var) (edges : Edges) :
    Result (List Stmt) := do
  let normal ← fr.edge source edges.normal
  let unwind ← fr.edge source edges.unwind
  let keep := (dest.map fun d => Step.assign d (.pure .outcomeValue)).toList
  return [.matchOutcome call (keep ++ normal) (.hold :: unwind)]

/-- All operands of an overloaded intrinsic, and its result, are of one scalar. -/
def checkOverload (fr : Frame) (s : Site) (name : String) (scalar : Scalar) (ret : IR.Ty) :
    List Typed → Result Unit
  | [] =>
    match ret with
    | .void => fr.refuse s (.badReturn name scalar ret)
    | ret => do
      if (← fr.scalar s ret) = scalar then return ()
      else fr.refuse s (.badReturn name scalar ret)
  | (ty, _) :: args => do
    if (← fr.scalar s ty) = scalar then fr.checkOverload s name scalar ret args
    else fr.refuse s (.mixedOperands name scalar ty)

/-- The arguments of a memory function, each cast to the type it takes. -/
def castArgs : List Target.Ty → List Expr → List Expr
  | _, [] => []
  | [], e :: es => .cast e (.unsigned 64) :: castArgs [] es
  | ty :: tys, e :: es => .cast e ty :: castArgs tys es

/-- The scalar of the first argument, which selects among overloads. -/
def overload (fr : Frame) (s : Site) (entry : Intrinsic.Entry) :
    List Typed → Result (Option Scalar)
  | [] => return none
  | (ty, _) :: _ => if entry.overloads.isEmpty then return none else return some (← fr.scalar s ty)

/-- The code of an intrinsic. -/
def intrinsic (fr : Frame) (s : Site) (entry : Intrinsic.Entry) (name : String)
    (site : IR.CallSite) (dest : Option Var) (edges : Option Edges) : Result (List Stmt) := do
  let leave : Result (List Stmt) := match edges with
    | some edges => return (← fr.edge s.block edges.normal).map .step
    | none => return []
  if entry.strategy = .noOp then leave
  else if site.args.length ≠ entry.operandCount then
    fr.refuse s (.argumentCount name entry.operandCount site.args.length)
  else
    let typed := site.args.take entry.arity
    let args ← fr.operands s typed
    let scalar ← fr.overload s entry typed
    match entry.path? (scalar.map Scalar.typeName) with
    | none => fr.refuse s (.noOverload ((scalar.map Scalar.typeName).getD "this type") name)
    | some path =>
      match scalar with
      | some scalar => fr.checkOverload s name scalar site.ret typed
      | none => pure ()
      match entry.strategy with
      | .pure _ => return .step (into dest (.intrinsic path args false false)) :: (← leave)
      | .fallible _ => return .step (into dest (.intrinsic path args true false)) :: (← leave)
      | .memory _ =>
        return .step (into dest (.intrinsic path (castArgs entry.casts args) true true))
          :: (← leave)
      | .mayThrow _ =>
        let call : Throwing :=
          { entry, path, args, constants := typed.map fun a => a.2.asInt?
            bits := scalar.map Scalar.bits, dest }
        let handler ← match edges with
          | some edges =>
            pure (Handler.invoke (← fr.edge s.block edges.normal) (← fr.edge s.block edges.unwind))
          | none => pure .propagate
        return call.lower fr.setting.profile.elideProvenChecks handler
      | .noOp => leave

/-- A call of a function; with a handler, the code ends with the switch along one of the edges. -/
def call (fr : Frame) (s : Site) (site : IR.CallSite) (dest : Option Var) (edges : Option Edges) :
    Result (List Stmt) :=
  match site.callee with
  | .indirect _ => fr.refuse s .indirectCall
  | .direct f =>
    match fr.setting.module.functions[f.index]? with
    | none => .error (.malformed (.noIdentifier f.text))
    | some callee => do
      let ret ← if dest.isSome then pure (← fr.scalar s site.ret).ty else pure Target.Ty.unit
      if ! callee.isDeclaration then
        if callee.varargs ∨ callee.params.length ≠ site.args.length then
          fr.refuse s (.mismatchedArguments callee.name)
        else
          let args ← fr.operands s site.args
          match fr.setting.names[callee.id.index]? with
          | none => .error (.malformed (.noIdentifier callee.name))
          | some name =>
            match edges with
            | none => return [.step (into dest (.call (.function name args)))]
            | some edges => fr.matchOutcome s.block (.function name args) dest edges
      else
        match Intrinsic.lookUp Intrinsic.catalog callee.name with
        | some entry => fr.intrinsic s entry callee.name site dest edges
        | none =>
          match fr.setting.profile.unknownIntrinsics with
          | .reject =>
            .error (.unsupportedIntrinsic callee.name fr.function.name s.block.label)
          | .external =>
            let args ← fr.operands s site.args
            match edges with
            | none =>
              let ret := if dest.isSome then some ret else none
              return [.step (into dest (.call (.external callee.name args ret)))]
            | some edges =>
              -- A result that is not used is dropped, whatever its type.
              let ret := if dest.isNone ∧ site.ret ≠ .void then none else some ret
              fr.matchOutcome s.block (.external callee.name args ret) dest edges

/-! ## Blocks -/

/-- The variable for a result that must be there; `what` names the operation. -/
def dest (fr : Frame) (s : Site) (result : Option ValueId) (what : String) : Result Var :=
  match fr.dest? result with
  | some v => return v
  | none => fr.refuse s (.noResult what)

/-- The code of an instruction. -/
def instruction (fr : Frame) (block : Block) (i : IR.Instruction) : Result (List Stmt) := do
  let s : Site := ⟨block, i.op.opcode⟩
  let assign (what : String) (a : Action) : Result (List Stmt) := do
    return [.step (.assign (← fr.dest s i.result what) a)]
  match i.op with
  | .binary op flags ty l r =>
    let scalar ← fr.scalar s ty
    let l ← fr.operand s ty l
    let r ← fr.operand s ty r
    let dest ← fr.dest s i.result "binary operation"
    match binary dest op scalar l r flags fr.setting.profile.overflow with
    | .ok steps => return steps.map .step
    | .error problem => fr.refuse s (.arithmetic problem)
  | .icmp pred ty l r =>
    let scalar ← fr.scalar s ty
    let l ← fr.operand s ty l
    let r ← fr.operand s ty r
    assign "comparison" (.pure (icmp pred scalar l r))
  | .fcmp pred ty l r =>
    if ! (← fr.scalar s ty).isFloat then fr.refuse s (.notFloat "fcmp" ty)
    else
      let l ← fr.operand s ty l
      let r ← fr.operand s ty r
      assign "comparison" (.pure (fcmp pred l r))
  | .fneg ty v =>
    if ! (← fr.scalar s ty).isFloat then fr.refuse s (.notFloat "fneg" ty)
    else
      let v ← fr.operand s ty v
      assign "fneg" (.pure (.neg v))
  | .select ty cond yes no =>
    let _ ← fr.scalar s ty
    let cond ← fr.operand s (.int 1) cond
    let yes ← fr.operand s ty yes
    let no ← fr.operand s ty no
    assign "select" (.pure (.ifElse cond yes no))
  | .cast op source target v =>
    let sourceScalar ← fr.scalar s source
    let targetScalar ← fr.scalar s target
    let v ← fr.operand s source v
    let dest ← fr.dest s i.result "cast"
    match cast? op sourceScalar targetScalar v with
    | some a => return [.step (.assign dest a)]
    | none => fr.refuse s (.noCast source target)
  | .alloca ty count align =>
    let layout ← fr.layout ty
    let size ← fr.allocationSize s layout.size count
    assign "alloca" (.alloca size (max (max (align.getD 1) layout.align) 1))
  | .load ty address =>
    let scalar ← fr.scalar s ty
    let address ← fr.operand s .ptr address
    assign "load" (.load scalar address)
  | .store ty v address =>
    let scalar ← fr.scalar s ty
    let v ← fr.operand s ty v
    let address ← fr.operand s .ptr address
    return [.step (.run (.store scalar address v))]
  | .gep source base indices =>
    let base ← fr.operand s .ptr base
    let (offset, terms) ← fr.offsets s source indices
    assign "getelementptr" (.pure (address base offset terms))
  | .phi .. => return []
  | .call site => fr.call s site (fr.dest? i.result) none
  | .landingpad .. => assign "landingpad" (.pure (.take .exception))

/-- The code at the end of a block. -/
def terminator (fr : Frame) (block : Block) : Result (List Stmt) := do
  let s : Site := ⟨block, block.terminator.opcode⟩
  match block.terminator with
  | .ret none => return [.ret none]
  | .ret (some (ty, v)) => return [.ret (some (← fr.operand s ty v))]
  | .br target => return (← fr.edge block target).map .step ++ [.next]
  | .condBr cond yes no =>
    let cond ← fr.operand s (.int 1) cond
    let yes ← fr.edge block yes
    let no ← fr.edge block no
    return [.ifElse cond yes no, .next]
  | .switch ty v default cases =>
    let scalar ← fr.scalar s ty
    let v ← fr.operand s ty v
    let cases ← cases.mapM fun (value, target) => do
      return (Expr.int value scalar, ← fr.edge block target)
    return [.switch v cases (← fr.edge block default), .next]
  | .invoke result site normal unwind =>
    return (← fr.call s site (fr.dest? result) (some ⟨normal, unwind⟩)) ++ [.next]
  | .resume (.value v) => return [.resume (.take (.value v))]
  | .resume _ => return [.resume .none]
  | .unreachable => return [.unreachable]

/-- The code of a block. -/
def block (fr : Frame) (b : Block) : Result (List Stmt) := do
  let body ← b.instructions.mapM (fr.instruction b)
  return body.flatten ++ (← fr.terminator b)

end Frame

/-- Some instruction allocates on the stack. -/
def usesFrame (f : IR.Function) : Bool :=
  f.instructions.any fun i => match i.op with
    | .alloca .. => true
    | _ => false

/-- Whether a function is one block that goes nowhere. -/
def isFlat (f : IR.Function) : Bool :=
  match f.blocks with
  | [b] => b.terminator.successors.isEmpty
  | _ => false

/-- The code of a function. -/
def function (setting : Setting) (f : IR.Function) : Result Target.Function := do
  let fr : Frame := ⟨setting, f, exceptionValues f⟩
  match setting.names[f.id.index]? with
  | none => .error (.malformed (.noIdentifier f.name))
  | some name =>
    let (params, ret) ← fr.signature
    let blocks ← f.blocks.mapM fr.block
    return { name, sourceName := f.name, params, ret, locals := fr.locals, blocks
             flat := isFlat f, usesFrame := usesFrame f }

end SafeIR.Lower
