import SafeIR.Memory
import SafeIR.Text.Quoted

/-!
# Host functions

Functions that the program declares and never defines are bound by name to functions of the host.
They exchange dynamically typed values with generated code and may use the guest memory.

* `Value`: a value with its type; `Value.get` extracts one type and traps on any other.
* `Context`: the guest memory together with the bound host functions.
-/

namespace SafeIR

/-- A value that crosses the boundary to the host. Floats are bit patterns. -/
inductive Value where
  | void
  | i1 (b : Bool)
  | i8 (v : BitVec 8)
  | i16 (v : BitVec 16)
  | i32 (v : BitVec 32)
  | i64 (v : BitVec 64)
  | i128 (v : BitVec 128)
  | f32 (bits : BitVec 32)
  | f64 (bits : BitVec 64)
  | ptr (address : BitVec 64)
  deriving DecidableEq, Repr

/-- The type of a value. -/
inductive Value.Kind where
  | void | i1 | i8 | i16 | i32 | i64 | i128 | f32 | f64 | ptr
  deriving DecidableEq, Repr

namespace Value

def Kind.name : Kind → String
  | .void => "void" | .i1 => "i1" | .i8 => "i8" | .i16 => "i16" | .i32 => "i32" | .i64 => "i64"
  | .i128 => "i128" | .f32 => "f32" | .f64 => "f64" | .ptr => "ptr"

def Kind.all : List Kind := [.void, .i1, .i8, .i16, .i32, .i64, .i128, .f32, .f64, .ptr]

def Kind.ofName? (s : String) : Option Kind := all.find? (·.name == s)

/-- The kind of a value. -/
def kind : Value → Kind
  | void => .void
  | i1 _ => .i1
  | i8 _ => .i8
  | i16 _ => .i16
  | i32 _ => .i32
  | i64 _ => .i64
  | i128 _ => .i128
  | f32 _ => .f32
  | f64 _ => .f64
  | ptr _ => .ptr

/-- The value itself when it has the type asked for, and a trap otherwise. -/
def get (k : Kind) (v : Value) : Outcome Value :=
  if v.kind = k then .ok v else .error (.trap .externalSignatureMismatch)

end Value

/-- A host function. It keeps what it did to the memory also when it fails. -/
def HostFunction := Memory → List Value → Outcome Value × Memory

/-- The state that generated code runs in. -/
structure Context where
  memory : Memory
  externals : List (String × HostFunction)

namespace Context

/-- A context without external functions. -/
def ofMemory (m : Memory) : Context := ⟨m, []⟩

/-- Bind a name, in place of any earlier binding of it. -/
def register (ctx : Context) (name : String) (f : HostFunction) : Context :=
  { ctx with externals := (name, f) :: ctx.externals.filter (·.1 != name) }

/-- The external function of a name. -/
def external? (ctx : Context) (name : String) : Option HostFunction := ctx.externals.lookup name

/-- Call a host function; a name that nothing is bound to traps. -/
def callExternal (ctx : Context) (name : String) (args : List Value) : Outcome Value × Context :=
  match ctx.external? name with
  | none => (.error (.trap .unresolvedExternal), ctx)
  | some f =>
    let (result, memory) := f ctx.memory args
    (result, { ctx with memory })

/-- One line that shows the sizes and the bound names in order. -/
def describe (ctx : Context) : String :=
  let names := (ctx.externals.map (·.1)).mergeSort (· ≤ ·)
  "Context \x7b memory_size: " ++ toString ctx.memory.size ++ ", stack_pointer: " ++
    toString ctx.memory.sp ++ ", externals: [" ++ ", ".intercalate (names.map Text.quote) ++
    "] \x7d"

end Context

end SafeIR
