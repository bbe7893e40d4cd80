import SafeIR.Artifact.Emit
import SafeIR.Artifact.Identifier
import SafeIR.Lower.Function

/-!
# Artifacts

An artifact is the generated code of a module: the addresses and the image of its globals and its
functions in the order of the source. A function that is too large is replaced by a stub and
listed as skipped.
-/

namespace SafeIR.Artifact

/-- A function that was written. -/
structure Emitted where
  name : String
  sourceName : String
  blocks : Nat
  code : String
  deriving DecidableEq, Repr

/-- A function that was replaced, and why. -/
structure Skipped where
  name : String
  reason : String
  deriving DecidableEq, Repr

end Artifact

/-- Generated code: the image of the globals and the functions that were written. -/
structure Artifact where
  sourceFilename : Option String := none
  globals : Layout.Image := {}
  functions : List Artifact.Emitted := []
  skipped : List Artifact.Skipped := []

namespace Artifact

/-- The constants for the addresses of the globals. -/
def globalNames (m : IR.Module) : List String :=
  freshAll [] (m.globals.map fun g => globalIdent g.id.index g.name)

/-- The identifiers of the functions, where those that are defined choose first. -/
def functionNames (m : IR.Module) : List String :=
  let ident (f : IR.Function) : String := functionIdent f.id.index f.name f.demangled
  let order := m.defined ++ m.functions.filter (·.isDeclaration)
  let names := (order.map fun f => f.id.index).zip (freshAll reserved (order.map ident))
  m.functions.map fun f => (names.lookup f.id.index).getD ""

/-- The text of a function, and why it is a stub if it is one. -/
def written (f : Target.Function) (limit : Nat) : Except Failure (Emitted × Option Skipped) :=
  let emitted (code : String) : Emitted := ⟨f.name, f.sourceName, f.blocks.length, code⟩
  match emit f limit with
  | .ok code => return (emitted code, none)
  | .error e =>
    if e.isRecoverable then return (emitted (stub f), some ⟨f.sourceName, e.message⟩)
    else .error e

/-- The generated code of a module. A request that is cancelled stops before the first function. -/
def ofModule (options : Options) (cancelled : Bool) (m : IR.Module) : Except Failure Artifact := do
  let names := globalNames m
  let globals ← Layout.Image.ofGlobals options.profile.maxIntWidth
    (fun id => (names[id.index]?).getD ("GLOBAL_" ++ toString id.index)) m.globals
  let setting : Lower.Setting :=
    { module := m, profile := options.profile, globals := globals.entries
      names := functionNames m }
  let functions ← m.defined.mapM fun f => do
    if cancelled then .error .cancelled
    else written (← Lower.function setting f) options.profile.maxStatements
  return { sourceFilename := m.sourceFilename, globals, functions := functions.map Prod.fst
           skipped := functions.filterMap Prod.snd }

/-! ## Text -/

/-- The bytes in rows of sixteen. -/
def rows : Nat → List UInt8 → List (List UInt8)
  | 0, _ => []
  | _, [] => []
  | n + 1, bytes => bytes.take 16 :: rows n (bytes.drop 16)

/-- The bytes of all globals, as a table. -/
def printImage (bytes : List UInt8) : String :=
  let row (r : List UInt8) : String :=
    "    " ++ Target.commas (r.map fun b => toString b.toNat) ++ ",\n"
  "static GLOBAL_IMAGE: &[u8] = &["
    ++ (if bytes.isEmpty then "" else "\n")
    ++ String.join ((rows bytes.length bytes).map row) ++ "];\n\n"

/-- The text of the artifact. -/
def print (a : Artifact) : String :=
  (match a.sourceFilename with
    | some source => "// Generated by irbridge from " ++ source ++ ". Do not edit.\n"
    | none => "// Generated by irbridge. Do not edit.\n")
    ++ "use irbridge_runtime::*;\n\n"
    ++ String.join (a.globals.entries.map fun e =>
      "pub const " ++ e.constName ++ ": u64 = " ++ toString e.address ++ ";\n")
    ++ (if a.globals.entries.isEmpty then "" else "\n")
    ++ printImage a.globals.bytes
    ++ "/// Execution context with this module's globals installed.\n"
    ++ "pub fn new_context() -> Context \x7b\n"
    ++ "    Context::new(Memory::with_globals(GLOBAL_IMAGE))\n\x7d\n"
    ++ String.join (a.functions.map fun f => "\n" ++ f.code)

end Artifact

end SafeIR
