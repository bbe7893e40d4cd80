import SafeIR.Artifact.Module
import SafeIR.IR.Read

/-!
# From text to code

The two steps that take the text of a module to its generated code, and which of them failed.
-/

namespace SafeIR.Artifact

/-- The step that failed. -/
inductive Stage where
  | read
  | generate
  deriving DecidableEq, Repr

/-- What is said when a stage fails. -/
def Stage.message : Stage → String
  | read => "failed to read LLVM IR module"
  | generate => "failed to generate Rust code"

/-- The artifact for the text of a module. -/
def ofText [Demangler] (options : Options) (cancelled : Bool) (text : List UInt8) :
    Except (Stage × Failure) Artifact := do
  let m ← (IR.Module.read text).mapError (Stage.read, ·)
  (ofModule options cancelled m).mapError (Stage.generate, ·)

end SafeIR.Artifact
