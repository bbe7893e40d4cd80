import SafeIR.Artifact.Generate
import SafeIR.Artifact.Summary
import SafeIR.Command.Arguments
import SafeIR.Profile.Parse

/-!
# Commands

What a command does, as a list of actions. The files that it reads are given, so the actions are a
function of the command line and of their contents.
-/

namespace SafeIR

/-- One effect of a command. -/
inductive Action where
  /-- A line about the progress, on the standard error stream. -/
  | note (text : String)
  /-- Text on the standard output stream. -/
  | print (text : String)
  | write (path text : String)
  /-- An error, with its causes. -/
  | complain (errors : List String)
  deriving DecidableEq, Repr

namespace Action

/-- The text of an error: causes are numbered if there are several. -/
def errorText : List String → String
  | [] => "Error"
  | [top] => "Error: " ++ top
  | [top, cause] => "Error: " ++ top ++ "\n\nCaused by:\n    " ++ cause
  | top :: causes =>
    "Error: " ++ top ++ "\n\nCaused by:" ++ String.join (causes.zipIdx.map fun (c, i) =>
      "\n    " ++ toString i ++ ": " ++ c)

end Action

/-- The actions of a command and its exit code. -/
structure Behaviour where
  actions : List Action
  exit : Nat
  deriving DecidableEq, Repr

namespace Command

/-- The contents of the files that can be read, or else the reason why one cannot. -/
abbrev Files := String → Except String (List UInt8)

/-- A file as text. -/
def readText (files : Files) (path : String) : Except (List String) String := do
  let context := "failed to read " ++ path
  let bytes ← (files path).mapError fun reason => [context, reason]
  match Text.decode bytes with
  | .ok cs => return String.ofList cs
  | .error _ => .error [context, "stream did not contain valid UTF-8"]

/-- The profile that a request starts from. -/
def profile (files : Files) : Option String → Except (List String) Profile
  | none => return {}
  | some path => do
    match Profile.parse? (← readText files path) with
    | some p => return p
    | none => .error ["invalid target profile " ++ path]

/-- The options of a request, which override its profile. -/
def options (files : Files) (r : Request) : Except (List String) Options := do
  let p ← profile files r.profile
  return {
    profile := {
      p with
      unknownIntrinsics := if r.allowExternalCalls then .external else p.unknownIntrinsics
      overflow := if r.wrapOverflow then .wrap else p.overflow
      maxStatements := r.maxStatements.getD p.maxStatements
      elideProvenChecks := r.elideChecks || p.elideProvenChecks }
    parallel := ! r.noParallel }

/-- What a request asks for, or the errors and the exit code. -/
def code [Demangler] (files : Files) (r : Request) : Except (List String × Nat) String := do
  let source ← (files r.input).mapError fun reason => (["failed to read " ++ r.input, reason], 1)
  let options ← (options files r).mapError (·, 1)
  match Artifact.ofText options false source with
  | .ok a => return a.print
  | .error (_, .noByte name) => .error ([(Failure.noByte name).message], 101)
  | .error (stage, e) => .error (["translation failed", stage.message, e.message], 1)

/-- What a translation does. -/
def generateActions [Demangler] (files : Files) (r : Request) : Behaviour :=
  let start : Action := .note ("irbridge: translating " ++ r.input)
  let finish : Action := .note "irbridge: translation complete"
  match code files r with
  | .error (errors, exit) => ⟨[start, .complain errors], exit⟩
  | .ok code =>
    match r.output with
    | some path => ⟨[start, .write path code, .note ("irbridge: wrote " ++ path), finish], 0⟩
    | none => ⟨[start, .print code, finish], 0⟩

/-- What an inspection does. -/
def inspectActions (files : Files) (file : String) : Behaviour :=
  match readText files file with
  | .error errors => ⟨[.complain errors], 1⟩
  | .ok text =>
    let s := Artifact.summary text
    ⟨[.print (String.join (s.functions.map fun (name, blocks) =>
        name ++ "\t" ++ toString blocks ++ "\n")),
      .note ("irbridge: " ++ toString s.functions.length ++ " functions, "
        ++ toString s.blockCount ++ " blocks")], 0⟩

/-- The files that a command reads. -/
def reads : Command → List String
  | generate r => r.input :: r.profile.toList
  | inspect file => [file]

/-- What a command does. -/
def run [Demangler] (files : Files) : Command → Behaviour
  | generate r => generateActions files r
  | inspect file => inspectActions files file

end Command

end SafeIR
