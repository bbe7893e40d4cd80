import SafeIR.Command.Run

/-!
# Command line

The program: reads the files that a command names and carries out its actions.
-/

namespace SafeIR

/-- A file of the file system, or why it cannot be read. -/
def readFileBytes (path : String) : IO (Except String (List UInt8)) := do
  try
    return .ok (← IO.FS.readBinFile path).data.toList
  catch e =>
    return .error (toString e)

/-- Carry out actions; a file that cannot be written ends them. -/
def carryOut (exit : Nat) : List Action → IO UInt32
  | [] => return exit.toUInt32
  | .note text :: as => do
    IO.eprintln text
    carryOut exit as
  | .print text :: as => do
    IO.print text
    carryOut exit as
  | .complain errors :: as => do
    IO.eprintln (Action.errorText errors)
    carryOut exit as
  | .write path text :: as => do
    try
      IO.FS.writeFile path text
    catch e =>
      IO.eprintln (Action.errorText ["failed to write " ++ path, toString e])
      return 1
    carryOut exit as

/-- Run a command and do what it says. -/
def runCommand [Demangler] (words : List String) : IO UInt32 := do
  match Command.parse? words with
  | none =>
    IO.eprintln "usage: irbridge [-v] translate INPUT [-o OUTPUT] | irbridge [-v] inspect FILE"
    return 2
  | some c =>
    let files ← c.reads.mapM fun path => return (path, ← readFileBytes path)
    let b := c.run fun path => (files.lookup path).getD (.error "not read")
    carryOut b.exit b.actions

end SafeIR

def main (words : List String) : IO UInt32 := SafeIR.runCommand words
