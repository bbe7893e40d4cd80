import SafeIR.Command.Run
import SafeIR.Library.Basic

/-!
# Commands in a directory

A directory as a value: its files by name. `Directory.run` gives what a command line prints there
and which files it creates.
-/

namespace SafeIR

/-- A directory, by the texts of its files. -/
structure Directory where
  files : List (String × String)
  deriving DecidableEq, Repr

/-- What can be seen of a command after it ran. -/
structure Report where
  exit : Nat
  stdout : String := ""
  notes : List String := []
  written : List (String × String) := []
  deriving DecidableEq, Repr

namespace Directory

/-- The file that a path names, where `./` means nothing. -/
def fileName (path : String) : String :=
  match path.toList with
  | '.' :: '/' :: cs => String.ofList (cs.dropWhile (· = '/'))
  | _ => path

/-- What a directory has under a path. -/
def contents (d : Directory) : Command.Files := fun path =>
  match d.files.lookup (fileName path) with
  | some text => .ok (Text.encode text.toList)
  | none => .error Library.noSuchFile

/-- Whether a file can be made: there are no directories below this one. -/
def canWrite (path : String) : Bool :=
  let name := fileName path
  ! name.isEmpty && name != "." && name != ".." && ! name.toList.contains '/'

/-- The report of actions that end with an exit code. A file that cannot be written ends them. -/
def perform (exit : Nat) : Report → List Action → Report
  | r, [] => { r with exit }
  | r, .note text :: as => perform exit { r with notes := r.notes ++ [text] } as
  | r, .print text :: as => perform exit { r with stdout := r.stdout ++ text } as
  | r, .complain _ :: as => perform exit r as
  | r, .write path text :: as =>
    if canWrite path then perform exit { r with written := r.written ++ [(fileName path, text)] } as
    else { r with exit := 1 }

/-- What a command line does in a directory. -/
def run [Demangler] (d : Directory) (words : List String) : Report :=
  match Command.parse? words with
  | none => { exit := 2 }
  | some c =>
    let b := c.run d.contents
    perform b.exit { exit := 0 } b.actions

end Directory

end SafeIR
