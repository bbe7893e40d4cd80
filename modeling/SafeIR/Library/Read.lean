import SafeIR.IR.Read
import SafeIR.Library.Basic

/-!
# Reading modules from a library

`read` resolves a module that is open. `readText` and `readPath` open a module, read it and close it
again, whether or not the reading succeeds.
-/

namespace SafeIR.Library

/-- Whether a library of a version can be read from. -/
def checkVersion (found : Version) : Except Failure Unit :=
  if found.satisfies Version.required then return ()
  else .error (.incompatibleVersion found Version.required)

/-- The module behind a handle, with its names resolved. The handle stays open. -/
def read [Demangler] (l : Library) (h : Handle) : Except Failure IR.Module :=
  match l.find? h with
  | some m => IR.Module.ofSource m
  | none => .error (.invalidHandle h)

/-- Read the module that was opened, and close it. -/
def readAndClose [Demangler] (opened : Handle × Library) : Except Failure IR.Module × Library :=
  (opened.2.read opened.1, opened.2.erase opened.1)

/-- A text is opened, read and closed. -/
def readText [Demangler] (l : Library) (text : List UInt8) : Except Failure IR.Module × Library :=
  match Source.Module.parse text with
  | .ok m => readAndClose (l.insert m)
  | .error e => (.error (.source e), l)

/-- A file is opened, read and closed. -/
def readPath [Demangler] (l : Library) (path : String) (contents : Except String (List UInt8)) :
    Except Failure IR.Module × Library :=
  match contents with
  | .ok text => l.readText text
  | .error reason => (.error (.unreadable path reason), l)

end SafeIR.Library
