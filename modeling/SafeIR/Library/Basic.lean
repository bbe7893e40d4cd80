import SafeIR.Library.Query
import SafeIR.Source.Parse

/-!
# Libraries of open modules

A library holds the modules that are open, each under a handle. Handles count from one and are never
used again; a text that is no module takes none.
-/

namespace SafeIR

/-- The modules that are open, by their handles. -/
structure Library where
  /-- The open modules, the one opened last first. -/
  modules : List (Handle × Source.Module) := []
  /-- The number of the next handle. -/
  next : Nat := 1

namespace Library

/-- The module of a handle. -/
def find? (l : Library) (h : Handle) : Option Source.Module := l.modules.lookup h

/-- The module behind a handle. -/
def module (l : Library) (h : Handle) : Except Error Source.Module :=
  match l.find? h with
  | some m => .ok m
  | none => .error (.invalidHandle h)

/-- A library with one more module, and the handle of it. -/
def insert (l : Library) (m : Source.Module) : Handle × Library :=
  (⟨l.next⟩, { modules := (⟨l.next⟩, m) :: l.modules, next := l.next + 1 })

/-- A handle is given back. -/
def erase (l : Library) (h : Handle) : Library :=
  { l with modules := l.modules.filter (·.1 ≠ h) }

/-- The reason why a file that is not there cannot be read. -/
def noSuchFile : String := "No such file or directory (os error 2)"

/-- The calls to a library. The contents of a file come with the call that opens it. -/
inductive Call where
  | openText (text : List UInt8)
  | openPath (path : String) (contents : Except String (List UInt8))
  | close (h : Handle)
  | openHandles
  | version
  | query (h : Handle) (q : Query)

/-- A module is opened from its text. -/
def openText (l : Library) (text : List UInt8) : Except Error (Handle × Library) :=
  match Source.Module.parse text with
  | .ok m => .ok (l.insert m)
  | .error e => .error (.source e)

/-- A module is opened from what a file has. -/
def openPath (l : Library) (path : String) (contents : Except String (List UInt8)) :
    Except Error (Handle × Library) :=
  match contents with
  | .ok text => l.openText text
  | .error reason => .error (.unreadable path reason)

/-- A module is closed; its handle must be open. -/
def close (l : Library) (h : Handle) : Except Error Library := do
  let _ ← l.module h
  return l.erase h

/-- A question about an open module. -/
def query [Demangler] (l : Library) (h : Handle) (q : Query) : Except Error Answer := do
  q.answer (← l.module h)

/-- An opened module as an answer; a failure leaves the library as it is. -/
def opened (l : Library) : Except Error (Handle × Library) → Except Error Answer × Library
  | .ok (h, l) => (.ok (.handle h), l)
  | .error e => (.error e, l)

/-- One call: its answer and the library afterwards. -/
def step [Demangler] (l : Library) : Call → Except Error Answer × Library
  | .openText text => l.opened (l.openText text)
  | .openPath path contents => l.opened (l.openPath path contents)
  | .close h =>
    match l.close h with
    | .ok l => (.ok .done, l)
    | .error e => (.error e, l)
  | .openHandles => (.ok (.count l.modules.length), l)
  | .version => (.ok (.version Version.current), l)
  | .query h q => (l.query h q, l)

/-- Several calls, one after the other. -/
def run [Demangler] (l : Library) : List Call → List (Except Error Answer) × Library
  | [] => ([], l)
  | c :: cs =>
    let (answer, l) := l.step c
    let (answers, l) := l.run cs
    (answer :: answers, l)

end Library

end SafeIR
