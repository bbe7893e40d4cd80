import SafeIR.Library.Basic
import SafeIR.Power

/-!
# Calls from C

The library behind a C interface: results go through pointers, which may be null, and failures are
numbers. A missing pointer is `none`.

A text is copied into a buffer of the caller, with a zero byte behind it. If it does not fit, the
buffer is left alone and the size that it needs is returned, which is larger than the size it has;
so the caller can tell the two cases apart.
-/

namespace SafeIR.Library.Foreign

/-- What a call from outside returns. -/
inductive Status where
  | ok
  | invalidHandle
  | unparsed
  | nullArgument
  | outOfRange
  deriving DecidableEq, Repr

namespace Status

/-- The number that stands for a status. -/
def code : Status → Int
  | ok => 0
  | invalidHandle => -1
  | unparsed => -2
  | nullArgument => -3
  | outOfRange => -4

/-- The status of an error. -/
def ofError : Error → Status
  | .invalidHandle _ => invalidHandle
  | .source _ | .unreadable .. => unparsed
  | .outOfRange .. | .unknownValue .. => outOfRange

end Status

/-- A buffer of the caller: the size that the caller states and the bytes that are there. A size
that is negative stands for no bytes. -/
structure Buffer where
  size : Int
  bytes : List UInt8
  deriving DecidableEq, Repr

namespace Buffer

/-- A buffer with every byte set to one value. -/
def filled (size : Int) (byte : UInt8) : Buffer := ⟨size, List.replicate size.toNat byte⟩

/-- The first bytes replaced by others. -/
def overwrite (b : Buffer) (new : List UInt8) : Buffer :=
  { b with bytes := new ++ b.bytes.drop new.length }

end Buffer

/-- What a length must stay below to be returned as a number. -/
def lengthLimit : Nat := twoPow 31

/-- Copy a text into a buffer: the length of the text, the size needed, or minus one. -/
def copyText (text : List UInt8) : Option Buffer → Int × Option Buffer
  | none => (-1, none)
  | some b =>
    if b.size ≤ 0 ∨ text.isEmpty ∨ lengthLimit ≤ text.length then (-1, some b)
    else if b.size < text.length + 1 then (text.length + 1, some b)
    else (text.length, some (b.overwrite (text ++ [0])))

/-- Copy the text that a query gave, if it gave one. -/
def copyAnswer (text : Except Error String) (buffer : Option Buffer) : Int × Option Buffer :=
  match text with
  | .ok t => copyText (Text.encode t.toList) buffer
  | .error _ => (-1, buffer)

/-- Store a number behind a pointer. -/
def store (n : Except Error Nat) : Option Nat → Status × Option Nat
  | none => (.nullArgument, none)
  | some old =>
    match n with
    | .ok n => (.ok, some n)
    | .error e => (.ofError e, some old)

/-! ## Opening -/

/-- Store the handle of a module that was opened. -/
def storeHandle (l : Library) (out : Nat) :
    Except Error (Handle × Library) → (Status × Option Nat) × Library
  | .ok (h, l) => ((.ok, some h.number), l)
  | .error e => ((.ofError e, some out), l)

def openText (l : Library) : Option (List UInt8) → Option Nat →
    (Status × Option Nat) × Library
  | some text, some out => storeHandle l out (l.openText text)
  | _, out => ((.nullArgument, out), l)

/-- Open a file whose path is given by bytes, where `contents` reads files. -/
def openPath (l : Library) (contents : String → Except String (List UInt8)) :
    Option (List UInt8) → Option Nat → (Status × Option Nat) × Library
  | some path, some out =>
    match Text.decode path with
    | .ok cs => storeHandle l out (l.openPath (String.ofList cs) (contents (String.ofList cs)))
    | .error _ => ((.unparsed, some out), l)
  | _, out => ((.nullArgument, out), l)

def close (l : Library) (h : Handle) : Status × Library :=
  match l.close h with
  | .ok l => (.ok, l)
  | .error e => (.ofError e, l)

/-! ## Counts -/

/-- The number of functions. -/
def functionCount (l : Library) (h : Handle) (out : Option Nat) : Status × Option Nat :=
  store (do return (← l.module h).functions.length) out

/-- The number of blocks of a function. -/
def blockCount (l : Library) (h : Handle) (f : Nat) (out : Option Nat) :
    Status × Option Nat :=
  store (do return (← Query.functionAt (← l.module h) f).blocks.length) out

/-- The number of instructions of a block. -/
def instructionCount (l : Library) (h : Handle) (f b : Nat) (out : Option Nat) :
    Status × Option Nat :=
  store (do return (← Query.blockAt (← l.module h) f b).instructions.length) out

/-! ## Names and types -/

/-- The name of a function for readers: what its symbol says, or else the symbol. -/
def nameOf [Demangler] (f : Source.Function) : String :=
  (Demangler.demangle f.name).getD f.name

/-- The name of a function, demangled. -/
def displayName [Demangler] (l : Library) (h : Handle) (f : Nat) (buffer : Option Buffer) :
    Int × Option Buffer :=
  copyAnswer (do return nameOf (← Query.functionAt (← l.module h) f)) buffer

def returnType (l : Library) (h : Handle) (f : Nat) (buffer : Option Buffer) :
    Int × Option Buffer :=
  copyAnswer (do return (← Query.functionAt (← l.module h) f).returnType.text) buffer

def functionType (l : Library) (h : Handle) (f : Nat) (buffer : Option Buffer) :
    Int × Option Buffer :=
  copyAnswer (do return (← Query.functionAt (← l.module h) f).type.text) buffer

/-- The type of a value whose name is given by bytes. -/
def valueType (l : Library) (h : Handle) (f : Nat) (name : Option (List UInt8))
    (buffer : Option Buffer) : Int × Option Buffer :=
  match name.map Text.decode with
  | some (.ok name) =>
    copyAnswer (do return (← Query.typeOfValue (← l.module h) f (String.ofList name)).text) buffer
  | _ => (-1, buffer)

/-! ## Data and flags -/

/-- Copy data into a buffer and store its length behind a pointer; a null buffer asks for the length
alone. -/
def copyData (data : Except Error (Option (List UInt8))) (buffer : Option Buffer) :
    Option Int → (Status × Option Int) × Option Buffer
  | none => ((.nullArgument, none), buffer)
  | some _ =>
    match data with
    | .error e => ((.ofError e, some 0), buffer)
    | .ok none => ((.ok, some 0), buffer)
    | .ok (some bytes) =>
      if lengthLimit ≤ bytes.length then ((.outOfRange, some 0), buffer)
      else
        match buffer with
        | none => ((.ok, some bytes.length), none)
        | some b =>
          if b.size < bytes.length then ((.outOfRange, some bytes.length), some b)
          else ((.ok, some bytes.length), some (b.overwrite bytes))

/-- The bytes of a constant global. -/
def data (l : Library) (h : Handle) (g : Nat) (buffer : Option Buffer) (out : Option Int) :
    (Status × Option Int) × Option Buffer :=
  copyData (do return (← Query.globalAt (← l.module h) g).data?) buffer out

/-- A flag as a number, or the status of a failure. -/
def flagCode : Except Error Bool → Int
  | .ok b => if b then 1 else 0
  | .error e => (Status.ofError e).code

def noSignedWrap (l : Library) (h : Handle) (f b i : Nat) : Int :=
  flagCode (do return (← Query.instructionAt (← l.module h) f b i).op.wrapFlags.nsw)

def noUnsignedWrap (l : Library) (h : Handle) (f b i : Nat) : Int :=
  flagCode (do return (← Query.instructionAt (← l.module h) f b i).op.wrapFlags.nuw)

end SafeIR.Library.Foreign
