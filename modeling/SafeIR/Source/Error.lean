/-!
# Errors in source text

Why a text is no module, and where. `Error.message` is the wording.
-/

namespace SafeIR.Source

/-- What is wrong with a text. -/
inductive Cause where
  | notUtf8
  | unmatched
  /-- A length or alignment that is no 64-bit number. -/
  | badCount (text : String)
  | badWidth
  | badInteger (text : String)
  | badHexFloat (text : String)
  deriving DecidableEq, Repr

/-- What is wrong with a text. -/
def Cause.message : Cause → String
  | .notUtf8 => "input is not valid UTF-8"
  | .unmatched => "syntax error"
  | .badCount text => "invalid count `" ++ text ++ "`"
  | .badWidth => "integer width out of range"
  | .badInteger text => "integer literal `" ++ text ++ "` out of range"
  | .badHexFloat text => "invalid hex float `" ++ text ++ "`"

/-- A cause with the byte offset it is found at. -/
structure Flaw where
  offset : Nat
  cause : Cause
  deriving DecidableEq, Repr

/-- A place in a text; lines and columns count from one. -/
structure Position where
  line : Nat := 1
  column : Nat := 1
  deriving DecidableEq, Repr

namespace Position

/-- The position behind one more unit of text. -/
def advance (p : Position) (newline : Bool) : Position :=
  if newline then ⟨p.line + 1, 1⟩ else ⟨p.line, p.column + 1⟩

/-- The position at a byte offset, where columns count characters. -/
def ofChars : List Char → Nat → Position → Position
  | [], _, p => p
  | c :: cs, offset, p =>
    if offset = 0 then p else ofChars cs (offset - c.utf8Size) (p.advance (c == '\n'))

/-- The position behind some bytes, where columns count bytes. -/
def ofBytes (bytes : List UInt8) : Position :=
  bytes.foldl (fun p b => p.advance (b == 10)) {}

end Position

/-- What is wrong with a text, and where. -/
structure Error where
  offset : Nat
  position : Position
  cause : Cause
  deriving DecidableEq, Repr

namespace Error

/-- A flaw of a text, with its position. -/
def ofFlaw (text : List Char) (f : Flaw) : Error :=
  ⟨f.offset, Position.ofChars text f.offset {}, f.cause⟩

/-- The error with its place. -/
def message (e : Error) : String :=
  "parse error at byte " ++ toString e.offset ++ " (line " ++ toString e.position.line
    ++ ", column " ++ toString e.position.column ++ "): " ++ e.cause.message

end Error

end SafeIR.Source
