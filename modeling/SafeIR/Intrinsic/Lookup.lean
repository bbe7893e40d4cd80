import SafeIR.Intrinsic.Catalog

/-!
# Looking up intrinsics

A call may name an intrinsic with the types it is used at behind the name, each behind a dot:
`llvm.memcpy.p0.p0.i64` is `llvm.memcpy`. The longest name that is in the catalog counts.
-/

namespace SafeIR.Intrinsic

/-- Whether characters name a type: `i32`, `p0`, `f64`, or `v4` before a type. Behind a `v` digits
must follow, which `needDigit` and `inVector` keep track of. -/
def isTypeSuffixFrom (inVector needDigit : Bool) : List Char → Bool
  | [] => false
  | c :: cs =>
    if inVector && c.isDigit then isTypeSuffixFrom true false cs
    else if needDigit then false
    else if c = 'v' then isTypeSuffixFrom true true cs
    else if c = 'i' ∨ c = 'p' then ! cs.isEmpty && cs.all Char.isDigit
    else if c = 'f' then ["16", "32", "64", "80", "128"].contains (String.ofList cs)
    else false

def isTypeSuffix (cs : List Char) : Bool := isTypeSuffixFrom false false cs

/-- The parts of a name between dots, last first; `part` is the part read so far, reversed. -/
def partsFrom : List Char → List (List Char) → List Char → List (List Char)
  | part, parts, [] => part.reverse :: parts
  | part, parts, c :: cs =>
    if c = '.' then partsFrom [] (part.reverse :: parts) cs else partsFrom (c :: part) parts cs

/-- The name that parts make, last first. -/
def nameOf (parts : List (List Char)) : String :=
  String.intercalate "." (parts.reverse.map String.ofList)

/-- The entry for a name given by its parts, last first. -/
def lookUpParts (entries : List Entry) : List (List Char) → Option Entry
  | [] => none
  | part :: parts =>
    match entries.find? (·.name == nameOf (part :: parts)) with
    | some e => some e
    | none =>
      if parts.isEmpty then none
      else if isTypeSuffix part then lookUpParts entries parts
      else none

/-- The entry for a name, which may have types behind it. -/
def lookUp (entries : List Entry) (name : String) : Option Entry :=
  lookUpParts entries (partsFrom [] [] name.toList)

end SafeIR.Intrinsic
