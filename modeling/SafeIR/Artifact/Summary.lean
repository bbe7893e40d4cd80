import SafeIR.Artifact.Emit
import SafeIR.Decimal.Read

/-!
# Summaries

The functions of an artifact, read back from the lines that mark them.
-/

namespace SafeIR.Artifact

/-- The functions of a generated file, each with its number of blocks. -/
structure Summary where
  functions : List (String × Nat)
  deriving DecidableEq, Repr

/-- The number of blocks of all functions. -/
def Summary.blockCount (s : Summary) : Nat := (s.functions.map Prod.snd).foldr (· + ·) 0

/-- The rest of a list behind what it starts with. -/
def after? : (start cs : List Char) → Option (List Char)
  | [], cs => some cs
  | x :: xs, c :: cs => if x = c then after? xs cs else none
  | _ :: _, [] => none

/-- What stands before and after the last occurrence of a separator. -/
def splitLast? (separator : List Char) : List Char → Option (List Char × List Char)
  | [] => (after? separator []).map (([], ·))
  | c :: cs =>
    match splitLast? separator cs with
    | some (before, rest) => some (c :: before, rest)
    | none => (after? separator (c :: cs)).map (([], ·))

/-- The function that a line marks. -/
def marked? (line : String) : Option (String × Nat) := do
  let rest ← after? marker.toList line.toList
  let (name, count) ← splitLast? " blocks=".toList rest
  return (String.ofList name, ← Decimal.unsigned? 64 (Text.trim count))

/-- What the marker lines of a text tell. -/
def summary (text : String) : Summary := ⟨(Text.lines text).filterMap marked?⟩

end SafeIR.Artifact
