import SafeIR.Decimal.Read

/-!
# JSON values

A value as it is written: a number keeps its text, and a string that an escape makes ill-formed,
such as half of a surrogate pair, is still a string, but one without characters. So a value that
nobody looks at may hold numbers of any size and any escapes.

`Value.record?` reads a record, which may be written as an object or as the array of its fields.
-/

namespace SafeIR.Json

/-- A value as it is written. -/
inductive Value where
  | null
  | bool (b : Bool)
  | number (text : List Char)
  | string (text : Option String)
  | array (items : List Value)
  | object (members : List (Option String × Value))

namespace Value

def bool? : Value → Option Bool
  | bool b => some b
  | _ => none

/-- A natural number below a bound, written with digits only. -/
def nat? (bound : Nat) : Value → Option Nat
  | number cs =>
    if Decimal.isNumeral cs ∧ Decimal.ofDigits cs < bound then some (Decimal.ofDigits cs) else none
  | _ => none

def string? : Value → Option String
  | string s => s
  | _ => none

/-- A choice without data: its name, or an object with the name and `null`. -/
def choice? : Value → Option String
  | string s => s
  | object [(name, null)] => name
  | _ => none

/-- The fields of a record, by name. Members of other names mean nothing, and no field may be given
twice. An array gives the first fields in order. -/
def record? (names : List String) : Value → Option (List (String × Value))
  | array items => if items.length ≤ names.length then some (names.zip items) else none
  | object members => do
    let named ← members.mapM fun (name, v) => name.map (·, v)
    let known := named.filter (names.contains ·.1)
    if (known.map Prod.fst).Nodup then some known else none
  | _ => none

end Value

/-- A field of a record, or its default if it is not given. -/
def field {α : Type} (fields : List (String × Value)) (name : String) (read : Value → Option α)
    (default : α) : Option α :=
  match fields.lookup name with
  | some v => read v
  | none => some default

end SafeIR.Json
