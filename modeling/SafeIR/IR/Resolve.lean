import SafeIR.Failure
import SafeIR.Source.Module

/-!
# Resolving named types

`TypeTable.resolve` expands the names in a type. A name that is reached again while its own body is
expanded contains itself and has no expansion. Between two names the recursion is on the type; at
a name it is on the number of names that may still be opened, which is the size of the table:
the names open at one time are different entries of it.
-/

namespace SafeIR.IR

/-- What resolving gives. -/
abbrev Result := Except Failure

/-- The named types of a module. -/
structure TypeTable where
  defs : List Source.TypeDef

namespace TypeTable

/-- The definition of a name; of several the last counts. -/
def find? (t : TypeTable) (name : String) : Option Source.TypeDef :=
  t.defs.reverse.find? (·.name == name)

mutual

/-- Expand a type, where `expand` gives the expansions of names. -/
def resolveWith (place : Place) (expand : String → Result Ty) : Source.Ty → Result Ty
  | .void => return .void
  | .int bits => return .int bits
  | .half => return .half
  | .float => return .float
  | .double => return .double
  | .x86Fp80 => return .x86Fp80
  | .fp128 => return .fp128
  | .ptr => return .ptr
  | .label => return .label
  | .metadata => return .metadata
  | .array len elem => return .array len (← resolveWith place expand elem)
  | .vector len elem =>
    .error (.unsupportedConstruct (.vectorType (Source.Ty.vector len elem).text) place)
  | .struct packed fields => return .struct packed (← resolveAll place expand fields)
  | .named name => expand name
  | .function ret params varargs =>
    return .function (← resolveWith place expand ret) (← resolveAll place expand params) varargs

def resolveAll (place : Place) (expand : String → Result Ty) : List Source.Ty → Result (List Ty)
  | [] => return []
  | ty :: tys => return (← resolveWith place expand ty) :: (← resolveAll place expand tys)

end

/-- The expansion of a name while the names in `active` are open. -/
def expand (t : TypeTable) (place : Place) : Nat → List String → String → Result Ty
  | budget, active, name =>
    if name ∈ active then .error (.unsupportedConstruct (.recursiveType name) place)
    else match t.find? name with
      | none => .error (.malformed (.unknownType name place))
      | some ⟨_, none⟩ => .error (.unsupportedConstruct (.opaqueType name) place)
      | some ⟨_, some body⟩ =>
        match budget with
        | budget + 1 => resolveWith place (expand t place budget (name :: active)) body
        | 0 => .error (.unsupportedConstruct (.recursiveType name) place)

/-- A type, with all names expanded. -/
def resolve (t : TypeTable) (place : Place) (ty : Source.Ty) : Result Ty :=
  resolveWith place (t.expand place t.defs.length []) ty

end TypeTable

end SafeIR.IR
