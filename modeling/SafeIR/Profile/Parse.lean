import SafeIR.Json.Parse
import SafeIR.Power
import SafeIR.Profile

/-!
# Profiles in JSON

A profile is a record whose fields may all be left out.
-/

namespace SafeIR

def UnknownIntrinsics.name : UnknownIntrinsics → String
  | reject => "reject"
  | external => "external"

def UnknownIntrinsics.ofName? (name : String) : Option UnknownIntrinsics :=
  [reject, external].find? (·.name == name)

def Overflow.name : Overflow → String
  | trap => "trap"
  | wrap => "wrap"

def Overflow.ofName? (name : String) : Option Overflow := [trap, wrap].find? (·.name == name)

namespace Profile

/-- The fields that a profile may have. -/
def fieldNames : List String :=
  ["name", "max_int_width", "unknown_intrinsics", "overflow", "max_statements",
    "elide_proven_checks"]

def ofValue? (v : Json.Value) : Option Profile := do
  let fields ← v.record? fieldNames
  let standard : Profile := {}
  return {
    name := ← Json.field fields "name" Json.Value.string? standard.name
    maxIntWidth := ← Json.field fields "max_int_width" (Json.Value.nat? (twoPow 32))
      standard.maxIntWidth
    unknownIntrinsics := ← Json.field fields "unknown_intrinsics"
      (fun v => v.choice?.bind UnknownIntrinsics.ofName?) standard.unknownIntrinsics
    overflow := ← Json.field fields "overflow" (fun v => v.choice?.bind Overflow.ofName?)
      standard.overflow
    maxStatements := ← Json.field fields "max_statements" (Json.Value.nat? (twoPow 64))
      standard.maxStatements
    elideProvenChecks := ← Json.field fields "elide_proven_checks" Json.Value.bool?
      standard.elideProvenChecks }

/-- The profile that a text describes. -/
def parse? (text : String) : Option Profile := (Json.parse? text).bind ofValue?

end Profile

namespace Options

def ofValue? (v : Json.Value) : Option Options := do
  let fields ← v.record? ["profile", "parallel"]
  let standard : Options := {}
  return {
    profile := ← Json.field fields "profile" Profile.ofValue? standard.profile
    parallel := ← Json.field fields "parallel" Json.Value.bool? standard.parallel }

/-- The options that a text describes. -/
def parse? (text : String) : Option Options := (Json.parse? text).bind ofValue?

end Options

end SafeIR
