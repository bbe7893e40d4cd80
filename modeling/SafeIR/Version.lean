import SafeIR.Power

/-!
# Versions of the query interface

A library serves a client that was built against the same major version and a minor version that
is not newer.
-/

namespace SafeIR

/-- A version of the library. -/
structure Version where
  major : Nat
  minor : Nat
  deriving DecidableEq, Repr

namespace Version

/-- The version that this library implements. -/
def current : Version := ⟨1, 2⟩

/-- The version that reading a module needs. -/
def required : Version := ⟨1, 2⟩

/-- The version is enough for what is required. -/
def satisfies (v required : Version) : Bool := v.major = required.major && required.minor ≤ v.minor

/-- Both numbers in one 32-bit word, the major number in the upper half. -/
def packed (v : Version) : Nat := v.major % twoPow 16 * twoPow 16 + v.minor % twoPow 16

/-- Both numbers out of one. -/
def ofPacked (n : Nat) : Version := ⟨n / twoPow 16 % twoPow 16, n % twoPow 16⟩

def text (v : Version) : String := toString v.major ++ "." ++ toString v.minor

instance : Ord Version := ⟨fun a b => (compare a.major b.major).then (compare a.minor b.minor)⟩

end Version

end SafeIR
