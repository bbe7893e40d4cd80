/-!
# Powers

Powers of two and of ten, by their exponents: what is measured in bits or in decimal digits is
counted with them.
-/

namespace SafeIR

/-- Two to a power. -/
def twoPow (k : Nat) : Nat := Nat.pow 2 k

theorem twoPow_add (a b : Nat) : twoPow (a + b) = twoPow a * twoPow b := Nat.pow_add 2 a b

/-- Ten to a power. -/
def tenPow (k : Nat) : Nat := Nat.pow 10 k

end SafeIR
