import SafeIR.Power

/-!
# Little-endian bytes

The bytes of a natural number, lowest first, and the number that bytes spell.
-/

namespace SafeIR.Bytes

/-- The low `n` bytes of a number. -/
def ofNat : (n : Nat) → Nat → List UInt8
  | 0, _ => []
  | n + 1, v => UInt8.ofNat (v % 256) :: ofNat n (v / 256)

/-- The number that bytes spell, lowest first. -/
def toNat : List UInt8 → Nat
  | [] => 0
  | b :: bs => b.toNat + 256 * toNat bs

/-- The low `n` bytes of an integer in two's complement. -/
def ofInt (n : Nat) (v : Int) : List UInt8 := ofNat n (v % (twoPow (8 * n) : Int)).toNat

@[simp] theorem length_ofNat (n v : Nat) : (ofNat n v).length = n := by
  induction n generalizing v with
  | zero => rfl
  | succ n ih => simp [ofNat, ih]

theorem toNat_ofNat (n v : Nat) : toNat (ofNat n v) = v % twoPow (8 * n) := by
  induction n generalizing v with
  | zero => exact (Nat.mod_one v).symm
  | succ n ih =>
    have h : v % 256 < 256 := Nat.mod_lt _ (by decide)
    have byte : twoPow 8 = 256 := rfl
    rw [ofNat, toNat, ih, Nat.mul_succ, twoPow_add, byte, Nat.mul_comm (twoPow (8 * n)),
      Nat.mod_mul]
    simp

end SafeIR.Bytes
