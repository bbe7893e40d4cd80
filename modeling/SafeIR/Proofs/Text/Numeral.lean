import SafeIR.Decimal.Read

/-!
# Numerals

The decimal digits of a number are read back as the number, if it fits.
-/

namespace SafeIR.Decimal

theorem isDigit_of_mem_toString {n : Nat} {c : Char} (h : c ∈ (toString n).toList) :
    c.isDigit = true := by
  rw [Nat.toString_eq_ofList_toDigits, String.toList_ofList] at h
  exact Nat.isDigit_of_mem_toDigits (by decide) (by decide) h

theorem nat?_toString (n : Nat) : nat? (toString n).toList = some n := by
  have hdigits : ∀ c ∈ Nat.toDigits 10 n, c.isDigit = true :=
    fun c hc => Nat.isDigit_of_mem_toDigits (by decide) (by decide) hc
  have hvalue : ofDigits (Nat.toDigits 10 n) = n := Nat.ofDigitChars_ten_toDigits
  rw [Nat.toString_eq_ofList_toDigits, String.toList_ofList]
  have hnumeral : isNumeral (Nat.toDigits 10 n) = true := by
    simp only [isNumeral, Bool.and_eq_true, Bool.not_eq_true', List.isEmpty_eq_false_iff,
      List.all_eq_true]
    exact ⟨Nat.toDigits_ne_nil, hdigits⟩
  unfold nat?
  split
  next ds heq =>
    have hsign := hdigits '+' (heq ▸ List.mem_cons_self)
    exact absurd hsign (by decide)
  next => rw [if_pos hnumeral, hvalue]

theorem unsigned?_toString {bits n : Nat} (h : n < twoPow bits) :
    unsigned? bits (toString n).toList = some n := by
  rw [unsigned?, nat?_toString]
  simp [h]

end SafeIR.Decimal
