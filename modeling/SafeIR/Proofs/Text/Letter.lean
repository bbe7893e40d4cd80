/-!
# Letters and their case

Which characters are letters and digits, by their numbers, and what a change of case does to the
number of a letter. Characters that are no letters stay as they are.
-/

namespace SafeIR.Text

theorem isUpper_iff {c : Char} : c.isUpper = true ↔ 65 ≤ c.toNat ∧ c.toNat ≤ 90 := by
  show decide (65 ≤ c.val ∧ c.val ≤ 90) = true ↔ _
  simp [UInt32.le_iff_toNat_le]

theorem isLower_iff {c : Char} : c.isLower = true ↔ 97 ≤ c.toNat ∧ c.toNat ≤ 122 := by
  show (decide (97 ≤ c.val) && decide (c.val ≤ 122)) = true ↔ _
  simp [UInt32.le_iff_toNat_le]

theorem isAlphanum_iff {c : Char} :
    c.isAlphanum = true ↔ c.isUpper = true ∨ c.isLower = true ∨ c.isDigit = true := by
  show ((c.isUpper || c.isLower) || c.isDigit) = true ↔ _
  rw [Bool.or_eq_true, Bool.or_eq_true, or_assoc]

theorem toNat_toUpper (c : Char) :
    c.toUpper.toNat = if c.isLower then c.toNat - 32 else c.toNat := by
  have hrange : ('a'.val ≤ c.val ∧ c.val ≤ 'z'.val) ↔ c.isLower = true := by
    rw [isLower_iff, UInt32.le_iff_toNat_le, UInt32.le_iff_toNat_le]
    rfl
  unfold Char.toUpper
  by_cases h : c.isLower = true
  · obtain ⟨hge, hle⟩ := isLower_iff.mp h
    rw [dif_pos (hrange.mpr h), if_pos h]
    show (c.val + ('A'.val - 'a'.val)).toNat = _
    simp [UInt32.toNat_add]
    omega
  · rw [dif_neg (mt hrange.mp h), if_neg h]

theorem toNat_toLower (c : Char) :
    c.toLower.toNat = if c.isUpper then c.toNat + 32 else c.toNat := by
  have hrange : ('A'.val ≤ c.val ∧ c.val ≤ 'Z'.val) ↔ c.isUpper = true := by
    rw [isUpper_iff, UInt32.le_iff_toNat_le, UInt32.le_iff_toNat_le]
    rfl
  unfold Char.toLower
  by_cases h : c.isUpper = true
  · obtain ⟨hge, hle⟩ := isUpper_iff.mp h
    rw [dif_pos (hrange.mpr h), if_pos h]
    show (c.val + ('a'.val - 'A'.val)).toNat = _
    simp [UInt32.toNat_add]
    omega
  · rw [dif_neg (mt hrange.mp h), if_neg h]

/-- What becomes a character in upper case is that character, or the small letter for it. -/
theorem eq_or_eq_toLower {c d : Char} (h : c.toUpper = d) : c = d ∨ c = d.toLower := by
  subst h
  rw [← Char.toNat_inj, ← Char.toNat_inj, toNat_toLower, toNat_toUpper]
  grind [isUpper_iff, isLower_iff, toNat_toUpper]

theorem eq_or_eq_toUpper {c d : Char} (h : c.toLower = d) : c = d ∨ c = d.toUpper := by
  subst h
  rw [← Char.toNat_inj, ← Char.toNat_inj, toNat_toUpper, toNat_toLower]
  grind [isUpper_iff, isLower_iff, toNat_toLower]

theorem not_letter_of_isDigit {d : Char} (h : d.isDigit = true) :
    d.isUpper = false ∧ d.isLower = false := by
  have hrange : 48 ≤ d.toNat ∧ d.toNat ≤ 57 := Char.isDigit_iff_toNat.mp h
  rw [← Bool.not_eq_true, ← Bool.not_eq_true, isUpper_iff, isLower_iff]
  omega

end SafeIR.Text
