import Mathlib.Algebra.Order.Ring.Int
import SafeIR.Intrinsic.Catalog
import SafeIR.Target.Literal

/-!
# Exact results

A word operation computes its result modulo a power of two. Whether it overflows is a question
about the exact result, an integer: does it fit in the width, in two's complement or as a natural
number? The lemmas here answer the overflow tests of words in these terms, for every width.
-/

namespace SafeIR.Word

variable {w : Nat} {b a : BitVec w}

/-- The integers that a word of a width stands for in two's complement. -/
def FitsSigned (w : Nat) (v : Int) : Prop := -2 ^ (w - 1) ≤ v ∧ v < 2 ^ (w - 1)

/-- The integers that a word of a width stands for as a natural number. -/
def FitsUnsigned (w : Nat) (v : Int) : Prop := 0 ≤ v ∧ v < 2 ^ w

instance (w : Nat) (v : Int) : Decidable (FitsSigned w v) := inferInstanceAs (Decidable (_ ∧ _))

instance (w : Nat) (v : Int) : Decidable (FitsUnsigned w v) := inferInstanceAs (Decidable (_ ∧ _))

theorem twoPow_cast (k : Nat) : (twoPow k : Int) = 2 ^ k := Int.natCast_pow 2 k

theorem fitsSigned_toInt (a : BitVec w) : FitsSigned w a.toInt :=
  ⟨BitVec.le_toInt a, BitVec.toInt_lt⟩

theorem toInt_eq_zero_iff : b.toInt = 0 ↔ b = 0 := by
  rw [← BitVec.toInt_inj, BitVec.ofNat_eq_ofNat, BitVec.toInt_zero]

theorem fits_eq_true_iff {v : Int} : Intrinsic.fits v w = true ↔ FitsSigned w v := by
  rw [Intrinsic.fits, twoPow_cast, Bool.and_eq_true, decide_eq_true_iff, decide_eq_true_iff]
  rfl

/-! ## Literals -/

/-- The word that the literal for an integer denotes. -/
def literal (w : Nat) (v : Int) : BitVec w := BitVec.ofInt w (Target.wrapTo w v)

/-- Literals are wrapped to the width, which does not change the word. -/
theorem literal_eq_ofInt (w : Nat) (v : Int) : literal w v = BitVec.ofInt w v := by
  unfold literal Target.wrapTo
  split
  next => rfl
  next => exact BitVec.toInt_inj.mp (by simp [twoPow])

theorem toInt_literal {v : Int} (hw : w < 128) : (literal w v).toInt = Target.wrapTo w v := by
  rw [literal_eq_ofInt, BitVec.toInt_ofInt, Target.wrapTo, if_neg (by omega)]
  rfl

/-- An integer that fits is its own remainder. -/
theorem bmod_of_fitsSigned {v : Int} (hw : 0 < w) (h : FitsSigned w v) : v.bmod (2 ^ w) = v := by
  have hhalf : (2 : Int) ^ w = 2 * 2 ^ (w - 1) := by
    rw [← Int.pow_succ', Nat.sub_add_cancel hw]
  obtain ⟨hlow, hhigh⟩ := h
  refine Int.bmod_eq_of_le ?_ ?_ <;> push_cast <;> omega

theorem wrapTo_of_fitsSigned {v : Int} (hw : 0 < w) (h : FitsSigned w v) :
    Target.wrapTo w v = v := by
  unfold Target.wrapTo
  split
  next => rfl
  next => exact bmod_of_fitsSigned hw h

/-! ## Overflow tests -/

theorem saddOverflow_eq_false_iff :
    a.saddOverflow b = false ↔ FitsSigned w (a.toInt + b.toInt) := by
  simp only [BitVec.saddOverflow, FitsSigned, Bool.or_eq_false_iff, decide_eq_false_iff_not]
  omega

theorem ssubOverflow_eq_false_iff :
    a.ssubOverflow b = false ↔ FitsSigned w (a.toInt - b.toInt) := by
  simp only [BitVec.ssubOverflow, FitsSigned, Bool.or_eq_false_iff, decide_eq_false_iff_not]
  omega

theorem smulOverflow_eq_false_iff :
    a.smulOverflow b = false ↔ FitsSigned w (a.toInt * b.toInt) := by
  simp only [BitVec.smulOverflow, FitsSigned, Bool.or_eq_false_iff, decide_eq_false_iff_not]
  omega

theorem uaddOverflow_eq_false_iff :
    a.uaddOverflow b = false ↔ FitsUnsigned w (a.toNat + b.toNat) := by
  simp only [BitVec.uaddOverflow, FitsUnsigned, decide_eq_false_iff_not]
  norm_cast
  omega

theorem usubOverflow_eq_false_iff :
    a.usubOverflow b = false ↔ FitsUnsigned w (a.toNat - b.toNat) := by
  have ha : (a.toNat : Int) < 2 ^ w := by exact_mod_cast a.isLt
  simp only [BitVec.usubOverflow, FitsUnsigned, decide_eq_false_iff_not]
  omega

theorem umulOverflow_eq_false_iff :
    a.umulOverflow b = false ↔ FitsUnsigned w (a.toNat * b.toNat) := by
  simp only [BitVec.umulOverflow, FitsUnsigned, decide_eq_false_iff_not]
  norm_cast
  omega

/-- A quotient by another divisor than minus one fits where the dividend does. -/
theorem fitsSigned_tdiv {x y : Int} (hx : FitsSigned w x) (hy : y ≠ -1) :
    FitsSigned w (x.tdiv y) := by
  have hpos : (0 : Int) < 2 ^ (w - 1) := Int.pow_pos (by decide)
  obtain ⟨hlow, hhigh⟩ := hx
  by_cases hone : y = 1
  · rw [hone, Int.tdiv_one]
    exact ⟨hlow, hhigh⟩
  · -- a divisor that is no unit at least halves the magnitude
    have habs : (x.tdiv y).natAbs ≤ x.natAbs / 2 := by
      rw [Int.natAbs_tdiv]
      show x.natAbs / y.natAbs ≤ x.natAbs / 2
      by_cases hzero : y = 0
      · simp [hzero]
      · exact Nat.div_le_div_left (by omega) (by decide)
    exact ⟨by omega, by omega⟩

/-- The one quotient that does not fit is that of the least word by minus one. -/
theorem sdivOverflow_eq_false_iff (hw : 0 < w) :
    a.sdivOverflow b = false ↔ FitsSigned w (a.toInt.tdiv b.toInt) := by
  have hfits := fitsSigned_toInt a
  have hones : (BitVec.allOnes w).toInt = -1 := by rw [BitVec.toInt_allOnes, if_pos hw]
  rw [BitVec.sdivOverflow_eq]
  by_cases hone : b = BitVec.allOnes w
  · have hmin : a = BitVec.intMin w ↔ a.toInt = -2 ^ (w - 1) := by
      rw [← BitVec.toInt_inj, BitVec.toInt_intMin_of_pos hw]
    rw [hone, hones, Int.tdiv_neg, Int.tdiv_one]
    simp only [hw, decide_true, Bool.true_and, Bool.and_true, decide_eq_false_iff_not, hmin]
    unfold FitsSigned at *
    omega
  · have hne : b.toInt ≠ -1 := fun h => hone (BitVec.toInt_inj.mp (h.trans hones.symm))
    simp [hone, fitsSigned_tdiv hfits hne]

end SafeIR.Word
