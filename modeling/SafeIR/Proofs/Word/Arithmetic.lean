import SafeIR.Proofs.IR.Run
import SafeIR.Word.Checked

/-!
# Checked operations and exact results

The checked operations of words are said in terms of words: a sum overflows if a test says so, a
shift is undone to see whether it lost bits. `IR.arithmetic` is said in terms of exact results. The
lemmas here match the two, operation by operation, for every width that is not zero.
-/

namespace SafeIR.Word

open IR (divideSigned divideUnsigned exactly shiftLeft shiftRight unlessBroken)

variable {w : Nat}

/-- What an operation with promises computes: with both, the unsigned one is checked first. -/
def promised (nsw nuw : Bool) (signed unsigned : Except Trap (BitVec w)) (plain : BitVec w) :
    Except Trap (BitVec w) :=
  match nsw, nuw with
  | false, false => .ok plain
  | true, false => signed
  | false, true => unsigned
  | true, true => unsigned >>= fun _ => signed

theorem unlessOverflow_eq_unlessBroken {broken : Bool} {p : Prop} [Decidable p]
    (h : broken = false ↔ ¬ p) (result : BitVec w) :
    unlessOverflow broken result = unlessBroken p result := by
  unfold unlessOverflow unlessBroken
  by_cases hp : p
  · have hbroken : broken = true := by simpa [hp] using h
    rw [hbroken, if_pos rfl, if_pos hp]
  · rw [h.mpr hp, if_neg Bool.false_ne_true, if_neg hp]

/-- Two promises about one result are kept together. -/
theorem promised_eq_unlessBroken {p q : Prop} [Decidable p] [Decidable q] (nsw nuw : Bool)
    (result : BitVec w) :
    promised nsw nuw (unlessBroken p result) (unlessBroken q result) result
      = unlessBroken ((nsw ∧ p) ∨ (nuw ∧ q)) result := by
  unfold unlessBroken
  cases nsw <;> cases nuw <;> by_cases hp : p <;> by_cases hq : q <;>
    simp [promised, hp, hq] <;> rfl

/-! ## Sums, differences and products -/

theorem ofInt_toInt_add (a b : BitVec w) : BitVec.ofInt w (a.toInt + b.toInt) = a + b := by
  rw [BitVec.ofInt_add, BitVec.ofInt_toInt, BitVec.ofInt_toInt]

theorem ofInt_toInt_sub (a b : BitVec w) : BitVec.ofInt w (a.toInt - b.toInt) = a - b :=
  BitVec.toInt_inj.mp (by rw [BitVec.toInt_ofInt, BitVec.toInt_sub])

theorem ofInt_toInt_mul (a b : BitVec w) : BitVec.ofInt w (a.toInt * b.toInt) = a * b := by
  rw [BitVec.ofInt_mul, BitVec.ofInt_toInt, BitVec.ofInt_toInt]

theorem exactly_add (nsw nuw : Bool) (a b : BitVec w) :
    exactly (· + ·) nsw nuw a b = promised nsw nuw (addNsw a b) (addNuw a b) (a + b) := by
  rw [exactly, ofInt_toInt_add, ← promised_eq_unlessBroken, addNsw, addNuw,
    unlessOverflow_eq_unlessBroken (saddOverflow_eq_false_iff.trans not_not.symm),
    unlessOverflow_eq_unlessBroken (uaddOverflow_eq_false_iff.trans not_not.symm)]

theorem exactly_sub (nsw nuw : Bool) (a b : BitVec w) :
    exactly (· - ·) nsw nuw a b = promised nsw nuw (subNsw a b) (subNuw a b) (a - b) := by
  rw [exactly, ofInt_toInt_sub, ← promised_eq_unlessBroken, subNsw, subNuw,
    unlessOverflow_eq_unlessBroken (ssubOverflow_eq_false_iff.trans not_not.symm),
    unlessOverflow_eq_unlessBroken (usubOverflow_eq_false_iff.trans not_not.symm)]

theorem exactly_mul (nsw nuw : Bool) (a b : BitVec w) :
    exactly (· * ·) nsw nuw a b = promised nsw nuw (mulNsw a b) (mulNuw a b) (a * b) := by
  rw [exactly, ofInt_toInt_mul, ← promised_eq_unlessBroken, mulNsw, mulNuw,
    unlessOverflow_eq_unlessBroken (smulOverflow_eq_false_iff.trans not_not.symm),
    unlessOverflow_eq_unlessBroken (umulOverflow_eq_false_iff.trans not_not.symm)]

/-! ## Left shifts -/

theorem toInt_shiftLeft_eq (a : BitVec w) (k : Nat) :
    (a <<< k).toInt = (a.toInt * 2 ^ k).bmod (2 ^ w) := by
  rw [BitVec.toInt_shiftLeft, BitVec.toInt_eq_toNat_bmod a, Int.bmod_mul_bmod, Nat.shiftLeft_eq]
  push_cast
  rfl

theorem ofInt_toInt_mul_twoPow (a : BitVec w) (k : Nat) :
    BitVec.ofInt w (a.toInt * 2 ^ k) = a <<< k :=
  BitVec.toInt_inj.mp (by rw [BitVec.toInt_ofInt, toInt_shiftLeft_eq])

theorem twoPow_dvd_toInt_shiftLeft (a : BitVec w) {k : Nat} (hk : k ≤ w) :
    (2 : Int) ^ k ∣ (a <<< k).toInt := by
  have hsplit := Int.bmod_add_bdiv (a.toInt * 2 ^ k) (2 ^ w)
  rw [toInt_shiftLeft_eq, eq_sub_of_add_eq hsplit]
  push_cast
  exact Int.dvd_sub (Int.dvd_mul_left ..) (Int.dvd_mul_of_dvd_left (pow_dvd_pow 2 hk))

/-- Shifting back arithmetically undoes a left shift exactly if its result fits. -/
theorem sshiftRight_shiftLeft_eq_iff (a : BitVec w) {k : Nat} (hk : k < w) :
    (a <<< k).sshiftRight k = a ↔ FitsSigned w (a.toInt * 2 ^ k) := by
  have hpos : (0 : Int) < 2 ^ k := Int.pow_pos (by decide)
  rw [← BitVec.toInt_inj, BitVec.toInt_sshiftRight, Int.shiftRight_eq_div_pow]
  push_cast
  constructor
  · intro h
    -- the shifted word is a multiple of the power, so dividing loses nothing
    rw [← h, Int.ediv_mul_cancel (twoPow_dvd_toInt_shiftLeft a hk.le)]
    exact fitsSigned_toInt _
  · intro h
    rw [toInt_shiftLeft_eq, bmod_of_fitsSigned (by omega) h, Int.mul_ediv_cancel _ hpos.ne']

theorem ushiftRight_shiftLeft_eq_iff (a : BitVec w) {k : Nat} (hk : k < w) :
    (a <<< k) >>> k = a ↔ FitsUnsigned w (a.toNat * 2 ^ k) := by
  have hpos : 0 < 2 ^ k := Nat.two_pow_pos k
  have hfits : FitsUnsigned w (a.toNat * 2 ^ k) ↔ a.toNat * 2 ^ k < 2 ^ w := by
    unfold FitsUnsigned
    norm_cast
    omega
  rw [hfits, ← BitVec.toNat_inj, BitVec.toNat_ushiftRight, BitVec.toNat_shiftLeft,
    Nat.shiftRight_eq_div_pow, Nat.shiftLeft_eq]
  constructor
  · intro h
    have hdvd : 2 ^ k ∣ a.toNat * 2 ^ k % 2 ^ w :=
      (Nat.dvd_mod_iff (pow_dvd_pow 2 hk.le)).mpr (Nat.dvd_mul_left ..)
    rw [← h, Nat.div_mul_cancel hdvd]
    exact Nat.mod_lt _ (Nat.two_pow_pos w)
  · intro h
    rw [Nat.mod_eq_of_lt h, Nat.mul_div_cancel _ hpos]

/-- A checked left shift is by less than the width, and undone by shifting back. -/
theorem shl_eq_unlessBroken {g : BitVec w → Nat → BitVec w} {p : Prop} [Decidable p]
    (a b : BitVec w) (h : b.toNat < w → (g (a <<< b.toNat) b.toNat = a ↔ ¬ p)) :
    (if w ≤ b.toNat then .error .integerOverflow
      else unlessOverflow (g (a <<< b.toNat) b.toNat != a) (a <<< b.toNat))
      = unlessBroken (w ≤ b.toNat ∨ p) (a <<< (b.toNat % w)) := by
  by_cases hb : w ≤ b.toNat
  · simp [unlessBroken, hb]
  · have hlt : b.toNat < w := by omega
    rw [if_neg hb, Nat.mod_eq_of_lt hlt]
    refine unlessOverflow_eq_unlessBroken ?_ _
    rw [bne_eq_false_iff_eq, h hlt]
    simp [hb]

theorem shiftLeft_eq (nsw nuw : Bool) (a b : BitVec w) :
    shiftLeft nsw nuw a b
      = promised nsw nuw (shlNsw a b) (shlNuw a b) (a <<< (b.toNat % w)) := by
  rw [shiftLeft, ofInt_toInt_mul_twoPow, ← promised_eq_unlessBroken, shlNsw, shlNuw,
    shl_eq_unlessBroken (g := BitVec.sshiftRight) a b fun hb =>
      (sshiftRight_shiftLeft_eq_iff a hb).trans not_not.symm,
    shl_eq_unlessBroken (g := fun x k => x >>> k) a b fun hb =>
      (ushiftRight_shiftLeft_eq_iff a hb).trans not_not.symm]

/-! ## Right shifts -/

theorem ofNat_div_twoPow (a : BitVec w) (k : Nat) :
    BitVec.ofNat w (a.toNat / 2 ^ k) = a >>> k := by
  have hlt : a.toNat / 2 ^ k < 2 ^ w := Nat.lt_of_le_of_lt (Nat.div_le_self ..) a.isLt
  exact BitVec.eq_of_toNat_eq (by
    rw [BitVec.toNat_ofNat, Nat.mod_eq_of_lt hlt, BitVec.toNat_ushiftRight,
      Nat.shiftRight_eq_div_pow])

theorem ofInt_ediv_twoPow (a : BitVec w) (k : Nat) :
    BitVec.ofInt w (a.toInt / 2 ^ k) = a.sshiftRight k := by
  rw [BitVec.sshiftRight_eq, Int.shiftRight_eq_div_pow]
  push_cast
  rfl

/-- Shifting back gives the operand exactly if only zeros were shifted out. -/
theorem shiftLeft_ushiftRight_eq_iff (a : BitVec w) (k : Nat) :
    (a >>> k) <<< k = a ↔ a.toNat % 2 ^ k = 0 := by
  have hlt : a.toNat / 2 ^ k * 2 ^ k < 2 ^ w :=
    Nat.lt_of_le_of_lt (Nat.div_mul_le_self ..) a.isLt
  rw [← BitVec.toNat_inj, BitVec.toNat_shiftLeft, BitVec.toNat_ushiftRight,
    Nat.shiftRight_eq_div_pow, Nat.shiftLeft_eq, Nat.mod_eq_of_lt hlt]
  constructor
  · intro h
    exact Nat.mod_eq_zero_of_dvd (Dvd.intro_left _ h)
  · intro h
    exact Nat.div_mul_cancel (Nat.dvd_of_mod_eq_zero h)

/-- The two right shifts differ in bits that shifting back pushes out. -/
theorem shiftLeft_sshiftRight (a : BitVec w) (k : Nat) :
    a.sshiftRight k <<< k = (a >>> k) <<< k := by
  refine BitVec.eq_of_getLsbD_eq fun i hi => ?_
  simp only [BitVec.getLsbD_shiftLeft, BitVec.getLsbD_sshiftRight, BitVec.getLsbD_ushiftRight]
  grind

/-- Through 32 bits, an amount keeps its remainder by a width that divides `2 ^ 32`. -/
theorem amount_eq (hw : w ∣ 2 ^ 32) (b : BitVec w) : amount b = b.toNat % w := by
  rw [amount, BitVec.toNat_setWidth, Nat.mod_mod_of_dvd _ hw]

theorem shiftRight_false (hw : w ∣ 2 ^ 32) (exact : Bool) (a b : BitVec w) :
    shiftRight false exact a b
      = if exact then lshrExact a b else .ok (a >>> (b.toNat % w)) := by
  rw [shiftRight, if_neg Bool.false_ne_true, ofNat_div_twoPow]
  cases exact with
  | false => simp [unlessBroken]
  | true =>
    rw [if_pos rfl, lshrExact, amount_eq hw]
    refine (unlessOverflow_eq_unlessBroken ?_ _).symm
    rw [bne_eq_false_iff_eq, shiftLeft_ushiftRight_eq_iff]
    simp

theorem shiftRight_true (hw : w ∣ 2 ^ 32) (exact : Bool) (a b : BitVec w) :
    shiftRight true exact a b
      = if exact then ashrExact a b else .ok (a.sshiftRight (b.toNat % w)) := by
  rw [shiftRight, if_pos rfl, ofInt_ediv_twoPow]
  cases exact with
  | false => simp [unlessBroken]
  | true =>
    rw [if_pos rfl, ashrExact, amount_eq hw]
    refine (unlessOverflow_eq_unlessBroken ?_ _).symm
    rw [bne_eq_false_iff_eq, shiftLeft_sshiftRight, shiftLeft_ushiftRight_eq_iff]
    simp

/-! ## Division -/

theorem toNat_eq_zero_iff {b : BitVec w} : b.toNat = 0 ↔ b = 0 := by
  rw [← BitVec.toNat_inj, BitVec.ofNat_eq_ofNat, BitVec.toNat_zero]

theorem ofInt_tdiv (a b : BitVec w) : BitVec.ofInt w (a.toInt.tdiv b.toInt) = a.sdiv b :=
  BitVec.toInt_inj.mp (by rw [BitVec.toInt_ofInt, BitVec.toInt_sdiv])

theorem ofInt_tmod (a b : BitVec w) : BitVec.ofInt w (a.toInt.tmod b.toInt) = a.srem b := by
  rw [← BitVec.toInt_srem, BitVec.ofInt_toInt]

theorem ofNat_div (a b : BitVec w) : BitVec.ofNat w (a.toNat / b.toNat) = a.udiv b := by
  rw [← BitVec.toNat_udiv, BitVec.ofNat_toNat, BitVec.setWidth_eq]
  rfl

theorem ofNat_mod (a b : BitVec w) : BitVec.ofNat w (a.toNat % b.toNat) = a.umod b := by
  rw [← BitVec.toNat_umod, BitVec.ofNat_toNat, BitVec.setWidth_eq]
  rfl

theorem remainderSigned_eq (a b : BitVec w) :
    (if b.toInt = 0 then .error .divisionByZero
      else .ok (BitVec.ofInt w (a.toInt.tmod b.toInt))) = srem a b := by
  simp only [toInt_eq_zero_iff, ofInt_tmod]
  rfl

theorem remainderUnsigned_eq (a b : BitVec w) :
    (if b.toNat = 0 then .error .divisionByZero
      else .ok (BitVec.ofNat w (a.toNat % b.toNat))) = urem a b := by
  simp only [toNat_eq_zero_iff, ofNat_mod]
  rfl

theorem divideSigned_eq (hw : 0 < w) (exact : Bool) (a b : BitVec w) :
    divideSigned exact a b = if exact then sdivExact a b else sdiv a b := by
  by_cases hb : b = 0
  · have hzero : sdiv a b = .error .divisionByZero := if_pos hb
    rw [divideSigned, if_pos (toInt_eq_zero_iff.mpr hb), sdivExact, hzero]
    cases exact <;> rfl
  · have hdiv : sdiv a b = unlessBroken (¬ FitsSigned w (a.toInt.tdiv b.toInt)) (a.sdiv b) := by
      rw [sdiv, unlessZero, if_neg hb]
      exact unlessOverflow_eq_unlessBroken
        ((sdivOverflow_eq_false_iff hw).trans not_not.symm) _
    have hrem : srem a b = .ok (a.srem b) := if_neg hb
    rw [divideSigned, if_neg (mt toInt_eq_zero_iff.mp hb), ofInt_tdiv]
    cases exact with
    | false => simp [hdiv]
    | true =>
      rw [if_pos rfl, sdivExact, hdiv, hrem]
      by_cases hfits : FitsSigned w (a.toInt.tdiv b.toInt)
      · simp only [hfits, not_true_eq_false, false_or, true_and]
        refine (unlessOverflow_eq_unlessBroken ?_ (a.sdiv b)).symm
        rw [bne_eq_false_iff_eq, not_not, ← toInt_eq_zero_iff, BitVec.toInt_srem]
      · simp only [hfits, not_false_eq_true, true_or]
        rfl

theorem divideUnsigned_eq (exact : Bool) (a b : BitVec w) :
    divideUnsigned exact a b = if exact then udivExact a b else udiv a b := by
  by_cases hb : b = 0
  · have hzero : udiv a b = .error .divisionByZero := if_pos hb
    rw [divideUnsigned, if_pos (toNat_eq_zero_iff.mpr hb), udivExact, hzero]
    cases exact <;> rfl
  · have hdiv : udiv a b = .ok (a.udiv b) := if_neg hb
    have hrem : urem a b = .ok (a.umod b) := if_neg hb
    rw [divideUnsigned, if_neg (mt toNat_eq_zero_iff.mp hb), ofNat_div]
    cases exact with
    | false => simp [hdiv, unlessBroken]
    | true =>
      rw [if_pos rfl, udivExact, hdiv, hrem]
      simp only [true_and]
      refine (unlessOverflow_eq_unlessBroken ?_ (a.udiv b)).symm
      rw [bne_eq_false_iff_eq, not_not, ← toNat_eq_zero_iff]
      exact iff_of_eq (congrArg (· = 0) BitVec.toNat_umod)

end SafeIR.Word
