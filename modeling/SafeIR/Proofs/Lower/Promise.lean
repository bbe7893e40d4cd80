import SafeIR.Proofs.Lower.Integer

/-!
# Promises of checked operations

When a checked operation has a result, and which. `Defined` is the condition on exact results: the
sum, difference, product or quotient fits, the shift is by less than the width, only zeros are
shifted out, nothing remains. `eval_decides` says that the operation succeeds under this condition
and fails without it. What it then gives is `plain`, the result of the operation without promises,
and the code for that operation gives the same.
-/

namespace SafeIR.CheckedOp

open IR (wordWidths)
open Lower (Does)
open Word (FitsSigned FitsUnsigned)

variable {w : Nat} {a b v : BitVec w} {p : Prop} {x : Except Trap (BitVec w)}

theorem pos_of_mem (hw : w ∈ wordWidths) : 0 < w := (by decide : ∀ w ∈ wordWidths, 0 < w) w hw

/-- What is cut off behind 32 bits is a multiple of every width. -/
theorem dvd_of_mem (hw : w ∈ wordWidths) : w ∣ 2 ^ 32 :=
  (by decide : ∀ w ∈ wordWidths, w ∣ 2 ^ 32) w hw

/-! ## Conditions and results -/

/-- The operation divides by its second operand. -/
def divides : CheckedOp → Bool
  | sdiv | udiv | srem | urem | sdivExact | udivExact => true
  | _ => false

/-- The condition on the exact result. A quotient of natural numbers always fits. -/
def Defined (op : CheckedOp) (a b : BitVec w) : Prop :=
  match op with
  | addNsw => FitsSigned w (a.toInt + b.toInt)
  | addNuw => FitsUnsigned w (a.toNat + b.toNat)
  | subNsw => FitsSigned w (a.toInt - b.toInt)
  | subNuw => FitsUnsigned w (a.toNat - b.toNat)
  | mulNsw => FitsSigned w (a.toInt * b.toInt)
  | mulNuw => FitsUnsigned w (a.toNat * b.toNat)
  | shlNsw => b.toNat < w ∧ FitsSigned w (a.toInt * 2 ^ b.toNat)
  | shlNuw => b.toNat < w ∧ FitsUnsigned w (a.toNat * 2 ^ b.toNat)
  | lshrExact | ashrExact => ∀ i < b.toNat % w, a.getLsbD i = false
  | sdiv => b ≠ 0 ∧ FitsSigned w (a.toInt.tdiv b.toInt)
  | sdivExact => b ≠ 0 ∧ FitsSigned w (a.toInt.tdiv b.toInt) ∧ a.toInt.tmod b.toInt = 0
  | udivExact => b ≠ 0 ∧ a.toNat % b.toNat = 0
  | udiv | srem | urem => b ≠ 0

/-- The result without promises: it wraps, and an amount counts modulo the width. -/
def plain (op : CheckedOp) (a b : BitVec w) : BitVec w :=
  match op with
  | addNsw | addNuw => a + b
  | subNsw | subNuw => a - b
  | mulNsw | mulNuw => a * b
  | shlNsw | shlNuw => a <<< (b.toNat % w)
  | lshrExact => a >>> (b.toNat % w)
  | ashrExact => a.sshiftRight (b.toNat % w)
  | sdiv | sdivExact => BitVec.ofInt w (a.toInt.tdiv b.toInt)
  | srem => BitVec.ofInt w (a.toInt.tmod b.toInt)
  | udiv | udivExact => BitVec.ofNat w (a.toNat / b.toNat)
  | urem => BitVec.ofNat w (a.toNat % b.toNat)

/-- The trap of an operation that is not defined. -/
def failure (op : CheckedOp) (b : BitVec w) : Trap :=
  if op.divides = true ∧ b = 0 then .divisionByZero else .integerOverflow

/-- The operation whose promises are checked. -/
def instruction : CheckedOp → BinaryOp
  | addNsw | addNuw => .add
  | subNsw | subNuw => .sub
  | mulNsw | mulNuw => .mul
  | shlNsw | shlNuw => .shl
  | lshrExact => .lshr
  | ashrExact => .ashr
  | sdiv | sdivExact => .sdiv
  | udiv | udivExact => .udiv
  | srem => .srem
  | urem => .urem

/-! ## Decisions -/

/-- A computation gives one value if a condition holds, and fails in one way if not. -/
def Decides (p : Prop) (v : BitVec w) (t : Trap) (x : Except Trap (BitVec w)) : Prop :=
  (p ∧ x = .ok v) ∨ (¬ p ∧ x = .error t)

theorem Decides.eq_ok_iff {t : Trap} (h : Decides p v t x) (v' : BitVec w) :
    x = .ok v' ↔ p ∧ v' = v := by
  obtain ⟨hp, rfl⟩ | ⟨hp, rfl⟩ := h
  · rw [and_iff_right hp, Except.ok.injEq, eq_comm]
  · constructor
    · intro h
      cases h
    · intro h
      exact absurd h.1 hp

theorem Decides.eq_error_iff {t : Trap} (h : Decides p v t x) (t' : Trap) :
    x = .error t' ↔ ¬ p ∧ t' = t := by
  obtain ⟨hp, rfl⟩ | ⟨hp, rfl⟩ := h
  · constructor
    · intro h
      cases h
    · intro h
      exact absurd hp h.1
  · rw [and_iff_right hp, Except.error.injEq, eq_comm]

theorem decides_unlessBroken {broken : Prop} [Decidable broken] (h : ¬ broken ↔ p)
    (v : BitVec w) : Decides p v .integerOverflow (IR.unlessBroken broken v) := by
  by_cases hbroken : broken
  · exact .inr ⟨fun hp => h.mpr hp hbroken, if_pos hbroken⟩
  · exact .inl ⟨h.mp hbroken, if_neg hbroken⟩

theorem decides_unlessOverflow {broken : Bool} (h : broken = false ↔ p) (v : BitVec w) :
    Decides p v .integerOverflow (Word.unlessOverflow broken v) := by
  cases broken with
  | false => exact .inl ⟨h.mp rfl, rfl⟩
  | true => exact .inr ⟨fun hp => absurd (h.mpr hp) (by decide), rfl⟩

/-- A shift by less than the width, which shifting back undoes if the condition holds. -/
theorem decides_shl {g : BitVec w → Nat → BitVec w}
    (h : b.toNat < w → (g (a <<< b.toNat) b.toNat = a ↔ p)) :
    Decides (b.toNat < w ∧ p) (a <<< (b.toNat % w)) .integerOverflow
      (if w ≤ b.toNat then .error .integerOverflow
        else Word.unlessOverflow (g (a <<< b.toNat) b.toNat != a) (a <<< b.toNat)) := by
  by_cases hb : w ≤ b.toNat
  · exact .inr ⟨fun hp => absurd hp.1 (Nat.not_lt.mpr hb), if_pos hb⟩
  · have hlt : b.toNat < w := Nat.not_le.mp hb
    rw [if_neg hb, Nat.mod_eq_of_lt hlt, and_iff_right hlt]
    exact decides_unlessOverflow (bne_eq_false_iff_eq.trans (h hlt)) _

/-- A division, which has to have a divisor first. -/
theorem decides_division {op : CheckedOp} (hop : op.divides = true) {zero : Prop} [Decidable zero]
    (hzero : zero ↔ b = 0) (hx : Decides p v .integerOverflow x) :
    Decides (b ≠ 0 ∧ p) v (op.failure b) (if zero then .error .divisionByZero else x) := by
  by_cases hb : b = 0
  · rw [failure, if_pos ⟨hop, hb⟩, if_pos (hzero.mpr hb)]
    exact .inr ⟨fun h => h.1 hb, rfl⟩
  · rw [failure, if_neg fun h => hb h.2, if_neg (mt hzero.mp hb), and_iff_right hb]
    exact hx

/-- A division that fails only if there is no divisor. -/
theorem decides_unlessZero {op : CheckedOp} (hop : op.divides = true) (b v : BitVec w) :
    Decides (b ≠ 0) v (op.failure b) (Word.unlessZero b (.ok v)) := by
  have hdecides := decides_division (p := True) (v := v) hop (Iff.rfl (a := b = 0))
    (.inl ⟨trivial, rfl⟩)
  rwa [and_true] at hdecides

theorem toNat_mod_twoPow_eq_zero_iff (a : BitVec w) (k : Nat) :
    a.toNat % 2 ^ k = 0 ↔ ∀ i < k, a.getLsbD i = false := by
  constructor
  · intro h i hi
    have hbit := Nat.testBit_mod_two_pow a.toNat k i
    rw [h, Nat.zero_testBit, decide_eq_true hi, Bool.true_and] at hbit
    exact hbit.symm
  · intro h
    refine Nat.eq_of_testBit_eq fun i => ?_
    rw [Nat.testBit_mod_two_pow, Nat.zero_testBit]
    by_cases hi : i < k
    · rw [show a.toNat.testBit i = false from h i hi, Bool.and_false]
    · rw [decide_eq_false hi, Bool.false_and]

/-- **Checks.** The test that an operation makes on words is the condition on exact results. -/
theorem eval_decides (hwidth : w ∈ wordWidths) (op : CheckedOp) (a b : BitVec w) :
    Decides (op.Defined a b) (op.plain a b) (op.failure b) (op.eval a b) := by
  have hw := pos_of_mem hwidth
  cases op with
  | addNsw => exact decides_unlessOverflow Word.saddOverflow_eq_false_iff _
  | addNuw => exact decides_unlessOverflow Word.uaddOverflow_eq_false_iff _
  | subNsw => exact decides_unlessOverflow Word.ssubOverflow_eq_false_iff _
  | subNuw => exact decides_unlessOverflow Word.usubOverflow_eq_false_iff _
  | mulNsw => exact decides_unlessOverflow Word.smulOverflow_eq_false_iff _
  | mulNuw => exact decides_unlessOverflow Word.umulOverflow_eq_false_iff _
  | shlNsw =>
    exact decides_shl (g := BitVec.sshiftRight) fun hb => Word.sshiftRight_shiftLeft_eq_iff a hb
  | shlNuw =>
    exact decides_shl (g := fun x k => x >>> k) fun hb => Word.ushiftRight_shiftLeft_eq_iff a hb
  | lshrExact =>
    show Decides _ (a >>> (b.toNat % w)) _ (Word.lshrExact a b)
    rw [Word.lshrExact, Word.amount_eq (dvd_of_mem hwidth)]
    refine decides_unlessOverflow ?_ _
    rw [bne_eq_false_iff_eq, Word.shiftLeft_ushiftRight_eq_iff, toNat_mod_twoPow_eq_zero_iff]
    rfl
  | ashrExact =>
    show Decides _ (a.sshiftRight (b.toNat % w)) _ (Word.ashrExact a b)
    rw [Word.ashrExact, Word.amount_eq (dvd_of_mem hwidth)]
    refine decides_unlessOverflow ?_ _
    rw [bne_eq_false_iff_eq, Word.shiftLeft_sshiftRight, Word.shiftLeft_ushiftRight_eq_iff,
      toNat_mod_twoPow_eq_zero_iff]
    rfl
  | sdiv =>
    show Decides _ (BitVec.ofInt w _) _ _
    rw [Word.ofInt_tdiv]
    exact decides_division rfl Iff.rfl
      (decides_unlessOverflow (Word.sdivOverflow_eq_false_iff hw) _)
  | udiv =>
    show Decides _ (BitVec.ofNat w _) _ _
    rw [Word.ofNat_div]
    exact decides_unlessZero rfl b _
  | srem =>
    show Decides _ (BitVec.ofInt w _) _ _
    rw [Word.ofInt_tmod]
    exact decides_unlessZero rfl b _
  | urem =>
    show Decides _ (BitVec.ofNat w _) _ _
    rw [Word.ofNat_mod]
    exact decides_unlessZero rfl b _
  | sdivExact =>
    -- Both tests at once are those of the division on exact numbers.
    have hexact : Word.sdivExact a b = IR.divideSigned true a b :=
      ((Word.divideSigned_eq hw true a b).trans (if_pos rfl)).symm
    show Decides _ _ _ (Word.sdivExact a b)
    rw [hexact]
    exact decides_division rfl Word.toInt_eq_zero_iff (decides_unlessBroken (by simp) _)
  | udivExact =>
    have hexact : Word.udivExact a b = IR.divideUnsigned true a b :=
      ((Word.divideUnsigned_eq true a b).trans (if_pos rfl)).symm
    show Decides _ _ _ (Word.udivExact a b)
    rw [hexact]
    exact decides_division rfl Word.toNat_eq_zero_iff (decides_unlessBroken (by simp) _)

/-! ## Operations without promises -/

/-- Where nothing is promised, the operation has the same result. -/
theorem arithmetic_wrap (hwidth : w ∈ wordWidths) {op : CheckedOp} (h : op.eval a b = .ok v)
    (flags : WrapFlags) : IR.arithmetic .wrap op.instruction flags a b = some (.ok v) := by
  have hflag (flag : Bool) : decide (Overflow.wrap = .trap ∧ flag = true) = false := by simp
  have hw := pos_of_mem hwidth
  obtain ⟨hdefined, rfl⟩ := ((eval_decides hwidth op a b).eq_ok_iff v).mp h
  cases op with
  | addNsw | addNuw =>
    simp only [IR.arithmetic, instruction, hflag, Word.exactly_add]
    rfl
  | subNsw | subNuw =>
    simp only [IR.arithmetic, instruction, hflag, Word.exactly_sub]
    rfl
  | mulNsw | mulNuw =>
    simp only [IR.arithmetic, instruction, hflag, Word.exactly_mul]
    rfl
  | shlNsw | shlNuw =>
    simp only [IR.arithmetic, instruction, hflag, Word.shiftLeft_eq]
    rfl
  | lshrExact =>
    simp only [IR.arithmetic, instruction, hflag, Word.shiftRight_false (dvd_of_mem hwidth)]
    rfl
  | ashrExact =>
    simp only [IR.arithmetic, instruction, hflag, Word.shiftRight_true (dvd_of_mem hwidth)]
    rfl
  | sdiv =>
    simp only [IR.arithmetic, instruction, hflag, Word.divideSigned_eq hw]
    exact congrArg some h
  | sdivExact =>
    -- The remainder was checked on top of what every division checks.
    have hdiv := ((eval_decides hwidth .sdiv a b).eq_ok_iff _).mpr ⟨⟨hdefined.1, hdefined.2.1⟩, rfl⟩
    simp only [IR.arithmetic, instruction, hflag, Word.divideSigned_eq hw]
    exact congrArg some hdiv
  | udiv =>
    simp only [IR.arithmetic, instruction, hflag, Word.divideUnsigned_eq]
    exact congrArg some h
  | udivExact =>
    have hdiv := ((eval_decides hwidth .udiv a b).eq_ok_iff _).mpr ⟨hdefined.1, rfl⟩
    simp only [IR.arithmetic, instruction, hflag, Word.divideUnsigned_eq]
    exact congrArg some hdiv
  | srem =>
    simp only [IR.arithmetic, instruction, Word.remainderSigned_eq]
    exact congrArg some h
  | urem =>
    simp only [IR.arithmetic, instruction, Word.remainderUnsigned_eq]
    exact congrArg some h

section Code

variable {σ : Type} {sup : Target.Support σ} {e : Target.Env σ} {l r : Target.Expr}

/-- The code for the operation without promises leaves the same word in its variable. -/
theorem does_wrap (hw : w ∈ wordWidths) {op : CheckedOp} (h : op.eval a b = .ok v)
    (hl : l.eval sup e = some (.word true w a)) (hr : r.eval sup e = some (.word true w b))
    (flags : WrapFlags) (dest : Target.Var) :
    ∃ steps, Lower.binary dest op.instruction (.int w) l r flags .wrap = .ok steps ∧
      Does sup steps e (.ok (e.set dest (.word true w v))) := by
  obtain ⟨steps, hsteps⟩ :
      ∃ steps, Lower.binary dest op.instruction (.int w) l r flags .wrap = .ok steps := by
    cases op <;> exact ⟨_, rfl⟩
  exact ⟨steps, hsteps, Lower.does_binary hw hl hr hsteps (arithmetic_wrap hw h flags)⟩

end Code

/-! ## Quotients and remainders -/

/-- A remainder is smaller than the divisor, and zero or of the dividend's sign. -/
theorem signed_division (hw : w ∈ wordWidths) {q r : BitVec w} (hq : Word.sdiv a b = .ok q)
    (hr : Word.srem a b = .ok r) :
    q.toInt * b.toInt + r.toInt = a.toInt ∧ r.toInt.natAbs < b.toInt.natAbs ∧
      (0 ≤ a.toInt → 0 ≤ r.toInt) ∧ (a.toInt ≤ 0 → r.toInt ≤ 0) := by
  obtain ⟨⟨hb, hfits⟩, rfl⟩ := ((eval_decides hw .sdiv a b).eq_ok_iff q).mp hq
  obtain ⟨-, rfl⟩ := ((eval_decides hw .srem a b).eq_ok_iff r).mp hr
  have hq : (BitVec.ofInt w (a.toInt.tdiv b.toInt)).toInt = a.toInt.tdiv b.toInt := by
    rw [BitVec.toInt_ofInt, Word.bmod_of_fitsSigned (pos_of_mem hw) hfits]
  have hr : (BitVec.ofInt w (a.toInt.tmod b.toInt)).toInt = a.toInt.tmod b.toInt := by
    rw [Word.ofInt_tmod, BitVec.toInt_srem]
  have hzero : b.toInt ≠ 0 := mt Word.toInt_eq_zero_iff.mp hb
  simp only [plain, hq, hr]
  refine ⟨Int.tdiv_mul_add_tmod .., ?_, Int.tmod_nonneg _, fun ha => ?_⟩
  · rw [Int.natAbs_tmod]
    exact Nat.mod_lt _ (Int.natAbs_pos.mpr hzero)
  · have hneg := Int.tmod_nonneg b.toInt (Int.neg_nonneg.mpr ha)
    rw [Int.neg_tmod] at hneg
    omega

theorem unsigned_division (hw : w ∈ wordWidths) {q r : BitVec w} (hq : Word.udiv a b = .ok q)
    (hr : Word.urem a b = .ok r) :
    q.toNat * b.toNat + r.toNat = a.toNat ∧ r.toNat < b.toNat := by
  obtain ⟨hb, rfl⟩ := ((eval_decides hw .udiv a b).eq_ok_iff q).mp hq
  obtain ⟨-, rfl⟩ := ((eval_decides hw .urem a b).eq_ok_iff r).mp hr
  have hzero : b.toNat ≠ 0 := mt Word.toNat_eq_zero_iff.mp hb
  simp only [plain, Word.ofNat_div, Word.ofNat_mod]
  have hq : (a.udiv b).toNat = a.toNat / b.toNat := BitVec.toNat_udiv
  have hr : (a.umod b).toNat = a.toNat % b.toNat := BitVec.toNat_umod
  rw [hq, hr]
  exact ⟨Nat.div_add_mod' .., Nat.mod_lt _ (Nat.pos_of_ne_zero hzero)⟩

theorem srem_intMin (hw : w ∈ wordWidths) : Word.srem (BitVec.intMin w) (-1#w) = .ok 0 := by
  have hone : (-1#w).toInt = -1 := by
    rw [BitVec.neg_one_eq_allOnes, BitVec.toInt_allOnes, if_pos (pos_of_mem hw)]
  have hne : (-1#w) ≠ 0 := mt Word.toInt_eq_zero_iff.mpr (by rw [hone]; decide)
  refine ((eval_decides hw .srem (BitVec.intMin w) (-1#w)).eq_ok_iff 0).mpr ⟨hne, ?_⟩
  rw [plain, hone, Int.tmod_neg, Int.tmod_one]
  rfl

/-! ## All of them -/

/-- A checked operation succeeds exactly under its condition on exact results. Its value is then the
one without promises, which the code for the operation leaves too where promises are not checked.
It fails for a zero divisor if it divides by one, and else for the broken promise. -/
theorem checked_operations_trap_exactly (w : Nat) (hw : w ∈ wordWidths) (a b : BitVec w) :
    (∀ op : CheckedOp,
      (∀ v, op.eval a b = .ok v ↔ op.Defined a b ∧ v = op.plain a b) ∧
      (∀ t, op.eval a b = .error t ↔ ¬ op.Defined a b ∧
        t = if op.divides = true ∧ b = 0 then .divisionByZero else .integerOverflow) ∧
      ∀ v, op.eval a b = .ok v → ∀ (σ : Type) (sup : Target.Support σ) (e : Target.Env σ) l r,
        l.eval sup e = some (.word true w a) → r.eval sup e = some (.word true w b) →
        ∀ flags dest, ∃ steps,
          Lower.binary dest op.instruction (.int w) l r flags .wrap = .ok steps ∧
            Does sup steps e (.ok (e.set dest (.word true w v)))) ∧
    (∀ q r, Word.sdiv a b = .ok q → Word.srem a b = .ok r →
      q.toInt * b.toInt + r.toInt = a.toInt ∧ r.toInt.natAbs < b.toInt.natAbs ∧
        (0 ≤ a.toInt → 0 ≤ r.toInt) ∧ (a.toInt ≤ 0 → r.toInt ≤ 0)) ∧
    (∀ q r, Word.udiv a b = .ok q → Word.urem a b = .ok r →
      q.toNat * b.toNat + r.toNat = a.toNat ∧ r.toNat < b.toNat) ∧
    Word.srem (BitVec.intMin w) (-1#w) = .ok 0 ∧
    (b.setWidth 32).toNat % w = b.toNat % w := by
  refine ⟨fun op => ⟨(eval_decides hw op a b).eq_ok_iff, (eval_decides hw op a b).eq_error_iff, ?_⟩,
    fun q r => signed_division hw, fun q r => unsigned_division hw, srem_intMin hw,
    Word.amount_eq (dvd_of_mem hw) b⟩
  intro v h σ sup e l r hl hr flags dest
  exact does_wrap hw h hl hr flags dest

/-- An amount above 32 bits: the exact right shift takes it modulo the width, the left shift traps.
The least word by minus one leaves zero but has no quotient. -/
theorem checked_operations_at_long_amount :
    64 ∈ wordWidths ∧ lshrExact.eval 256#64 0x100000008#64 = .ok 1#64 ∧
      shlNuw.eval 256#64 0x100000008#64 = .error .integerOverflow ∧
      Word.srem (BitVec.intMin 64) (-1#64) = .ok 0 ∧
      sdiv.eval (BitVec.intMin 64) (-1#64) = .error .integerOverflow := by
  have hw : 64 ∈ wordWidths := by decide
  obtain ⟨hshift, -, -, hrem, -⟩ := checked_operations_trap_exactly 64 hw 256#64 0x100000008#64
  obtain ⟨hdiv, -⟩ := checked_operations_trap_exactly 64 hw (BitVec.intMin 64) (-1#64)
  refine ⟨hw, ((hshift lshrExact).1 _).mpr ⟨?_, by decide⟩, ((hshift shlNuw).2.1 _).mpr ⟨?_, rfl⟩,
    hrem, ((hdiv sdiv).2.1 _).mpr ⟨?_, by decide⟩⟩
  · show ∀ i < 8, (256#64).getLsbD i = false
    decide
  · rintro ⟨hamount, -⟩
    exact absurd hamount (by decide)
  · rintro ⟨-, hfits⟩
    exact absurd hfits (by decide)

end SafeIR.CheckedOp
