import SafeIR.Proofs.IR.Progress
import SafeIR.Proofs.Lower.Edge
import SafeIR.Proofs.Word.Arithmetic

/-!
# Integers in generated code

How the code for operations on integers computes what they mean. A word of one bit is a truth value
in generated code, and every other word is a signed one of its width (`represent`). What reads a
word as unsigned goes through conversions that keep its bits.

The main statements are `Frame.operand_represents` for operands, `does_binary` for arithmetic and
`icmp_represents` and `cast_represents` for comparisons and conversions.
-/

namespace SafeIR.Lower

open IR (Constant Datum Operand wordWidths)
open Layout (Scalar)
open Target (Action Env Expr Flow Step Stmt Support Var exec runSteps)

variable {σ : Type} {sup : Support σ} {e : Env σ} {w bits : Nat}

/-! ## Representation -/

/-- A word as generated code keeps it. -/
def represent : Datum → Target.Value
  | ⟨1, x⟩ => .bool (x = 1)
  | ⟨w, x⟩ => .word true w x

@[simp] theorem represent_bit (x : BitVec 1) : represent ⟨1, x⟩ = .bool (x = 1) := rfl

theorem represent_word (hw : w ∈ wordWidths) (x : BitVec w) :
    represent ⟨w, x⟩ = .word true w x := by
  unfold represent
  split
  next heq =>
    cases heq
    exact absurd hw (by decide)
  next heq =>
    cases heq
    rfl

theorem represent_isTrue {d : Datum} {holds : Bool} (h : d.isTrue? = some holds) :
    represent d = .bool holds := by
  unfold Datum.isTrue? at h
  split at h
  next =>
    cases h
    rfl
  next => cases h

/-- Words of one integer type are told apart. -/
theorem represent_inj (hbits : (IR.Ty.int bits).IsInteger) {x y : BitVec bits} :
    represent ⟨bits, x⟩ = represent ⟨bits, y⟩ ↔ x = y := by
  obtain rfl | hw := hbits
  · revert x y
    decide
  · rw [represent_word hw, represent_word hw]
    simp

/-- The variables hold the values computed so far. -/
def Holds (env : IR.Env) (e : Env σ) : Prop :=
  ∀ v d, env v = some d → e.store (.value v) = represent d

theorem Holds.set {env : IR.Env} (h : Holds env e) (v : IR.ValueId) (d : Datum) :
    Holds (env.set v d) (e.set (.value v) (represent d)) := by
  intro v' d' h'
  unfold IR.Env.set at h'
  split at h'
  next heq =>
    cases h'
    rw [heq, Env.set_store_self]
  next hne =>
    rw [Env.set_store_of_ne fun heq => hne (by cases heq; rfl)]
    exact h v' d' h'

theorem Holds.setAll {env : IR.Env} (h : Holds env e) (values : List (IR.ValueId × Datum)) :
    Holds (env.setAll values) (e.setAll (values.map fun p => (.value p.1, represent p.2))) := by
  induction values generalizing env e with
  | nil => exact h
  | cons p values ih => exact ih (h.set p.1 p.2)

/-! ## Scalars and operands -/

theorem wordBits_of_mem (hw : w ∈ wordWidths) : Scalar.wordBits w = w :=
  (by decide : ∀ w ∈ wordWidths, Scalar.wordBits w = w) w hw

theorem ty_int (hw : w ∈ wordWidths) : (Scalar.int w).ty = .signed w :=
  congrArg Target.Ty.signed (wordBits_of_mem hw)

theorem unsignedTy_int (hw : w ∈ wordWidths) : (Scalar.int w).unsignedTy = .unsigned w :=
  congrArg Target.Ty.unsigned (wordBits_of_mem hw)

/-- The scalar of an integer type. -/
def scalarOf (bits : Nat) : Scalar := if bits = 1 then .bool else .int bits

theorem scalarOf_word (hw : w ∈ wordWidths) : scalarOf w = .int w :=
  if_neg fun h => absurd (h ▸ hw) (by decide)

theorem Frame.scalar_int {fr : Frame} {s : Site} {scalar : Scalar}
    (h : fr.scalar s (.int bits) = .ok scalar) : scalar = scalarOf bits := by
  obtain ⟨layout, hlayout, h⟩ := bind_eq_ok.mp h
  obtain hlayout := mapError_eq_ok.mp hlayout
  simp only [Layout.ofType, Layout.ofLeaf] at hlayout
  unfold scalarOf
  split at hlayout
  next hbits =>
    cases hlayout
    cases h
    rw [if_pos hbits]
  next hbits =>
    rw [if_neg hbits]
    split at hlayout
    next =>
      split at hlayout
      next => cases hlayout
      next =>
        cases hlayout
        cases h
        rfl
    next => cases hlayout

theorem literal_represents (hbits : (IR.Ty.int bits).IsInteger) (v : Int) :
    Target.Value.literal v (scalarOf bits) = represent ⟨bits, BitVec.ofInt bits v⟩ := by
  obtain rfl | hw := hbits
  · show Target.Value.bool _ = Target.Value.bool _
    congr 1
    rw [decide_eq_decide, ← BitVec.toNat_inj, BitVec.toNat_ofInt]
    simp
    omega
  · rw [scalarOf_word hw, represent_word hw]
    show Target.Value.word true (Scalar.wordBits bits) (BitVec.ofInt _ (Target.wrapTo bits v)) = _
    rw [wordBits_of_mem hw]
    exact congrArg (Target.Value.word true bits) (Word.literal_eq_ofInt bits v)

theorem zero_represents (hbits : (IR.Ty.int bits).IsInteger) :
    Target.Value.zero (scalarOf bits) = represent ⟨bits, 0⟩ := by
  obtain rfl | hw := hbits
  · rfl
  · rw [scalarOf_word hw, represent_word hw]
    show Target.Value.word true (Scalar.wordBits bits) 0 = _
    rw [wordBits_of_mem hw]

/-- **Operands.** The code of an operand has the word of the operand. -/
theorem Frame.operand_represents {fr : Frame} {s : Site} {ty : IR.Ty} {o : Operand} {x : Expr}
    {env : IR.Env} {d : Datum} (h : fr.operand s ty o = .ok x) (hty : ty.IsInteger)
    (hd : o.datum? env ty = some d) (he : Holds env e) : x.eval sup e = some (represent d) := by
  cases o with
  | value v =>
    cases h
    exact congrArg some (he v d hd)
  | const c =>
    obtain ⟨bits, rfl⟩ : ∃ bits, ty = .int bits := ⟨_, IR.Constant.bits_of_datum? hd⟩
    cases c with
    | int v =>
      obtain ⟨scalar, hscalar, h⟩ := bind_eq_ok.mp h
      cases h
      cases hd
      exact Frame.scalar_int hscalar ▸ congrArg some (literal_represents hty v)
    | bool b =>
      obtain ⟨scalar, hscalar, h⟩ := bind_eq_ok.mp h
      cases h
      cases hd
      exact Frame.scalar_int hscalar ▸ congrArg some (literal_represents hty _)
    | undef | zero =>
      obtain ⟨scalar, hscalar, h⟩ := bind_eq_ok.mp h
      cases h
      cases hd
      exact Frame.scalar_int hscalar ▸ congrArg some (zero_represents hty)
    | float _ | null | bytes _ | array _ | struct _ | global _ => cases hd
  | global | function | metadata => cases hd

/-! ## Steps that may trap -/

/-- Steps without calls: they end with other variables, or leave the function with a trap. -/
def Does (sup : Support σ) (steps : List Step) (e : Env σ) (r : Except Trap (Env σ)) : Prop :=
  ∀ rest next, runSteps sup rest next steps e = match r with
    | .ok e' => next e'
    | .error t => .left e.world (.error (.trap t))

theorem Does.append_ok {steps steps' : List Step} {e' : Env σ} {r : Except Trap (Env σ)}
    (h : Does sup steps e (.ok e')) (hworld : e'.world = e.world) (h' : Does sup steps' e' r) :
    Does sup (steps ++ steps') e r := by
  intro rest next
  rw [Target.runSteps_append, h, ← hworld]
  exact h' rest next

theorem Does.append_error {steps : List Step} {t : Trap} (h : Does sup steps e (.error t))
    (steps' : List Step) : Does sup (steps ++ steps') e (.error t) := by
  intro rest next
  rw [Target.runSteps_append, h]

theorem does_step {s : Step} {r : Except Trap (Env σ)} (hcall : s.call? = none)
    (hs : s.eval sup e = some (r.mapError .trap, e.world)) : Does sup [s] e r := by
  intro rest next
  rw [runSteps, hcall, hs]
  cases r <;> rfl

theorem does_pure {x : Expr} {v : Target.Value} (h : x.eval sup e = some v) (dest : Var) :
    Does sup [.assign dest (.pure x)] e (.ok (e.set dest v)) := by
  refine does_step rfl ?_
  rw [Step.eval, Action.eval_pure h]
  rfl

section Arithmetic

variable {l r : Expr} {a b : BitVec w} (hw : w ∈ wordWidths)
  (hl : l.eval sup e = some (.word true w a)) (hr : r.eval sup e = some (.word true w b))

include hw hl hr

theorem eval_checked (op : CheckedOp) :
    (Action.checked (.int w) op l r).eval sup e
      = some (((op.eval a b).map (Target.Value.word true w)).mapError .trap, e) := by
  have hchecked : Target.checkedWords (.int w) op (.word true w a) (.word true w b)
      = some (((op.eval a b).map (Target.Value.word true w)).mapError .trap) := by
    rw [Target.checkedWords, dif_pos rfl, if_pos (ty_int hw)]
    cases op.eval a b <;> rfl
  simp [Action.eval, hl, hr, hchecked]

theorem does_checked (op : CheckedOp) (dest : Var) :
    Does sup [.assign dest (.checked (.int w) op l r)] e
      ((op.eval a b).map fun z => e.set dest (.word true w z)) := by
  refine does_step rfl ?_
  rw [Step.eval, eval_checked hw hl hr]
  cases op.eval a b <;> rfl

theorem does_run_checked (op : CheckedOp) :
    Does sup [.run (.checked (.int w) op l r)] e ((op.eval a b).map fun _ => e) := by
  refine does_step rfl ?_
  rw [Step.eval, eval_checked hw hl hr]
  cases op.eval a b <;> rfl

/-- Promises are checked as `Word.promised` says. -/
theorem does_promised (nsw nuw : Bool) (signed unsigned : CheckedOp) {plain : Expr} {p : BitVec w}
    (hplain : plain.eval sup e = some (.word true w p)) (dest : Var) :
    Does sup (promised dest (.int w) l r nsw nuw signed unsigned plain) e
      ((Word.promised nsw nuw (signed.eval a b) (unsigned.eval a b) p).map fun z =>
        e.set dest (.word true w z)) := by
  match nsw, nuw with
  | false, false => exact does_pure hplain dest
  | true, false => exact does_checked hw hl hr signed dest
  | false, true => exact does_checked hw hl hr unsigned dest
  | true, true =>
    -- the first check is made for its trap alone, so the variables are as before
    have hrun := does_run_checked hw hl hr unsigned
    show Does sup ([_] ++ [_]) e ((unsigned.eval a b >>= fun _ => signed.eval a b).map _)
    cases h : unsigned.eval a b with
    | error t =>
      rw [h] at hrun
      exact hrun.append_error _
    | ok z =>
      rw [h] at hrun
      exact hrun.append_ok rfl (does_checked hw hl hr signed dest)

end Arithmetic

section Shift

variable {l r : Expr} {a b : BitVec w}

theorem eval_wrapping {signed : Bool} {op : Target.WrappingOp} {z : BitVec w}
    (hl : l.eval sup e = some (.word signed w a)) (hr : r.eval sup e = some (.word signed w b))
    (hz : op.arithmetic a b = some z) :
    (Expr.wrapping op l r).eval sup e = some (.word signed w z) := by
  have heval : op.eval (.word signed w a) (.word signed w b) = some (.word signed w z) := by
    cases op <;> simp_all [Target.WrappingOp.eval, Target.WrappingOp.arithmetic]
  simp [Expr.eval, hl, hr, heval]

theorem eval_binary {op : Target.BinaryOp} {x y v : Target.Value} (hl : l.eval sup e = some x)
    (hr : r.eval sup e = some y) (hv : op.eval x y = some v) :
    (Expr.binary op l r).eval sup e = some v := by
  simp [Expr.eval, hl, hr, hv]

/-- An operation on words of one type. -/
theorem eval_onWords {signed : Bool} {op : Target.BinaryOp} {v : Target.Value}
    (hl : l.eval sup e = some (.word signed w a)) (hr : r.eval sup e = some (.word signed w b))
    (hv : op.onWords signed a b = some v) : (Expr.binary op l r).eval sup e = some v :=
  eval_binary hl hr (by simp [Target.BinaryOp.eval, Target.Value.beside, hv])

/-- The width divides every power of two that a conversion to 32 bits wraps at. -/
theorem signExtend_toNat_mod (hw : w ∈ wordWidths) (b : BitVec w) :
    (b.signExtend 32).toNat % w = b.toNat % w := by
  have hb := b.isLt
  rw [BitVec.toNat_signExtend, BitVec.toNat_setWidth]
  simp only [wordWidths, List.mem_cons, List.not_mem_nil, or_false] at hw
  obtain rfl | rfl | rfl | rfl | rfl := hw <;> split <;> omega

theorem eval_amount (hr : r.eval sup e = some (.word true w b)) :
    (Expr.cast r u32).eval sup e = some (.word false 32 (b.signExtend 32)) := by
  simp [Expr.eval, hr, u32, Target.Value.cast]

theorem eval_shift (hw : w ∈ wordWidths) {signed : Bool} {op : Target.WrappingOp} {z : BitVec w}
    (hl : l.eval sup e = some (.word signed w a)) (hr : r.eval sup e = some (.word true w b))
    (hz : op.shift signed a b.toNat = some z) :
    (Expr.wrapping op l (.cast r u32)).eval sup e = some (.word signed w z) := by
  have hamount : op.shift signed a (b.signExtend 32).toNat = some z := by
    rw [← hz]
    cases op <;> simp only [Target.WrappingOp.shift, signExtend_toNat_mod hw]
  have heval : op.eval (.word signed w a) (.word false 32 (b.signExtend 32))
      = some (.word signed w z) := by
    cases op <;> simp_all [Target.WrappingOp.eval, Target.WrappingOp.shift]
  rw [Expr.eval, hl, eval_amount hr]
  exact heval

/-- A word read as unsigned has the same bits. -/
theorem eval_unsigned (hw : w ∈ wordWidths) (hl : l.eval sup e = some (.word true w a)) :
    (Expr.paren (.cast l (Scalar.int w).unsignedTy)).eval sup e = some (.word false w a) := by
  rw [unsignedTy_int hw]
  simp [Expr.eval, hl, Target.Value.cast]

end Shift

/-- **Arithmetic.** The code for an operation does what it means, traps included. -/
theorem does_binary (hw : w ∈ wordWidths) {l r : Expr} {a b : BitVec w}
    (hl : l.eval sup e = some (.word true w a)) (hr : r.eval sup e = some (.word true w b))
    {op : BinaryOp} {flags : WrapFlags} {overflow : Overflow} {dest : Var} {steps : List Step}
    (hsteps : binary dest op (.int w) l r flags overflow = .ok steps)
    {z : Except Trap (BitVec w)} (hz : IR.arithmetic overflow op flags a b = some z) :
    Does sup steps e (z.map fun z => e.set dest (.word true w z)) := by
  have hpos : 0 < w := (by decide : ∀ w ∈ wordWidths, 0 < w) w hw
  have hdvd : w ∣ 2 ^ 32 := (by decide : ∀ w ∈ wordWidths, w ∣ 2 ^ 32) w hw
  have hflag (flag : Bool) :
      decide (overflow = .trap ∧ flag = true) = (decide (overflow = .trap) && flag) := by simp
  simp only [binary, intBinary] at hsteps
  simp only [IR.arithmetic, hflag] at hz
  cases op with
  | add =>
    cases hsteps
    cases hz
    rw [Word.exactly_add]
    exact does_promised hw hl hr _ _ .addNsw .addNuw (eval_wrapping hl hr rfl) dest
  | sub =>
    cases hsteps
    cases hz
    rw [Word.exactly_sub]
    exact does_promised hw hl hr _ _ .subNsw .subNuw (eval_wrapping hl hr rfl) dest
  | mul =>
    cases hsteps
    cases hz
    rw [Word.exactly_mul]
    exact does_promised hw hl hr _ _ .mulNsw .mulNuw (eval_wrapping hl hr rfl) dest
  | shl =>
    cases hsteps
    cases hz
    rw [Word.shiftLeft_eq]
    exact does_promised hw hl hr _ _ .shlNsw .shlNuw (eval_shift hw hl hr rfl) dest
  | lshr =>
    cases hz
    dsimp only at hsteps
    rw [Word.shiftRight_false hdvd]
    by_cases hexact : (decide (overflow = .trap) && flags.exact) = true
    · rw [if_pos hexact] at hsteps ⊢
      cases hsteps
      exact does_checked hw hl hr .lshrExact dest
    · rw [if_neg hexact] at hsteps ⊢
      cases hsteps
      -- zeros are shifted in because the word is read as unsigned on the way
      refine does_pure ?_ dest
      rw [Expr.eval, eval_shift hw (eval_unsigned hw hl) hr rfl, ty_int hw]
      simp [Target.Value.cast]
  | ashr =>
    cases hz
    dsimp only at hsteps
    rw [Word.shiftRight_true hdvd]
    by_cases hexact : (decide (overflow = .trap) && flags.exact) = true
    · rw [if_pos hexact] at hsteps ⊢
      cases hsteps
      exact does_checked hw hl hr .ashrExact dest
    · rw [if_neg hexact] at hsteps ⊢
      cases hsteps
      exact does_pure (eval_shift hw hl hr rfl) dest
  | sdiv =>
    cases hsteps
    cases hz
    rw [Word.divideSigned_eq hpos]
    split
    · exact does_checked hw hl hr .sdivExact dest
    · exact does_checked hw hl hr .sdiv dest
  | udiv =>
    cases hsteps
    cases hz
    rw [Word.divideUnsigned_eq]
    split
    · exact does_checked hw hl hr .udivExact dest
    · exact does_checked hw hl hr .udiv dest
  | srem =>
    cases hsteps
    cases hz
    rw [Word.remainderSigned_eq]
    exact does_checked hw hl hr .srem dest
  | urem =>
    cases hsteps
    cases hz
    rw [Word.remainderUnsigned_eq]
    exact does_checked hw hl hr .urem dest
  | and | or | xor =>
    cases hsteps
    cases hz
    exact does_pure (eval_onWords hl hr rfl) dest
  | fadd | fsub | fmul | fdiv | frem => cases hz

/-! ## Comparisons -/

theorem represent_ofBool (c : Bool) : represent ⟨1, BitVec.ofBool c⟩ = .bool c := by
  cases c <;> rfl

/-- Truth values in order: true is minus one as a signed word. -/
theorem onBools_comparison (pred : IntPredicate) (a b : BitVec 1) :
    (if isSigned pred then flipped (comparison pred) else comparison pred).onBools (a = 1) (b = 1)
      = some (.bool (IR.compare pred a b)) := by
  cases pred <;> revert a b <;> decide

theorem onWords_comparison (pred : IntPredicate) (a b : BitVec w) :
    (comparison pred).onWords (! isUnsigned pred) a b = some (.bool (IR.compare pred a b)) := by
  have hnat (m n : Nat) : (! decide (m < n)) = decide (n ≤ m) := by
    rw [← decide_not, decide_eq_decide, Nat.not_lt]
  have hint (m n : Int) : (! decide (m < n)) = decide (n ≤ m) := by
    rw [← decide_not, decide_eq_decide, Int.not_lt]
  cases pred <;>
    simp [comparison, isUnsigned, Target.BinaryOp.onWords, IR.compare, BitVec.slt, BitVec.ult,
      hnat, hint]

/-- **Comparisons.** The code of a comparison has the truth value of the comparison. -/
theorem icmp_represents (hbits : (IR.Ty.int bits).IsInteger) {l r : Expr} {a b : BitVec bits}
    (hl : l.eval sup e = some (represent ⟨bits, a⟩))
    (hr : r.eval sup e = some (represent ⟨bits, b⟩)) (pred : IntPredicate) :
    (icmp pred (scalarOf bits) l r).eval sup e
      = some (represent ⟨1, BitVec.ofBool (IR.compare pred a b)⟩) := by
  rw [represent_ofBool]
  obtain rfl | hw := hbits
  · exact eval_binary hl hr (onBools_comparison pred a b)
  · rw [represent_word hw] at hl hr
    rw [scalarOf_word hw, icmp]
    have hv := onWords_comparison pred a b
    cases hpred : isUnsigned pred with
    | true =>
      rw [hpred] at hv
      exact eval_onWords (eval_unsigned hw hl) (eval_unsigned hw hr) hv
    | false =>
      rw [hpred] at hv
      exact eval_onWords hl hr hv

/-! ## Conversions -/

/-- Whether a word is odd is its lowest bit. -/
theorem and_one_ne_zero_iff (hw : w ∈ wordWidths) (x : BitVec w) :
    x &&& 1#w ≠ 0#w ↔ BitVec.ofNat 1 x.toNat = 1 := by
  have hone : (1#w).toNat = 1 := (by decide : ∀ w ∈ wordWidths, (1#w).toNat = 1) w hw
  rw [Ne, ← BitVec.toNat_inj, ← BitVec.toNat_inj, BitVec.toNat_and, hone, Nat.and_one_is_mod]
  simp

theorem lowBit_represents (hw : w ∈ wordWidths) {v : Expr} {x : BitVec w}
    (hv : v.eval sup e = some (.word true w x)) :
    (lowBit v).eval sup e = some (represent ⟨1, BitVec.ofNat 1 x.toNat⟩) := by
  have hand : Target.BinaryOp.and.eval (.word true w x) (.numeral 1)
      = some (.word true w (x &&& 1#w)) := by
    simp [Target.BinaryOp.eval, Target.Value.beside, Target.BinaryOp.onWords]
  have hne : Target.BinaryOp.ne.eval (.word true w (x &&& 1#w)) (.numeral 0)
      = some (.bool (x &&& 1#w ≠ 0#w)) := by
    simp [Target.BinaryOp.eval, Target.Value.beside, Target.BinaryOp.onWords]
  rw [represent_bit, ← decide_eq_decide.mpr (and_one_ne_zero_iff hw x)]
  exact eval_binary (eval_binary hv rfl hand) rfl hne

/-- There is an integer type of a lesser width only for words. -/
theorem word_of_lt {bits' : Nat} (h : (IR.Ty.int bits).IsInteger) (h' : (IR.Ty.int bits').IsInteger)
    (hlt : bits < bits') : bits' ∈ wordWidths := by
  have hpos : 0 < bits := by
    obtain rfl | hw := h
    · decide
    · exact (by decide : ∀ w ∈ wordWidths, 0 < w) bits hw
  obtain rfl | hw := h'
  · omega
  · exact hw

theorem ofBool_eq_one (x : BitVec 1) : BitVec.ofBool (x = 1#1) = x := by
  revert x
  decide

/-- A truth value, as a signed word, is its negation as an unsigned one. -/
theorem neg_setWidth_bit (x : BitVec 1) : -(x.setWidth w) = BitVec.ofInt w x.toInt := by
  obtain rfl | rfl : x = 0 ∨ x = 1 := by
    revert x
    decide
  · simp
  · rw [show BitVec.setWidth w 1 = BitVec.ofInt w 1 from BitVec.toNat_inj.mp (by simp),
      ← BitVec.ofInt_neg]
    rfl

section Conversion

variable {source target : Nat} (hsource : (IR.Ty.int source).IsInteger)
  (htarget : (IR.Ty.int target).IsInteger) {v : Expr} {x : BitVec source}
  (hv : v.eval sup e = some (represent ⟨source, x⟩)) {action : Action}

include hsource htarget hv

theorem trunc_represents (hlt : target < source)
    (h : cast? .trunc (scalarOf source) (scalarOf target) v = some action) :
    ∃ y, action = .pure y ∧
      y.eval sup e = some (represent ⟨target, BitVec.ofNat target x.toNat⟩) := by
  have hs := word_of_lt htarget hsource hlt
  rw [represent_word hs] at hv
  rw [scalarOf_word hs] at h
  obtain rfl | ht := htarget
  · cases h
    exact ⟨_, rfl, lowBit_represents hs hv⟩
  · rw [scalarOf_word ht, cast?, if_pos (Nat.le_of_lt hlt), ty_int ht] at h
    cases h
    refine ⟨_, rfl, ?_⟩
    rw [represent_word ht, BitVec.ofNat_toNat,
      ← BitVec.signExtend_eq_setWidth_of_le _ (Nat.le_of_lt hlt)]
    simp [Expr.eval, hv, Target.Value.cast]

theorem zext_represents (hlt : source < target)
    (h : cast? .zext (scalarOf source) (scalarOf target) v = some action) :
    ∃ y, action = .pure y ∧
      y.eval sup e = some (represent ⟨target, BitVec.ofNat target x.toNat⟩) := by
  have ht := word_of_lt hsource htarget hlt
  rw [scalarOf_word ht] at h
  rw [represent_word ht]
  obtain rfl | hs := hsource
  · cases h
    refine ⟨_, rfl, ?_⟩
    rw [ty_int ht]
    simp [Expr.eval, hv, Target.Value.cast, ofBool_eq_one]
  · rw [represent_word hs] at hv
    rw [scalarOf_word hs, cast?, if_pos (Nat.le_of_lt hlt), ty_int ht] at h
    cases h
    refine ⟨_, rfl, ?_⟩
    rw [viaUnsigned, Expr.eval, eval_unsigned hs hv]
    simp [Target.Value.cast]

theorem sext_represents (hlt : source < target)
    (h : cast? .sext (scalarOf source) (scalarOf target) v = some action) :
    ∃ y, action = .pure y ∧
      y.eval sup e = some (represent ⟨target, BitVec.ofInt target x.toInt⟩) := by
  have ht := word_of_lt hsource htarget hlt
  rw [scalarOf_word ht] at h
  rw [represent_word ht]
  obtain rfl | hs := hsource
  · cases h
    refine ⟨_, rfl, ?_⟩
    rw [ty_int ht]
    simp [Expr.eval, hv, Target.Value.cast, ofBool_eq_one, neg_setWidth_bit]
  · rw [represent_word hs] at hv
    rw [scalarOf_word hs, cast?, if_pos (Nat.le_of_lt hlt), ty_int ht] at h
    cases h
    refine ⟨_, rfl, ?_⟩
    simp [Expr.eval, hv, Target.Value.cast, BitVec.signExtend]

/-- **Conversions.** The code of a conversion has the converted word. -/
theorem cast_represents {op : CastOp} (hfits : IR.CastFits source target op)
    (h : cast? op (scalarOf source) (scalarOf target) v = some action) {d : Datum}
    (hd : Datum.convert op ⟨source, x⟩ (.int target) = some d) :
    ∃ y, action = .pure y ∧ y.eval sup e = some (represent d) := by
  cases op with
  | trunc =>
    cases hd
    exact trunc_represents hsource htarget hv hfits h
  | zext =>
    cases hd
    exact zext_represents hsource htarget hv hfits h
  | sext =>
    cases hd
    exact sext_represents hsource htarget hv hfits h
  | fptrunc | fpext | fptoui | fptosi | uitofp | sitofp | ptrtoint | inttoptr | bitcast
  | addrspacecast =>
    cases hd

end Conversion

/-! ## Functions -/

/-- Nothing holds an exception in a function on integers. -/
theorem exceptionValues_eq_nil {f : IR.Function} (h : f.WellTyped) : exceptionValues f = [] := by
  have hpads : padTypes f = [] := by
    refine List.filterMap_eq_nil_iff.mpr fun i hi => ?_
    obtain ⟨ty, hop⟩ := h.op hi
    split
    next hpad =>
      rw [hpad] at hop
      exact hop.elim
    next => rfl
  refine List.filterMap_eq_nil_iff.mpr fun i hi => ?_
  obtain ⟨ty, hop⟩ := h.op hi
  split
  next hpad =>
    rw [hpad] at hop
    exact hop.elim
  next => simp [hpads]
  next => rfl

theorem usesFrame_eq_false {f : IR.Function} (h : f.WellTyped) : usesFrame f = false := by
  refine List.any_eq_false.mpr fun i hi => ?_
  obtain ⟨ty, hop⟩ := h.op hi
  split
  next halloca =>
    rw [halloca] at hop
    exact hop.elim
  next => nofun

end SafeIR.Lower
