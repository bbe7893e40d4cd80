import SafeIR.Lower.Throwing
import SafeIR.Proofs.Word.Exact
import SafeIR.Word.Intrinsic

/-!
# Leaving out proven checks

`Throwing.canElide` looks at the constants as they are written; the call gets them wrapped to its
width. So a check may be left out that is needed: `256` is no zero, but as an eight-bit literal it
is one (`elided_division_raises`).

The main statement is `elided_never_raises_iff`. It says exactly when a call whose check is left
out cannot raise, for whatever arguments agree with its constants: `Survives` asks the question
again of the wrapped constants. In particular nothing is lost where all constants fit.
-/

namespace SafeIR

open Word (FitsSigned)

variable {constants : List (Option Int)} {w : Nat}

/-! ## When an operation raises -/

/-- The exact result of an operation is there and fits. -/
def RaisingOp.Defined (w : Nat) (x y : Int) : RaisingOp → Prop
  | div => y ≠ 0 ∧ FitsSigned w (x.tdiv y)
  | rem => y ≠ 0
  | add => FitsSigned w (x + y)
  | sub => FitsSigned w (x - y)
  | mul => FitsSigned w (x * y)

theorem RaisingOp.unlessOverflow_pending {overflows : Bool} {result : BitVec w} :
    (unlessOverflow overflows result).pending = none ↔ overflows = false := by
  cases overflows <;> simp [unlessOverflow, Emulated.raise, Emulated.ok]

/-- A routine raises exactly where there is no exact result that fits. -/
theorem RaisingOp.pending_eq_none_iff (hw : 0 < w) (op : RaisingOp) (a b : BitVec w) :
    (op.eval a b).pending = none ↔ op.Defined w a.toInt b.toInt := by
  cases op with
  | div =>
    by_cases hb : b = 0
    · simp [eval, Defined, hb, Emulated.raise]
    · rw [eval, if_neg hb, unlessOverflow_pending, Word.sdivOverflow_eq_false_iff hw, Defined]
      exact ⟨fun h => ⟨mt Word.toInt_eq_zero_iff.mp hb, h⟩, And.right⟩
  | rem =>
    by_cases hb : b = 0
    · simp [eval, Defined, hb, Emulated.raise]
    · rw [eval, if_neg hb, Defined, ne_eq, Word.toInt_eq_zero_iff]
      exact iff_of_true rfl hb
  | add => exact unlessOverflow_pending.trans Word.saddOverflow_eq_false_iff
  | sub => exact unlessOverflow_pending.trans Word.ssubOverflow_eq_false_iff
  | mul => exact unlessOverflow_pending.trans Word.smulOverflow_eq_false_iff

/-! ## Constants and the arguments that agree with them -/

/-- Arguments agree with the constants of a call: what is constant is the word of its literal. -/
def Agrees (w : Nat) (constants : List (Option Int)) (args : List (BitVec w)) : Prop :=
  ∀ (i : Nat) (v : Int) (x : BitVec w),
    constants[i]? = some (some v) → args[i]? = some x → x = Word.literal w v

theorem agrees_pair {x y : Option Int} {rest : List (Option Int)} {a b : BitVec w} :
    Agrees w (x :: y :: rest) [a, b] ↔
      (∀ v, x = some v → a = Word.literal w v) ∧ (∀ v, y = some v → b = Word.literal w v) := by
  constructor
  · intro h
    exact ⟨fun v hv => h 0 v a (by simp [hv]) rfl, fun v hv => h 1 v b (by simp [hv]) rfl⟩
  · rintro ⟨ha, hb⟩ i v z hv hz
    match i with
    | 0 =>
      cases hz
      exact ha v (by simpa using hv)
    | 1 =>
      cases hz
      exact hb v (by simpa using hv)
    | i + 2 => cases hz

/-- The constants, wrapped to the width, leave an operation nothing to raise for. With an unknown
dividend a divisor has to be safe for all of them. -/
def Survives (w : Nat) (op : RaisingOp) : List (Option Int) → Prop
  | some n :: some d :: _ => op.Defined w (Target.wrapTo w n) (Target.wrapTo w d)
  | none :: some d :: _ =>
    match op with
    | .div => Target.wrapTo w d ≠ 0 ∧ Target.wrapTo w d ≠ -1
    | .rem => Target.wrapTo w d ≠ 0
    | _ => False
  | _ => False

/-- With both constants known there is one pair of arguments, the words of the literals. -/
theorem never_raises_iff_of_both (hw : 0 < w) (hw' : w < 128) (op : RaisingOp) (n d : Int)
    (rest : List (Option Int)) :
    (∀ a b : BitVec w, Agrees w (some n :: some d :: rest) [a, b] →
        (op.eval a b).pending = none) ↔
      op.Defined w (Target.wrapTo w n) (Target.wrapTo w d) := by
  rw [← Word.toInt_literal hw', ← Word.toInt_literal hw', ← RaisingOp.pending_eq_none_iff hw]
  constructor
  · intro h
    refine h _ _ (agrees_pair.mpr ⟨?_, ?_⟩)
    · rintro v ⟨⟩
      rfl
    · rintro v ⟨⟩
      rfl
  · intro h a b hab
    obtain ⟨ha, hb⟩ := agrees_pair.mp hab
    rw [ha n rfl, hb d rfl]
    exact h

/-- With the divisor alone known, the least dividend decides. -/
theorem never_raises_iff_of_divisor (hw : 0 < w) (hw' : w < 128) {op : RaisingOp}
    (hop : op = .div ∨ op = .rem) (d : Int) (rest : List (Option Int)) :
    (∀ a b : BitVec w, Agrees w (none :: some d :: rest) [a, b] → (op.eval a b).pending = none) ↔
      Survives w op (none :: some d :: rest) := by
  have hagrees : ∀ a b : BitVec w, Agrees w (none :: some d :: rest) [a, b] ↔
      b = Word.literal w d := by
    intro a b
    rw [agrees_pair]
    exact ⟨fun h => h.2 d rfl, fun h => ⟨nofun, fun v hv => by cases hv; exact h⟩⟩
  simp only [hagrees, forall_eq, RaisingOp.pending_eq_none_iff hw, Word.toInt_literal hw']
  rcases hop with rfl | rfl
  · constructor
    · intro h
      obtain ⟨hzero, hfits⟩ := h (BitVec.intMin w)
      refine ⟨hzero, fun hone => ?_⟩
      rw [hone, BitVec.toInt_intMin_of_pos hw, Int.tdiv_neg, Int.tdiv_one, Int.neg_neg] at hfits
      exact absurd hfits.2 (Int.lt_irrefl _)
    · rintro ⟨hzero, hone⟩ a
      exact ⟨hzero, Word.fitsSigned_tdiv (Word.fitsSigned_toInt a) hone⟩
  · exact ⟨fun h => h 0, fun h _ => h⟩

/-! ## The catalog -/

/-- What the catalog asks of the constants of an operation. -/
def RaisingOp.proof : RaisingOp → Intrinsic.Proof
  | div | rem => .safeDivisor
  | add => .sumFits
  | sub => .differenceFits
  | mul => .productFits

/-- Proofs are there for the raising operations only. -/
theorem exists_raisingOp_of_proof {e : Intrinsic.Entry} (he : e ∈ Intrinsic.catalog)
    {p : Intrinsic.Proof} (hp : e.proof = some p) :
    ∃ op : RaisingOp, e.strategy = .mayThrow op.name ∧ p = op.proof := by
  have hall : ∀ e ∈ Intrinsic.catalog, e.proof = none ∨
      ∃ op ∈ RaisingOp.all, e.strategy = .mayThrow op.name ∧ e.proof = some op.proof := by
    decide +kernel
  rcases hall e he with hnone | ⟨op, -, hstrategy, hproof⟩
  · rw [hnone] at hp
    cases hp
  · rw [hproof] at hp
    exact ⟨op, hstrategy, (Option.some.inj hp).symm⟩

theorem exists_of_safeDivisor (h : Intrinsic.Proof.safeDivisor.holds constants w = true) :
    ∃ x d rest, constants = x :: some d :: rest ∧ d ≠ 0 ∧ d ≠ -1 := by
  simp only [Intrinsic.Proof.holds] at h
  split at h
  next x d rest => exact ⟨x, d, rest, rfl, by simpa using h⟩
  next => cases h

theorem exists_of_resultFits {f : Int → Int → Int}
    (h : Intrinsic.Proof.resultFits f w constants = true) :
    ∃ n d rest, constants = some n :: some d :: rest ∧ FitsSigned w (f n d) := by
  unfold Intrinsic.Proof.resultFits at h
  split at h
  next n d rest =>
    rw [Bool.and_eq_true] at h
    exact ⟨n, d, rest, rfl, Word.fits_eq_true_iff.mp h.2⟩
  next => cases h

/-- A proof that holds knows the second constant, and the first unless that is a dividend. The
constants as they are written make the operation defined. -/
theorem RaisingOp.of_proof_holds {op : RaisingOp} (h : op.proof.holds constants w = true) :
    (∃ n d rest, constants = some n :: some d :: rest ∧ (FitsSigned w n → op.Defined w n d)) ∨
    (∃ d rest, constants = none :: some d :: rest ∧ (op = .div ∨ op = .rem) ∧ d ≠ 0 ∧ d ≠ -1) := by
  cases op with
  | div =>
    obtain ⟨x, d, rest, rfl, hzero, hone⟩ := exists_of_safeDivisor h
    cases x with
    | none => exact .inr ⟨d, rest, rfl, .inl rfl, hzero, hone⟩
    | some n => exact .inl ⟨n, d, rest, rfl, fun hn => ⟨hzero, Word.fitsSigned_tdiv hn hone⟩⟩
  | rem =>
    obtain ⟨x, d, rest, rfl, hzero, hone⟩ := exists_of_safeDivisor h
    cases x with
    | none => exact .inr ⟨d, rest, rfl, .inr rfl, hzero, hone⟩
    | some n => exact .inl ⟨n, d, rest, rfl, fun _ => hzero⟩
  | add | sub | mul =>
    obtain ⟨n, d, rest, rfl, hfits⟩ := exists_of_resultFits h
    exact .inl ⟨n, d, rest, rfl, fun _ => hfits⟩

/-- Constants that fit are passed on as they are, so a proof about them is one about the call. -/
theorem survives_of_fits {op : RaisingOp} (hw : 0 < w) (h : op.proof.holds constants w = true)
    (hfits : ∀ v, some v ∈ constants → FitsSigned w v) : Survives w op constants := by
  rcases RaisingOp.of_proof_holds h with ⟨n, d, rest, rfl, hdefined⟩ | ⟨d, rest, rfl, hop, hd⟩
  · have hn : FitsSigned w n := hfits n (by simp)
    rw [Survives, Word.wrapTo_of_fitsSigned hw hn,
      Word.wrapTo_of_fitsSigned hw (hfits d (by simp))]
    exact hdefined hn
  · have hwrap := Word.wrapTo_of_fitsSigned hw (hfits d (by simp))
    rcases hop with rfl | rfl
    · rw [Survives, hwrap]
      exact hd
    · rw [Survives, hwrap]
      exact hd.1

namespace Lower.Throwing

/-- **Elided checks**: a call of the catalog whose check may be left out never raises, for all
arguments that agree with its constants, exactly if the wrapped constants survive; and they do
where every constant fits in the width. -/
theorem elided_never_raises_iff {c : Throwing} {w : Nat} (hentry : c.entry ∈ Intrinsic.catalog)
    (hw : w ∈ [8, 16, 32, 64]) (hbits : c.bits = some w) (helide : c.canElide true = true) :
    ∃ op : RaisingOp, c.entry.strategy = .mayThrow op.name ∧
      ((∀ a b : BitVec w, Agrees w c.constants [a, b] → (op.eval a b).pending = none) ↔
        Survives w op c.constants) ∧
      ((∀ v, some v ∈ c.constants → FitsSigned w v) → Survives w op c.constants) := by
  have hpos : 0 < w := by
    simp only [List.mem_cons, List.not_mem_nil, or_false] at hw
    omega
  have hsmall : w < 128 := by
    simp only [List.mem_cons, List.not_mem_nil, or_false] at hw
    omega
  obtain ⟨p, hp, hholds⟩ : ∃ p, c.entry.proof = some p ∧ p.holds c.constants w = true := by
    unfold canElide at helide
    rw [hbits] at helide
    split at helide
    next p bits hp hbits =>
      cases hbits
      exact ⟨p, hp, by simpa using helide⟩
    next => cases helide
  obtain ⟨op, hop, rfl⟩ := exists_raisingOp_of_proof hentry hp
  refine ⟨op, hop, ?_, survives_of_fits hpos hholds⟩
  rcases RaisingOp.of_proof_holds hholds with ⟨n, d, rest, hc, -⟩ | ⟨d, rest, hc, hdiv, -⟩
  · rw [hc]
    exact never_raises_iff_of_both hpos hsmall op n d rest
  · rw [hc]
    exact never_raises_iff_of_divisor hpos hsmall hdiv d rest

/-- A call of the first entry of the catalog, a division of words of eight bits. -/
def byteDivision (constants : List (Option Int)) : Throwing :=
  { entry := { name := "checked_div", arity := 2, strategy := .mayThrow "checked_div",
               overloads := Intrinsic.ints, proof := some .safeDivisor }
    path := "irbridge_runtime::intrinsics::i8::checked_div", args := [], constants
    bits := some 8, dest := none }

/-- A byte may be divided by three without a check. -/
theorem elided_never_raises_byte :
    (byteDivision [none, some 3]).canElide true = true ∧
      ∀ a b : BitVec 8, Agrees 8 [none, some 3] [a, b] →
        (RaisingOp.div.eval a b).pending = none := by
  have helide : (byteDivision [none, some 3]).canElide true = true := by decide
  obtain ⟨op, hop, hiff, hfits⟩ :=
    elided_never_raises_iff (c := byteDivision [none, some 3]) (w := 8) (.head _) (by decide) rfl
      helide
  obtain rfl : op = .div := by
    revert hop
    cases op <;> decide
  refine ⟨helide, hiff.mpr (hfits fun v hv => ?_)⟩
  obtain rfl : v = 3 := by simpa [byteDivision] using hv
  decide

/-- The check of a division by `256`, which is no zero, may be left out; but at eight bits the
literal is zero, and the division raises. -/
theorem elided_division_raises :
    (byteDivision [none, some 256]).canElide true = true ∧
      Agrees 8 (byteDivision [none, some 256]).constants [5, 0] ∧
      (RaisingOp.div.eval 5#8 0#8).pending = some .divisionByZero := by
  refine ⟨by decide, agrees_pair.mpr ⟨nofun, ?_⟩, by decide⟩
  rintro v ⟨⟩
  decide

end Lower.Throwing

end SafeIR
