import SafeIR.Proofs.Lower.Integer

/-!
# Addresses of elements

What a list of indices means: each index leads from a layout to one inside of it (`Enters`), moves
by a fixed number of bytes, and adds a term if it is a variable. `Walks` joins these, and
`Frame.offsets_eq_ok` says that the offset and the terms of an address are those of a walk, from a
row of objects on. `eval_address` is the address that generated code computes from them.

A constant index moves by its own value, while a variable of the same type holds that value wrapped
to the width of the type. `constant_index_agrees_iff` says when both give the same address.
-/

namespace SafeIR.Lower

open IR (Constant Typed ValueId)
open Layout (Scalar offsetsFrom)
open Target (Env Expr Support Value wrapTo)
open SafeIR.Lower.Frame (wrap64)

/-! ## Walks -/

theorem wrap64_wrap64 (v : Int) : wrap64 (wrap64 v) = wrap64 v := Int.bmod_bmod

theorem wrap64_add (a b : Int) : wrap64 (wrap64 a + b) = wrap64 (a + b) := Int.bmod_add_bmod

theorem ofInt_wrap64 (v : Int) : BitVec.ofInt 64 (wrap64 v) = BitVec.ofInt 64 v :=
  Word.literal_eq_ofInt 64 v

/-- One index leads from a layout to one inside of it. It moves by a fixed number of bytes, and by
a term if it is a variable. -/
inductive Enters (fr : Frame) (s : Site) :
    Layout → Typed → Layout → (move : Int) → (terms : List (Expr × Int)) → Prop where
  | element {elem : Layout} {len : Nat} {index : Typed} {k : Int}
      (hk : index.2.asInt? = some k) :
      Enters fr s (.array elem len) index elem (k * elem.stride) []
  | term {elem : Layout} {len : Nat} {index : Typed} {x : Expr}
      (hk : index.2.asInt? = none) (hx : fr.operand s index.1 index.2 = .ok x) :
      Enters fr s (.array elem len) index elem 0 [(x, wrap64 elem.stride)]
  | field {packed : Bool} {fields : List Layout} {field : Layout} {index : Typed} {i start : Nat}
      (hi : index.2.asInt? = some (i : Int)) (hfield : fields[i]? = some field)
      (hstart : (offsetsFrom packed 0 fields)[i]? = some start) :
      Enters fr s (.struct packed fields) index field start []

/-- A list of indices leads from a layout to one inside of it. -/
inductive Walks (fr : Frame) (s : Site) :
    Layout → List Typed → Layout → (move : Int) → (terms : List (Expr × Int)) → Prop where
  | nil {l : Layout} : Walks fr s l [] l 0 []
  | cons {l l' final : Layout} {index : Typed} {indices : List Typed} {move move' : Int}
      {terms terms' : List (Expr × Int)} (hhead : Enters fr s l index l' move terms)
      (htail : Walks fr s l' indices final move' terms') :
      Walks fr s l (index :: indices) final (move + move') (terms ++ terms')

section

variable {fr : Frame} {s : Site} {l l' l'' final : Layout} {move move' : Int}
  {terms terms' : List (Expr × Int)}

theorem Enters.unique {index : Typed} (h : Enters fr s l index l' move terms)
    (h' : Enters fr s l index l'' move' terms') : l' = l'' ∧ move = move' ∧ terms = terms' := by
  cases h with
  | element hk =>
    cases h' with
    | element hk' =>
      cases hk.symm.trans hk'
      exact ⟨rfl, rfl, rfl⟩
    | term hk' => cases hk.symm.trans hk'
  | term hk hx =>
    cases h' with
    | element hk' => cases hk.symm.trans hk'
    | term _ hx' =>
      cases hx.symm.trans hx'
      exact ⟨rfl, rfl, rfl⟩
  | field hi hfield hstart =>
    cases h' with
    | field hi' hfield' hstart' =>
      cases hi.symm.trans hi'
      cases hfield.symm.trans hfield'
      cases hstart.symm.trans hstart'
      exact ⟨rfl, rfl, rfl⟩

theorem Walks.append {before after : List Typed} (h : Walks fr s l before l' move terms)
    (h' : Walks fr s l' after final move' terms') :
    Walks fr s l (before ++ after) final (move + move') (terms ++ terms') := by
  induction h with
  | nil =>
    rw [Int.zero_add]
    exact h'
  | cons hhead _ ih =>
    rw [Int.add_assoc, List.append_assoc]
    exact .cons hhead (ih h')

/-- What is left of a walk behind its beginning. -/
theorem Walks.rest {before after : List Typed} (h : Walks fr s l before l' move terms)
    (h' : Walks fr s l (before ++ after) final move' terms') :
    ∃ m ts, Walks fr s l' after final m ts ∧ move' = move + m ∧ terms' = terms ++ ts := by
  induction h generalizing move' terms' with
  | nil => exact ⟨move', terms', h', (Int.zero_add _).symm, rfl⟩
  | cons hhead _ ih =>
    cases h' with
    | cons hhead' htail' =>
      obtain ⟨rfl, rfl, rfl⟩ := hhead.unique hhead'
      obtain ⟨m, ts, hrest, rfl, rfl⟩ := ih htail'
      exact ⟨m, ts, hrest, (Int.add_assoc ..).symm, (List.append_assoc ..).symm⟩

/-! ## Offsets -/

namespace Frame

/-- What one index does. -/
theorem innerOffsets_cons_eq_ok {offset : Int} {index : Typed} {indices : List Typed}
    {r : Int × List (Expr × Int)} (hoffset : wrap64 offset = offset) :
    fr.innerOffsets s l offset (index :: indices) = .ok r ↔
      ∃ l' move head tail o, Enters fr s l index l' move head ∧
        fr.innerOffsets s l' (wrap64 (offset + move)) indices = .ok (o, tail) ∧
        r = (o, head ++ tail) := by
  obtain ⟨ty, index⟩ := index
  constructor
  · intro h
    cases l with
    | array elem len =>
      cases hk : index.asInt? with
      | some k =>
        simp only [innerOffsets, hk] at h
        exact ⟨elem, _, [], r.2, r.1, .element hk, h, rfl⟩
      | none =>
        simp only [innerOffsets, hk, bind_eq_ok, pure_eq_ok] at h
        obtain ⟨x, hx, ⟨o, tail⟩, htail, rfl⟩ := h
        refine ⟨elem, 0, _, tail, o, .term hk hx, ?_, rfl⟩
        rwa [Int.add_zero, hoffset]
    -- A struct is entered by a constant only.
    | struct packed fields =>
      simp only [innerOffsets] at h
      split at h
      next => cases h
      next k hk =>
        split at h
        next field start hfield hstart =>
          obtain ⟨hnonneg, hfield⟩ := Option.ite_none_right_eq_some.mp hfield
          have hk' : index.asInt? = some (k.toNat : Int) := by rw [Int.toNat_of_nonneg hnonneg, hk]
          exact ⟨field, start, [], r.2, r.1, .field hk' hfield hstart, h, rfl⟩
        next => cases h
    | _ => cases h
  · rintro ⟨l', move, head, tail, o, henters, htail, rfl⟩
    cases henters with
    | element hk =>
      simp only at hk
      simp only [innerOffsets, hk]
      exact htail
    | term hk hx =>
      simp only at hk hx
      rw [Int.add_zero, hoffset] at htail
      simp only [innerOffsets, hk, bind_eq_ok, pure_eq_ok]
      exact ⟨_, hx, _, htail, rfl⟩
    | field hi hfield hstart =>
      simp only at hi
      simp only [innerOffsets, hi, Int.toNat_natCast, Int.natCast_nonneg, if_true, hfield,
        Layout.offsets, hstart]
      exact htail

/-- Offsets inside an object are those of a walk. -/
theorem innerOffsets_eq_ok {offset o : Int} {indices : List Typed}
    (hoffset : wrap64 offset = offset) :
    fr.innerOffsets s l offset indices = .ok (o, terms) ↔
      ∃ final move, Walks fr s l indices final move terms ∧ o = wrap64 (offset + move) := by
  induction indices generalizing l offset o terms with
  | nil =>
    constructor
    · intro h
      cases h
      exact ⟨l, 0, .nil, by rw [Int.add_zero, hoffset]⟩
    · rintro ⟨final, move, hwalk, rfl⟩
      cases hwalk
      rw [Int.add_zero, hoffset]
      rfl
  | cons index indices ih =>
    rw [innerOffsets_cons_eq_ok hoffset]
    constructor
    · rintro ⟨l', move, head, tail, o', henters, htail, heq⟩
      cases heq
      obtain ⟨final, move', hwalk, rfl⟩ := (ih (wrap64_wrap64 _)).mp htail
      exact ⟨final, move + move', .cons henters hwalk, by rw [wrap64_add, Int.add_assoc]⟩
    · rintro ⟨final, move, hwalk, rfl⟩
      cases hwalk with
      | cons henters htail =>
        refine ⟨_, _, _, _, _, henters, (ih (wrap64_wrap64 _)).mpr ⟨final, _, htail, rfl⟩, ?_⟩
        rw [wrap64_add, Int.add_assoc]

/-- An address is one in a row of objects, however long the row. -/
theorem offsets_eq_innerOffsets (len : Nat) (source : IR.Ty) (indices : List Typed) :
    fr.offsets s source indices =
      fr.layout source >>= fun l => fr.innerOffsets s (.array l len) 0 indices := by
  refine bind_congr fun l => ?_
  cases indices with
  | nil => rfl
  | cons index indices => simp only [innerOffsets, Int.zero_add]

/-- **Offsets.** An address is that of a walk in a row of objects. -/
theorem offsets_eq_ok {source : IR.Ty} {o : Int} {indices : List Typed} (len : Nat)
    (hl : fr.layout source = .ok l) :
    fr.offsets s source indices = .ok (o, terms) ↔
      ∃ final move, Walks fr s (.array l len) indices final move terms ∧ o = wrap64 move := by
  rw [offsets_eq_innerOffsets len, hl, ok_bind, innerOffsets_eq_ok rfl]
  simp only [Int.zero_add]

end Frame

end

/-! ## Addresses -/

section

variable {σ : Type} {sup : Support σ} {env : Env σ}

/-- Terms come to a number of bytes, modulo the width of an address. -/
inductive Sums (sup : Support σ) (env : Env σ) : List (Expr × Int) → BitVec 64 → Prop where
  | nil : Sums sup env [] 0#64
  | cons {index : Expr} {stride : Int} {terms : List (Expr × Int)} {x total : BitVec 64}
      (hindex : (Expr.cast index (.signed 64)).eval sup env = some (.word true 64 x))
      (hrest : Sums sup env terms total) :
      Sums sup env ((index, stride) :: terms) (x * BitVec.ofInt 64 stride + total)

theorem Sums.append {terms terms' : List (Expr × Int)} {total total' : BitVec 64}
    (h : Sums sup env terms total) (h' : Sums sup env terms' total') :
    Sums sup env (terms ++ terms') (total + total') := by
  induction h with
  | nil =>
    rw [BitVec.zero_add]
    exact h'
  | cons hindex _ ih =>
    rw [BitVec.add_assoc]
    exact .cons hindex ih

theorem Sums.split {terms terms' : List (Expr × Int)} {sum : BitVec 64}
    (h : Sums sup env (terms ++ terms') sum) :
    ∃ total total', Sums sup env terms total ∧ Sums sup env terms' total' ∧
      sum = total + total' := by
  induction terms generalizing sum with
  | nil => exact ⟨0#64, sum, .nil, h, (BitVec.zero_add _).symm⟩
  | cons t terms ih =>
    cases h with
    | cons hindex hrest =>
      obtain ⟨total, total', hterms, hterms', rfl⟩ := ih hrest
      exact ⟨_, total', .cons hindex hterms, hterms', (BitVec.add_assoc ..).symm⟩

/-- **Addresses.** Generated code computes the base, the offset and the terms, modulo the width. -/
theorem eval_address {base : Expr} {b total : BitVec 64} {terms : List (Expr × Int)}
    (hbase : base.eval sup env = some (.word false 64 b)) (offset : Int)
    (h : Sums sup env terms total) :
    (address base offset terms).eval sup env
      = some (.word false 64 (b + BitVec.ofInt 64 offset + total)) := by
  -- the terms are added one by one, to whatever stands in front of them
  have hterms : ∀ (start : Expr) (a : BitVec 64), start.eval sup env = some (.word false 64 a) →
      (address start 0 terms).eval sup env = some (.word false 64 (a + total)) := by
    induction h with
    | nil =>
      intro start a hstart
      rw [BitVec.add_zero]
      exact hstart
    | @cons index stride _ x _ hindex _ ih =>
      intro start a hstart
      rw [← BitVec.add_assoc]
      refine ih _ _ (eval_wrapping hstart ?_ rfl)
      have hmul : (Expr.wrapping .mul (.paren (.cast index (.signed 64)))
          (.number stride (.signed 64))).eval sup env
          = some (.word true 64 (x * BitVec.ofInt 64 stride)) :=
        eval_wrapping (by rw [Expr.eval, hindex]) rfl rfl
      rw [Expr.eval, hmul]
      simp [Value.cast]
  unfold address
  rcases Int.lt_trichotomy 0 offset with hlt | heq | hlt
  · rw [if_pos hlt]
    exact hterms _ _ (eval_wrapping hbase rfl rfl)
  · subst heq
    rw [show BitVec.ofInt 64 0 = 0#64 from rfl, BitVec.add_zero]
    exact hterms base b hbase
  · rw [if_neg (Int.lt_asymm hlt), if_pos hlt]
    have hsub : b + BitVec.ofInt 64 offset = b - BitVec.ofInt 64 (-offset) := by
      rw [BitVec.ofInt_neg, BitVec.sub_neg]
    rw [hsub]
    exact hterms _ _ (eval_wrapping hbase rfl rfl)

end

/-! ## Constants and variables as indices -/

/-- The integer that the literal for `k` stands for at a scalar. -/
def denoted (k : Int) : Scalar → Int
  | .bool => k % 2
  | .int bits => wrapTo bits k
  | _ => k

theorem ofInt_eq_iff {a b : Int} :
    BitVec.ofInt 64 a = BitVec.ofInt 64 b ↔ (twoPow 64 : Int) ∣ a - b := by
  rw [← BitVec.toInt_inj, BitVec.toInt_ofInt, BitVec.toInt_ofInt,
    Int.bmod_eq_bmod_iff_bmod_sub_eq_zero, ← Int.dvd_iff_bmod_eq_zero]
  rfl

/-- The literal as an index. -/
theorem cast_literal (k : Int) {scalar : Scalar} (hscalar : scalar.isFloat = false) :
    (Value.literal k scalar).cast (.signed 64)
      = some (.word true 64 (BitVec.ofInt 64 (denoted k scalar))) := by
  cases scalar with
  | bool =>
    rcases Int.emod_two_eq k with hk | hk <;> simp [Value.literal, Value.cast, denoted, hk]
  | int bits =>
    show some (Value.word true 64 ((BitVec.ofInt _ (wrapTo bits k)).signExtend 64)) = _
    refine congrArg (some ∘ Value.word true 64) ?_
    rw [BitVec.signExtend, denoted]
    by_cases hbits : bits ∈ [8, 16, 32, 64]
    · have hlt : bits < 128 := by
        simp only [List.mem_cons, List.not_mem_nil, or_false] at hbits
        omega
      have hwidth : Scalar.wordBits bits = bits := if_pos hbits
      rw [hwidth]
      exact congrArg (BitVec.ofInt 64) (Word.toInt_literal hlt)
    · -- the widest type is cut off where an address is
      have hwidth : Scalar.wordBits bits = 128 := if_neg hbits
      rw [hwidth, BitVec.toInt_ofInt, ← BitVec.toInt_inj, BitVec.toInt_ofInt, BitVec.toInt_ofInt]
      exact Int.bmod_bmod_of_dvd (by decide)
  | ptr => simp [Value.literal, Value.cast, denoted]
  | f32 | f64 => cases hscalar

/-- What is added to the offset may be added to the terms instead. -/
theorem displaced_eq_iff {b m m' x y d d' : BitVec 64} :
    b + (m + (d + m')) + (x + y) = b + (m + m') + (x + (d' + y)) ↔ d = d' := by
  constructor
  · intro h
    grind
  · rintro rfl
    grind

/-- A constant may be replaced by a variable that holds its literal, of any scalar but a float,
exactly if the part of the constant that the scalar has no room for comes to no bytes, modulo the
width of an address. -/
theorem constant_index_agrees_iff (fr : Frame) (s : Site) {source ty : IR.Ty}
    {before after : List Typed} {c : Constant} {l elem : Layout} {len : Nat} {k move offset : Int}
    {scalar : Scalar} {passed terms : List (Expr × Int)} (hl : fr.layout source = .ok l)
    (hposition : Walks fr s (.array l 1) before (.array elem len) move passed)
    (hk : c.asInt? = some k) (hscalar : scalar.isFloat = false)
    (h : fr.offsets s source (before ++ (ty, .const c) :: after) = .ok (offset, terms))
    (v : ValueId) :
    ∃ offset' terms',
      fr.offsets s source (before ++ (ty, .value v) :: after) = .ok (offset', terms') ∧
      ∀ {σ : Type} (sup : Support σ) (env : Env σ) (base : Expr) (b total : BitVec 64),
        base.eval sup env = some (.word false 64 b) → Sums sup env terms total →
        env.store (.value v) = Value.literal k scalar →
        ∃ a a' : BitVec 64,
          (address base offset terms).eval sup env = some (.word false 64 a) ∧
          (address base offset' terms').eval sup env = some (.word false 64 a') ∧
          a = b + BitVec.ofInt 64 offset + total ∧
          (a = a' ↔ (twoPow 64 : Int) ∣ (k - denoted k scalar) * elem.stride) := by
  obtain ⟨final, _, hwalk, rfl⟩ := (Frame.offsets_eq_ok 1 hl).mp h
  obtain ⟨_, _, hrest, rfl, rfl⟩ := hposition.rest hwalk
  cases hrest with
  | @cons _ _ _ _ _ _ move' _ tail hhead htail =>
    cases hhead with
    | term hk' => cases hk.symm.trans hk'
    | element hk' =>
      cases hk.symm.trans hk'
      -- Only this one position differs: the walks before it and behind it are shared.
      have hvariable : Enters fr s (.array elem len) (ty, .value v) elem 0
          [(.var (.value v), wrap64 elem.stride)] := .term rfl rfl
      have hwalk' := hposition.append (.cons hvariable htail)
      refine ⟨_, _, (Frame.offsets_eq_ok 1 hl).mpr ⟨final, _, hwalk', rfl⟩, ?_⟩
      intro σ sup env base b total hbase hsum hv
      obtain ⟨x, y, hpassed, htail, rfl⟩ := hsum.split
      have hindex : (Expr.cast (.var (.value v)) (.signed 64)).eval sup env
          = some (.word true 64 (BitVec.ofInt 64 (denoted k scalar))) := by
        simp [Expr.eval, hv, cast_literal k hscalar]
      refine ⟨_, _, eval_address hbase _ hsum,
        eval_address hbase _ (hpassed.append (.cons hindex htail)), rfl, ?_⟩
      rw [Int.sub_mul, ← ofInt_eq_iff, Int.zero_add]
      simp only [ofInt_wrap64, BitVec.ofInt_add, BitVec.ofInt_mul]
      exact displaced_eq_iff

/-- A function without anything in it, and a place in it where addresses are computed. -/
def hollowFrame : Frame where
  setting := { module := {}, profile := {}, globals := [], names := [] }
  function := {
    id := ⟨0⟩, name := "f", demangled := none, params := [], ret := .ptr, varargs := false,
    isDeclaration := false, values := [], blocks := [] }
  exceptions := []

def hollowSite : Site where
  block := { id := ⟨0⟩, label := "entry", instructions := [], terminator := .unreachable }
  opcode := "getelementptr"

/-- A byte and three words. -/
def tailedTy : IR.Ty := .struct false [.int 8, .array 3 (.int 32)]

/-- An index that is constant, behind one that is not. -/
theorem constant_index_agrees_iff_tail :
    hollowFrame.offsets hollowSite tailedTy
      ([(.int 64, .value ⟨1⟩), (.int 32, .const (.int 1))] ++ [(.int 8, .const (.int 2))])
        = .ok (12, [(.var (.value ⟨1⟩), 16)]) ∧
    ∃ offset' terms',
      hollowFrame.offsets hollowSite tailedTy
        ([(.int 64, .value ⟨1⟩), (.int 32, .const (.int 1))] ++ [(.int 8, .value ⟨0⟩)])
          = .ok (offset', terms') ∧
      ∀ {σ : Type} (sup : Support σ) (env : Env σ) (base : Expr) (b total : BitVec 64),
        base.eval sup env = some (.word false 64 b) →
        Sums sup env [(.var (.value ⟨1⟩), 16)] total →
        env.store (.value ⟨0⟩) = Value.literal 2 (.int 8) →
        ∃ a a' : BitVec 64,
          (address base 12 [(.var (.value ⟨1⟩), 16)]).eval sup env = some (.word false 64 a) ∧
          (address base offset' terms').eval sup env = some (.word false 64 a') ∧
          a = b + BitVec.ofInt 64 12 + total ∧
          (a = a' ↔ (twoPow 64 : Int) ∣ (2 - denoted 2 (.int 8)) * (4 : Nat)) := by
  have hposition : Walks hollowFrame hollowSite
      (.array (.struct false [.int 8, .array (.int 32) 3]) 1)
      [(.int 64, .value ⟨1⟩), (.int 32, .const (.int 1))] (.array (.int 32) 3) (0 + (4 + 0))
      [(.var (.value ⟨1⟩), 16)] :=
    .cons (.term rfl rfl) (.cons (.field (i := 1) rfl rfl rfl) .nil)
  have hoffsets : hollowFrame.offsets hollowSite tailedTy
      ([(.int 64, .value ⟨1⟩), (.int 32, .const (.int 1))] ++ [(.int 8, .const (.int 2))])
        = .ok (12, [(.var (.value ⟨1⟩), 16)]) := rfl
  exact ⟨hoffsets,
    constant_index_agrees_iff hollowFrame hollowSite rfl hposition rfl rfl hoffsets ⟨0⟩⟩

/-- The constant 200 moves by 200 bytes, and a variable of eight bits with its value by -56. -/
theorem narrow_index_disagrees :
    hollowFrame.offsets hollowSite (.int 8) [(.int 8, .const (.int 200))] = .ok (200, []) ∧
    hollowFrame.offsets hollowSite (.int 8) [(.int 8, .value ⟨0⟩)]
      = .ok (0, [(.var (.value ⟨0⟩), 1)]) ∧
    ∀ {σ : Type} (sup : Support σ) (env : Env σ) (base : Expr) (b : BitVec 64),
      base.eval sup env = some (.word false 64 b) →
      env.store (.value ⟨0⟩) = Value.literal 200 (.int 8) →
      (address base 200 []).eval sup env = some (.word false 64 (b + 200)) ∧
      (address base 0 [(.var (.value ⟨0⟩), 1)]).eval sup env = some (.word false 64 (b - 56)) := by
  refine ⟨rfl, rfl, ?_⟩
  intro σ sup env base b hbase hv
  have hindex : (Expr.cast (.var (.value ⟨0⟩)) (.signed 64)).eval sup env
      = some (.word true 64 (BitVec.ofInt 64 (-56))) := by
    rw [Expr.eval, Expr.eval, hv]
    rfl
  have hterm : BitVec.ofInt 64 0 + (BitVec.ofInt 64 (-56) * BitVec.ofInt 64 1 + 0#64) = -56#64 := by
    decide
  rw [eval_address hbase 200 .nil, eval_address hbase 0 (.cons hindex .nil), BitVec.add_zero,
    BitVec.add_assoc, hterm, BitVec.sub_eq_add_neg]
  exact ⟨rfl, rfl⟩

end SafeIR.Lower
