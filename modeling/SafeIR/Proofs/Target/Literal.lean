import SafeIR.Proofs.Text.Numeral
import SafeIR.Proofs.Word.Exact

/-!
# What literals denote

A literal has one of four spellings: a truth value, a number with its type, a negative number in
parentheses, and the name of the least integer of a type. `denoted?` reads all of them back.

An integer is wrapped into the range of its scalar (`residue`) and then spelled (`spelled`). Reading
undoes the second step, so two integers have one text exactly if they wrap to the same one, which is
to say that they are congruent.
-/

namespace SafeIR.Target

open Layout (Scalar)
open Word (FitsSigned FitsUnsigned)

variable {s : Scalar} {a b r : Int}

/-- The scalars whose values are integers. -/
def integerScalars : List Scalar := [.bool, .int 8, .int 16, .int 32, .int 64, .int 128, .ptr]

theorem bits_pos (hs : s ∈ integerScalars) : 0 < s.bits :=
  (by decide : ∀ s ∈ integerScalars, 0 < s.bits) s hs

/-! ## Ranges and residues -/

/-- The integers that a scalar has: only those of integer types are signed. -/
def InRange (s : Scalar) (v : Int) : Prop :=
  if s.isInt then FitsSigned s.bits v else FitsUnsigned s.bits v

instance (s : Scalar) (v : Int) : Decidable (InRange s v) :=
  inferInstanceAs (Decidable (if s.isInt then FitsSigned s.bits v else FitsUnsigned s.bits v))

/-- The integer in range that is congruent to an integer. -/
def residue (s : Scalar) (v : Int) : Int :=
  if s.isInt then v.bmod (2 ^ s.bits) else v % 2 ^ s.bits

theorem residue_emod (s : Scalar) (v : Int) : residue s v % 2 ^ s.bits = v % 2 ^ s.bits := by
  unfold residue
  split
  next =>
    have hmod := Int.bmod_emod (x := v) (m := 2 ^ s.bits)
    push_cast at hmod
    exact hmod
  next => exact Int.emod_emod_of_dvd v (Int.dvd_refl _)

theorem residue_eq_iff : residue s a = residue s b ↔ a % 2 ^ s.bits = b % 2 ^ s.bits := by
  constructor
  · intro h
    rw [← residue_emod, h, residue_emod]
  · intro h
    unfold residue
    split
    next =>
      rw [Int.bmod_def, Int.bmod_def]
      push_cast
      rw [h]
    next => exact h

theorem inRange_residue (hs : s ∈ integerScalars) (v : Int) : InRange s (residue s v) := by
  have hpos := bits_pos hs
  have hmodulus : (0 : Int) < 2 ^ s.bits := Int.pow_pos (by decide)
  unfold InRange residue
  split
  next =>
    have hhalf : (2 : Int) ^ s.bits = 2 * 2 ^ (s.bits - 1) := by
      rw [← Int.pow_succ', Nat.sub_add_cancel hpos]
    have hlow := Int.le_bmod (x := v) (m := 2 ^ s.bits) (Nat.two_pow_pos _)
    have hhigh := Int.bmod_lt (x := v) (m := 2 ^ s.bits) (Nat.two_pow_pos _)
    push_cast at hlow hhigh
    unfold FitsSigned
    constructor <;> omega
  next => exact ⟨Int.emod_nonneg _ hmodulus.ne', Int.emod_lt_of_pos _ hmodulus⟩

theorem residue_of_inRange (hs : s ∈ integerScalars) (h : InRange s r) : residue s r = r := by
  unfold InRange at h
  unfold residue
  split
  next hint =>
    rw [if_pos hint] at h
    exact Word.bmod_of_fitsSigned (bits_pos hs) h
  next hint =>
    rw [if_neg hint] at h
    exact Int.emod_eq_of_lt h.1 h.2

/-! ## Spelling -/

/-- The least number of a scalar. -/
def least (s : Scalar) : Int := if s.isInt then -2 ^ (s.bits - 1) else 0

/-- The text for an integer in range. -/
def spelled (s : Scalar) (r : Int) : String :=
  if s = .bool then if r = 0 then "false" else "true"
  else if s.isInt ∧ r = least s then s.typeName ++ "::MIN"
  else if r < 0 then "(" ++ toString r ++ s.typeName ++ ")"
  else toString r ++ s.typeName

/-- A literal is wrapped and then spelled. Nothing is wrapped at the widest type. -/
theorem intLiteral_eq_spelled (hs : s ∈ integerScalars) (ha : FitsSigned 128 a) :
    intLiteral a s = spelled s (residue s a) := by
  have hpos := bits_pos hs
  have hle : s.bits ≤ 128 := (by decide : ∀ s ∈ integerScalars, s.bits ≤ 128) s hs
  cases s with
  | bool => rfl
  | ptr =>
    have hnonneg : ¬ a % 2 ^ 64 < 0 := Int.not_lt.mpr (Int.emod_nonneg _ (by decide))
    show toString (a % (twoPow 64 : Int)) ++ _ = spelled .ptr (a % 2 ^ 64)
    rw [spelled, if_neg (by decide), if_neg (by simp [Scalar.isInt]), if_neg hnonneg]
    rfl
  | int bits =>
    have hle : bits ≤ 128 := hle
    have hwrap : wrapTo bits a = residue (.int bits) a := by
      show (if 128 ≤ bits then a else a.bmod (twoPow bits)) = a.bmod (2 ^ bits)
      split
      next hwide =>
        obtain rfl : bits = 128 := by omega
        exact (Word.bmod_of_fitsSigned hpos ha).symm
      next => rfl
    have hleast : least (.int bits) = -(twoPow (bits - 1) : Int) := by
      rw [Word.twoPow_cast]
      rfl
    simp only [intLiteral, hwrap, spelled, hle, hleast, Scalar.isInt, reduceCtorEq, if_false,
      true_and]
  | f32 | f64 => exact absurd hs (by decide)

/-! ## Reading -/

/-- A number in front of what ends a literal. -/
def digits? (ending cs : List Char) : Option Nat :=
  if cs.dropWhile Char.isDigit = ending then Decimal.nat? (cs.takeWhile Char.isDigit) else none

/-- A number with its type, in parentheses if it is negative. -/
def number? (s : Scalar) : List Char → Option Int
  | '(' :: '-' :: cs => (digits? (s.typeName.toList ++ [')']) cs).map fun n : Nat => -(n : Int)
  | cs => (digits? s.typeName.toList cs).map fun n : Nat => (n : Int)

/-- What a literal says, in range or not. -/
def read? (s : Scalar) (cs : List Char) : Option Int :=
  if s = .bool then
    if cs = "true".toList then some 1 else if cs = "false".toList then some 0 else none
  else if cs = s.typeName.toList ++ "::MIN".toList then some (least s)
  else number? s cs

/-- The integer that a literal denotes. A number outside of the range of its type denotes none. -/
def denoted? (s : Scalar) (text : String) : Option Int :=
  (read? s text.toList).filter fun v => InRange s v

theorem digits?_toString {c : Char} (hc : c.isDigit = false) (cs : List Char) (n : Nat) :
    digits? (c :: cs) ((toString n).toList ++ c :: cs) = some n := by
  have hdigits : ∀ d ∈ (toString n).toList, d.isDigit = true :=
    fun d hd => Decimal.isDigit_of_mem_toString hd
  rw [digits?, List.dropWhile_append_of_pos hdigits, List.takeWhile_append_of_pos hdigits,
    List.dropWhile_cons_of_neg (by simp [hc]), List.takeWhile_cons_of_neg (by simp [hc]),
    if_pos rfl, List.append_nil, Decimal.nat?_toString]

/-- A type's name starts with a letter. -/
theorem exists_typeName_eq (hs : s ∈ integerScalars) (hbool : s ≠ .bool) :
    ∃ c cs, s.typeName.toList = c :: cs ∧ c.isDigit = false ∧ c ≠ '(' := by
  simp only [integerScalars, List.mem_cons, List.not_mem_nil, or_false] at hs
  obtain rfl | rfl | rfl | rfl | rfl | rfl | rfl := hs
  · exact absurd rfl hbool
  all_goals exact ⟨_, _, rfl, by decide, by decide⟩

/-- What starts with something else than the name of the type is not its least integer. -/
theorem read?_cons (hbool : s ≠ .bool) {c d : Char} {cs ds : List Char}
    (hname : s.typeName.toList = c :: cs) (hd : d ≠ c) :
    read? s (d :: ds) = number? s (d :: ds) := by
  have hleast : d :: ds ≠ s.typeName.toList ++ "::MIN".toList := by
    rw [hname]
    intro heq
    exact hd (List.cons.inj heq).1
  rw [read?, if_neg hbool, if_neg hleast]

theorem read?_number (hs : s ∈ integerScalars) (hbool : s ≠ .bool) (n : Nat) :
    read? s (toString n ++ s.typeName).toList = some (n : Int) := by
  obtain ⟨c, cs, hname, hc, -⟩ := exists_typeName_eq hs hbool
  -- A text that starts with a digit is neither in parentheses nor the name of the least integer.
  obtain ⟨d, ds, hds⟩ : ∃ d ds, (toString n).toList = d :: ds := by
    rw [Nat.toString_eq_ofList_toDigits, String.toList_ofList]
    exact List.exists_cons_of_ne_nil Nat.toDigits_ne_nil
  have hd : d.isDigit = true := Decimal.isDigit_of_mem_toString (n := n) (hds ▸ List.mem_cons_self)
  have hdc : d ≠ c := by
    intro heq
    rw [heq, hc] at hd
    cases hd
  have hread := digits?_toString hc cs n
  rw [hds, List.cons_append] at hread
  rw [String.toList_append, hds, hname, List.cons_append, read?_cons hbool hname hdc]
  unfold number?
  split
  next heq =>
    rw [(List.cons.inj heq).1] at hd
    exact absurd hd (by decide)
  next => rw [hname, hread, Option.map_some]

theorem read?_negative (hs : s ∈ integerScalars) (hbool : s ≠ .bool) (n : Nat) :
    read? s ("(" ++ ("-" ++ toString n) ++ s.typeName ++ ")").toList = some (-(n : Int)) := by
  obtain ⟨c, cs, hname, hc, hparen⟩ := exists_typeName_eq hs hbool
  have htext : ("(" ++ ("-" ++ toString n) ++ s.typeName ++ ")").toList
      = '(' :: '-' :: ((toString n).toList ++ c :: (cs ++ [')'])) := by
    simp [String.toList_append, hname]
  rw [htext, read?_cons hbool hname hparen.symm]
  show (digits? (s.typeName.toList ++ [')']) _).map _ = _
  rw [hname, List.cons_append, digits?_toString hc, Option.map_some]

theorem read?_least (hbool : s ≠ .bool) :
    read? s (s.typeName ++ "::MIN").toList = some (least s) := by
  rw [read?, if_neg hbool, String.toList_append, if_pos rfl]

theorem read?_spelled (hs : s ∈ integerScalars) (hr : InRange s r) :
    read? s (spelled s r).toList = some r := by
  by_cases hbool : s = .bool
  · subst hbool
    obtain ⟨hlow, hhigh⟩ : 0 ≤ r ∧ r < 2 := hr
    obtain rfl | rfl : r = 0 ∨ r = 1 := by omega
    · decide
    · decide
  · rw [spelled, if_neg hbool]
    by_cases hleast : s.isInt ∧ r = least s
    · rw [if_pos hleast, read?_least hbool, hleast.2]
    · rw [if_neg hleast]
      cases r with
      | ofNat n =>
        rw [if_neg (Int.not_lt.mpr (Int.natCast_nonneg n) : ¬ Int.ofNat n < 0)]
        exact read?_number hs hbool n
      | negSucc n =>
        rw [if_pos (Int.negSucc_lt_zero n)]
        exact read?_negative hs hbool (n + 1)

/-- **Literals.** The text of an integer denotes the integer in range that is congruent to it. -/
theorem denoted?_intLiteral (hs : s ∈ integerScalars) (ha : FitsSigned 128 a) :
    denoted? s (intLiteral a s) = some (residue s a) := by
  have hrange := inRange_residue hs a
  rw [intLiteral_eq_spelled hs ha, denoted?, read?_spelled hs hrange]
  simp [hrange]

theorem intLiteral_eq_iff (hs : s ∈ integerScalars) (ha : FitsSigned 128 a)
    (hb : FitsSigned 128 b) :
    intLiteral a s = intLiteral b s ↔ a % 2 ^ s.bits = b % 2 ^ s.bits := by
  rw [← residue_eq_iff]
  constructor
  · intro h
    have hdenoted := denoted?_intLiteral hs ha
    rw [h, denoted?_intLiteral hs hb] at hdenoted
    exact (Option.some.inj hdenoted).symm
  · intro h
    rw [intLiteral_eq_spelled hs ha, intLiteral_eq_spelled hs hb, h]

end SafeIR.Target
