import SafeIR.Proofs.Lower.Integer
import SafeIR.Proofs.Target.Literal
import SafeIR.Target.Print

/-!
# Switches

A switch becomes a choice between arms, one for each case and in their order, and the first arm
whose pattern denotes the value is taken. Cases are integers of any size, and a value is compared
with them modulo a power of two; patterns are texts. The arm that is found by text is the one for
the case that is found by congruence, since the text of a pattern denotes the one integer of the
type that is congruent to its case.
-/

namespace SafeIR.Lower

open IR (Block BlockId)
open Layout (Scalar)
open Target (Env Expr InRange Step Stmt Support chooseCase denoted? exec intLiteral integerScalars
  residue)
open Word (FitsSigned)

variable {s : Scalar} {x : Int} {fr : Frame} {block : Block} {cases : List (Int × BlockId)}

/-! ## Cases and arms -/

/-- The first case whose value is congruent to an integer. -/
def firstCase (s : Scalar) (x : Int) (cases : List (Int × BlockId)) : Option (Int × BlockId) :=
  cases.find? fun c => c.1 % 2 ^ s.bits = x % 2 ^ s.bits

/-- The first arm whose pattern, as it is written, denotes an integer. -/
def firstArm (s : Scalar) (x : Int) (arms : List (Expr × List Step)) :
    Option (Expr × List Step) :=
  arms.find? fun arm => denoted? s arm.1.print = some x

theorem firstCase_cons (c : Int × BlockId) (cases : List (Int × BlockId)) :
    firstCase s x (c :: cases) =
      if c.1 % 2 ^ s.bits = x % 2 ^ s.bits then some c else firstCase s x cases := by
  by_cases h : c.1 % 2 ^ s.bits = x % 2 ^ s.bits <;> simp [firstCase, h]

theorem firstArm_cons (arm : Expr × List Step) (arms : List (Expr × List Step)) :
    firstArm s x (arm :: arms) =
      if denoted? s arm.1.print = some x then some arm else firstArm s x arms := by
  by_cases h : denoted? s arm.1.print = some x <;> simp [firstArm, h]

/-- The arm for a case: the literal of its value, and the edge to its block. -/
def IsArm (fr : Frame) (block : Block) (s : Scalar) (c : Int × BlockId) (arm : Expr × List Step) :
    Prop :=
  arm.1 = .int c.1 s ∧ fr.edge block c.2 = .ok arm.2

theorem IsArm.denotes_iff {c : Int × BlockId} {arm : Expr × List Step}
    (h : IsArm fr block s c arm) (hs : s ∈ integerScalars) (hc : FitsSigned 128 c.1)
    (hx : InRange s x) :
    denoted? s arm.1.print = some x ↔ c.1 % 2 ^ s.bits = x % 2 ^ s.bits := by
  rw [h.1, Expr.print, Target.denoted?_intLiteral hs hc, Option.some.injEq,
    ← Target.residue_eq_iff, Target.residue_of_inRange hs hx]

/-- The first arm that denotes a value is the one for the first case that is congruent to it. -/
theorem firstArm_rel (hs : s ∈ integerScalars) (hx : InRange s x) {arms : List (Expr × List Step)}
    (h : List.Forall₂ (IsArm fr block s) cases arms) (hcases : ∀ c ∈ cases, FitsSigned 128 c.1) :
    Option.Rel (IsArm fr block s) (firstCase s x cases) (firstArm s x arms) := by
  induction h with
  | nil => exact .none
  | @cons c arm cases arms harm _ ih =>
    have hiff := harm.denotes_iff hs (hcases c List.mem_cons_self) hx
    rw [firstCase_cons, firstArm_cons]
    -- Case and arm of a pair are both the ones looked for, or both searches go on.
    by_cases hc : c.1 % 2 ^ s.bits = x % 2 ^ s.bits
    · rw [if_pos hc, if_pos (hiff.mpr hc)]
      exact .some harm
    · rw [if_neg hc, if_neg (mt hiff.mp hc)]
      exact ih fun c hc => hcases c (List.mem_cons_of_mem _ hc)

/-! ## Values -/

theorem ofInt_eq_ofInt_iff {w : Nat} {a b : Int} :
    BitVec.ofInt w a = BitVec.ofInt w b ↔ a % 2 ^ w = b % 2 ^ w := by
  rw [← BitVec.toInt_inj, BitVec.toInt_ofInt, BitVec.toInt_ofInt]
  exact Target.residue_eq_iff (s := .int w)

/-- Two literals have one value exactly if the integers are congruent. -/
theorem literal_eq_iff (hs : s ∈ integerScalars) {a b : Int} :
    Target.Value.literal a s = Target.Value.literal b s ↔ a % 2 ^ s.bits = b % 2 ^ s.bits := by
  rw [← ofInt_eq_ofInt_iff]
  by_cases hptr : s = .ptr
  · subst hptr
    show Target.Value.word false 64 _ = Target.Value.word false 64 _ ↔ _
    simp [Scalar.bits]
  · obtain ⟨bits, hbits, hscalar, heq⟩ :
        ∃ bits, (IR.Ty.int bits).IsInteger ∧ s = scalarOf bits ∧ s.bits = bits := by
      simp only [integerScalars, List.mem_cons, List.not_mem_nil, or_false] at hs
      obtain rfl | rfl | rfl | rfl | rfl | rfl | rfl := hs
      · exact ⟨1, by decide, rfl, rfl⟩
      · exact ⟨8, by decide, rfl, rfl⟩
      · exact ⟨16, by decide, rfl, rfl⟩
      · exact ⟨32, by decide, rfl, rfl⟩
      · exact ⟨64, by decide, rfl, rfl⟩
      · exact ⟨128, by decide, rfl, rfl⟩
      · exact absurd rfl hptr
    rw [heq, hscalar, literal_represents hbits, literal_represents hbits, represent_inj hbits]

/-- A running switch takes the first arm whose pattern denotes the value. -/
theorem chooseCase_eq {σ : Type} (sup : Support σ) (e : Env σ) (hs : s ∈ integerScalars)
    (hx : InRange s x) (rest : List Step) {arms : List (Expr × List Step)}
    (h : List.Forall₂ (IsArm fr block s) cases arms) (hcases : ∀ c ∈ cases, FitsSigned 128 c.1) :
    chooseCase sup e (.literal x s) rest arms
      = some (((firstArm s x arms).map Prod.snd).getD rest) := by
  induction h with
  | nil => rfl
  | @cons c arm cases arms harm _ ih =>
    obtain ⟨pattern, steps⟩ := arm
    have hiff := harm.denotes_iff hs (hcases c List.mem_cons_self) hx
    have hpattern : pattern = .int c.1 s := harm.1
    have heval : pattern.eval sup e = some (.literal c.1 s) := by
      rw [hpattern]
      rfl
    rw [chooseCase, heval, firstArm_cons, Option.bind_eq_bind, Option.bind_some]
    by_cases hc : c.1 % 2 ^ s.bits = x % 2 ^ s.bits
    · rw [if_pos ((literal_eq_iff hs).mpr hc), if_pos (hiff.mpr hc)]
      rfl
    · rw [if_neg (mt (literal_eq_iff hs).mp hc), if_neg (mt hiff.mp hc)]
      exact ih fun c hc => hcases c (List.mem_cons_of_mem _ hc)

/-! ## Terminators -/

/-- A value that is no float is an integer of a common width, a truth value or an address. -/
theorem Frame.scalar_mem_integerScalars {site : Site} {ty : IR.Ty} (h : fr.scalar site ty = .ok s)
    (hfloat : ty ≠ .float) (hdouble : ty ≠ .double) : s ∈ integerScalars := by
  obtain ⟨layout, hlayout, h⟩ := bind_eq_ok.mp h
  have hlayout := mapError_eq_ok.mp hlayout
  cases ty with
  | int bits =>
    simp only [Layout.ofType, Layout.ofLeaf] at hlayout
    split at hlayout
    next =>
      cases hlayout
      cases h
      decide
    next =>
      split at hlayout
      next hcommon =>
        split at hlayout
        next => cases hlayout
        next =>
          cases hlayout
          cases h
          simpa [integerScalars] using hcommon
      next => cases hlayout
  | ptr =>
    cases hlayout
    cases h
    decide
  | float => exact absurd rfl hfloat
  | double => exact absurd rfl hdouble
  | void =>
    cases hlayout
    cases h
  | half | x86Fp80 | fp128 | label | metadata => cases hlayout
  -- An aggregate is no value.
  | array | struct =>
    simp only [Layout.ofType, bind_eq_ok, pure_eq_ok] at hlayout
    obtain ⟨_, -, rfl⟩ := hlayout
    cases h
  | function =>
    simp only [Layout.ofType, bind_eq_ok, pure_eq_ok] at hlayout
    obtain ⟨_, -, _, -, rfl⟩ := hlayout
    cases h

/-- What the code of a switch consists of. -/
theorem Frame.terminator_switch {stmts : List Stmt} {ty : IR.Ty} {v : IR.Operand}
    {default : BlockId} (hterm : block.terminator = .switch ty v default cases)
    (h : fr.terminator block = .ok stmts) :
    ∃ s value arms rest, fr.scalar ⟨block, block.terminator.opcode⟩ ty = .ok s ∧
      fr.operand ⟨block, block.terminator.opcode⟩ ty v = .ok value ∧
      List.Forall₂ (IsArm fr block s) cases arms ∧ fr.edge block default = .ok rest ∧
      stmts = [.switch value arms rest, .next] := by
  unfold Frame.terminator at h
  rw [hterm] at h
  simp only [bind_eq_ok, pure_eq_ok] at h
  obtain ⟨s, hs, value, hvalue, arms, harms, rest, hrest, rfl⟩ := h
  refine ⟨s, value, arms, rest, hterm ▸ hs, hterm ▸ hvalue, ?_, hrest, rfl⟩
  refine (mapM_eq_ok.mp harms).imp fun c arm harm => ?_
  obtain ⟨steps, hsteps, harm⟩ := bind_eq_ok.mp harm
  cases harm
  exact ⟨rfl, hsteps⟩

/-- The code of a switch goes to the block of the first case that is congruent to the value. -/
theorem exec_switch {σ : Type} (sup : Support σ) (e : Env σ) (hs : s ∈ integerScalars)
    (hx : InRange s x) {value : Expr} (hvalue : value.eval sup e = some (.literal x s))
    {default : BlockId} {rest : List Step} (hrest : fr.edge block default = .ok rest)
    {cases : List (Int × BlockId)} {arms : List (Expr × List Step)}
    (harms : List.Forall₂ (IsArm fr block s) cases arms)
    (hcases : ∀ c ∈ cases, FitsSigned 128 c.1) :
    ∃ e', fr.Takes sup block (((firstCase s x cases).map Prod.snd).getD default) e e' ∧
      exec sup [.switch value arms rest, .next] e = .again e' := by
  have hedge : fr.edge block (((firstCase s x cases).map Prod.snd).getD default) =
      .ok (((firstArm s x arms).map Prod.snd).getD rest) := by
    have hrel := firstArm_rel hs hx harms hcases
    generalize firstCase s x cases = c, firstArm s x arms = arm at hrel
    cases hrel with
    | none => exact hrest
    | some harm => exact harm.2
  obtain ⟨e', htakes, hrun⟩ := Frame.runSteps_edge hedge sup e
  refine ⟨e', htakes, ?_⟩
  rw [exec, hvalue, Option.bind_eq_bind, Option.bind_some,
    chooseCase_eq sup e hs hx rest harms hcases]
  exact hrun _ _

/-- Two integers have one literal exactly if they are congruent, and it denotes the one of them that
the scalar has. So the first arm of a switch that denotes a value is the one for the first case that
is congruent to it, there is none exactly if there is no such case, and the code goes to that case's
block, or else to the default. -/
theorem switch_dispatches_by_congruence :
    (∀ s ∈ integerScalars, ∀ a b, FitsSigned 128 a → FitsSigned 128 b →
      (intLiteral a s = intLiteral b s ↔ a % 2 ^ s.bits = b % 2 ^ s.bits) ∧
      ∃ r, denoted? s (intLiteral a s) = some r ∧ InRange s r ∧
        r % 2 ^ s.bits = a % 2 ^ s.bits) ∧
    ∀ (fr : Frame) (block : Block) (stmts : List Stmt) (ty : IR.Ty) (v : IR.Operand)
      (default : BlockId) (cases : List (Int × BlockId)),
      block.terminator = .switch ty v default cases → ty ≠ .float → ty ≠ .double →
      (∀ c ∈ cases, FitsSigned 128 c.1) → fr.terminator block = .ok stmts →
      ∃ s ∈ integerScalars, ∃ value arms rest,
        fr.scalar ⟨block, block.terminator.opcode⟩ ty = .ok s ∧
        fr.operand ⟨block, block.terminator.opcode⟩ ty v = .ok value ∧
        fr.edge block default = .ok rest ∧ stmts = [.switch value arms rest, .next] ∧
        ∀ x, InRange s x →
          Option.Rel (IsArm fr block s) (firstCase s x cases) (firstArm s x arms) ∧
          ∀ (σ : Type) (sup : Support σ) (e : Env σ), value.eval sup e = some (.literal x s) →
            ∃ e', fr.Takes sup block (((firstCase s x cases).map Prod.snd).getD default) e e' ∧
              exec sup stmts e = .again e' := by
  constructor
  · intro s hs a b ha hb
    exact ⟨Target.intLiteral_eq_iff hs ha hb, residue s a, Target.denoted?_intLiteral hs ha,
      Target.inRange_residue hs a, Target.residue_emod s a⟩
  · intro fr block stmts ty v default cases hterm hfloat hdouble hcases h
    obtain ⟨s, value, arms, rest, hscalar, hvalue, harms, hrest, rfl⟩ :=
      Frame.terminator_switch hterm h
    have hs := Frame.scalar_mem_integerScalars hscalar hfloat hdouble
    refine ⟨s, hs, value, arms, rest, hscalar, hvalue, hrest, rfl, fun x hx => ?_⟩
    refine ⟨firstArm_rel hs hx harms hcases, fun σ sup e heval => ?_⟩
    exact exec_switch sup e hs hx heval hrest harms hcases

/-- A switch on a byte, with a case that is out of range, one that is congruent to it, and two
spellings of the least byte. -/
def forkBlock : Block where
  id := ⟨0⟩
  label := "entry"
  instructions := []
  terminator := .switch (.int 8) (.value ⟨0⟩) ⟨1⟩ [(300, ⟨2⟩), (44, ⟨1⟩), (-128, ⟨2⟩), (128, ⟨1⟩)]

def forkFrame : Frame where
  setting := { module := {}, profile := {}, globals := [], names := [] }
  function := {
    id := ⟨0⟩, name := "f", demangled := none, params := [⟨0⟩], ret := .void, varargs := false,
    isDeclaration := false, values := [⟨"x", .int 8⟩], blocks := [forkBlock,
      { id := ⟨1⟩, label := "other", instructions := [], terminator := .unreachable },
      { id := ⟨2⟩, label := "first", instructions := [], terminator := .unreachable }] }
  exceptions := []

/-- The first of two congruent cases counts, and zero goes to the default. -/
theorem switch_dispatches_on_byte :
    intLiteral 300 (.int 8) = intLiteral 44 (.int 8) ∧
    ∃ arms, forkFrame.terminator forkBlock =
        .ok [.switch (.var (.value ⟨0⟩)) arms [.goto ⟨1⟩], .next] ∧
      (firstArm (.int 8) 44 arms).map Prod.snd = some [.goto ⟨2⟩] ∧
      (firstArm (.int 8) (-128) arms).map Prod.snd = some [.goto ⟨2⟩] ∧
      firstArm (.int 8) 0 arms = none := by
  obtain ⟨hliteral, hswitch⟩ := switch_dispatches_by_congruence
  refine ⟨(hliteral (.int 8) (by decide) 300 44 (by decide) (by decide)).1.mpr (by decide), ?_⟩
  obtain ⟨s, -, value, arms, rest, hscalar, hvalue, hrest, hstmts, hfirst⟩ :=
    hswitch forkFrame forkBlock _ _ _ _ _ rfl (by decide) (by decide) (by decide) rfl
  cases hscalar
  cases hvalue
  cases hrest
  have htaken : ∀ x v, InRange (.int 8) x →
      firstCase (.int 8) x [(300, ⟨2⟩), (44, ⟨1⟩), (-128, ⟨2⟩), (128, ⟨1⟩)] = some (v, ⟨2⟩) →
      (firstArm (.int 8) x arms).map Prod.snd = some [.goto ⟨2⟩] := by
    intro x v hx hcase
    have hrel := (hfirst x hx).1
    rw [hcase] at hrel
    generalize firstArm (.int 8) x arms = arm at hrel
    cases hrel with
    | some harm => exact congrArg some (Except.ok.inj harm.2).symm
  refine ⟨arms, congrArg Except.ok hstmts, ?_, ?_, ?_⟩
  · exact htaken 44 300 (by decide) (by decide)
  · exact htaken (-128) (-128) (by decide) (by decide)
  · have hrel := (hfirst 0 (by decide)).1
    rw [(by decide : firstCase (.int 8) 0 _ = none)] at hrel
    generalize firstArm (.int 8) 0 arms = arm at hrel
    cases hrel
    rfl

end SafeIR.Lower
