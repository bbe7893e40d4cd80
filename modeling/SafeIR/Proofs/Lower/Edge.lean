import SafeIR.Lower.Function
import SafeIR.Proofs.IR.Run
import SafeIR.Proofs.Result
import SafeIR.Proofs.Target.Machine

/-!
# Edges in generated code

The code along an edge assigns to all phis of the block it goes to, at once, and then names that
block. `Frame.Takes` says so of the variables before and after, and `Frame.runSteps_edge` that the
code of an edge always does it: the operands of a phi are values and constants, which have a value
whatever the variables hold.
-/

namespace SafeIR.Lower

open IR (Block BlockId Constant Operand Phi)
open Target (Action Env Expr Flow Step Stmt Support Var exec runSteps)

variable {σ : Type} {sup : Support σ} {pairs : List (Var × Expr)} {source : Block}
  {target : BlockId}

/-- The values of assignments that are made at once. -/
def evalPairs (sup : Support σ) (e : Env σ) (pairs : List (Var × Expr)) :
    Option (List (Var × Target.Value)) :=
  pairs.mapM fun p => (p.2.eval sup e).map (p.1, ·)

/-- Where every source has a value, so does the whole assignment. -/
theorem exists_evalPairs {e : Env σ} (h : ∀ p ∈ pairs, ∃ v, p.2.eval sup e = some v) :
    ∃ values, evalPairs sup e pairs = some values ∧
      values.map Prod.fst = pairs.map Prod.fst := by
  induction pairs with
  | nil => exact ⟨[], rfl, rfl⟩
  | cons p pairs ih =>
    obtain ⟨v, hv⟩ := h p List.mem_cons_self
    obtain ⟨values, hvalues, hfst⟩ := ih fun q hq => h q (List.mem_cons_of_mem p hq)
    rw [evalPairs] at hvalues
    exact ⟨(p.1, v) :: values, by simp [evalPairs, hv, hvalues], by simp [hfst]⟩

/-- Assignments at once do what they say, whichever form they are written in. -/
theorem runSteps_copies {e : Env σ} {values : List (Var × Target.Value)}
    (h : evalPairs sup e pairs = some values) (rest : List Stmt) (next : Env σ → Flow σ)
    (steps : List Step) :
    runSteps sup rest next (copies pairs ++ steps) e
      = runSteps sup rest next steps (e.setAll values) := by
  match pairs with
  | [] =>
    cases h
    rfl
  | [(dest, x)] =>
    simp only [evalPairs, List.mapM_cons, List.mapM_nil, Option.bind_eq_bind,
      Option.bind_eq_some_iff, Option.map_eq_some_iff] at h
    obtain ⟨_, ⟨v, hv, rfl⟩, _, hnil, h⟩ := h
    cases hnil
    cases h
    refine Target.runSteps_cons (w := e.world) rfl ?_
    rw [Step.eval, Action.eval_pure hv]
    rfl
  | p :: q :: pairs =>
    refine Target.runSteps_cons (w := e.world) rfl ?_
    rw [Step.eval, ← evalPairs, h]
    rfl

namespace Frame

variable {fr : Frame}

/-- The code of a constant has a value. -/
theorem constant_evaluates {s : Site} {scalar : Layout.Scalar} {c : Constant} {x : Expr}
    (h : fr.constant s scalar c = .ok x) (sup : Support σ) (e : Env σ) :
    ∃ v, x.eval sup e = some v := by
  cases c with
  | int _ | float _ | bool _ | null | undef | zero =>
    cases h
    exact ⟨_, rfl⟩
  | bytes _ | array _ | struct _ | global _ => cases h

/-- The code of an operand has a value. -/
theorem operand_evaluates {s : Site} {ty : IR.Ty} {o : Operand} {x : Expr}
    (h : fr.operand s ty o = .ok x) (sup : Support σ) (e : Env σ) : ∃ v, x.eval sup e = some v := by
  have hglobal : ∀ {g : IR.GlobalId}, fr.globalName g = .ok x → ∃ v, x.eval sup e = some v := by
    intro g h
    unfold globalName at h
    split at h
    next =>
      cases h
      exact ⟨_, rfl⟩
    next => cases h
  unfold operand at h
  split at h
  next =>
    cases h
    exact ⟨_, rfl⟩
  next => exact hglobal h
  next => exact hglobal h
  next =>
    obtain ⟨scalar, -, h⟩ := bind_eq_ok.mp h
    exact constant_evaluates h sup e
  next => split at h <;> cases h
  next => cases h

theorem arrival_evaluates {target : Block} {dest : IR.ValueId} {ty : IR.Ty}
    {incoming : List (Operand × BlockId)} {p : Var × Expr}
    (h : fr.arrival source target dest ty incoming = .ok p) (sup : Support σ) (e : Env σ) :
    p.1 = .value dest ∧ ∃ v, p.2.eval sup e = some v := by
  unfold arrival at h
  split at h
  next => cases h
  next value _ _ =>
    split at h
    next =>
      split at h <;> cases h <;> exact ⟨rfl, _, rfl⟩
    next =>
      obtain ⟨x, hx, h⟩ := bind_eq_ok.mp h
      cases h
      exact ⟨rfl, operand_evaluates hx sup e⟩

/-- A traversal that looks at the phis alone is one of the phis. -/
theorem mapM_phis {α : Type} {g : Phi → Result α} {f : IR.Instruction → Result (Option α)}
    (hf : ∀ i, f i = match i.phi? with
      | some p => some <$> g p
      | none => pure none) (is : List IR.Instruction) :
    (do return (← is.mapM f).filterMap id) = (is.filterMap IR.Instruction.phi?).mapM g := by
  induction is with
  | nil => rfl
  | cons i is ih =>
    rw [List.mapM_cons, hf, List.filterMap_cons]
    cases i.phi? with
    | none =>
      rw [← ih]
      simp
    | some p =>
      rw [List.mapM_cons, ← ih]
      simp

/-- The assignments on an edge are one for each phi, in their order. -/
theorem arrivals_eq_mapM (source target : Block) :
    fr.arrivals source target
      = target.phis.mapM fun p => fr.arrival source target p.dest p.ty p.incoming := by
  refine mapM_phis (fun i => ?_) target.instructions
  obtain ⟨result, op⟩ := i
  cases op <;> cases result <;> rfl

theorem arrivals_evaluate {target : Block} (h : fr.arrivals source target = .ok pairs)
    (sup : Support σ) (e : Env σ) :
    ∃ values, evalPairs sup e pairs = some values ∧
      values.map Prod.fst = target.phis.map fun p => .value p.dest := by
  rw [arrivals_eq_mapM] at h
  have hdests : pairs.map Prod.fst = target.phis.map fun p => .value p.dest :=
    map_of_mapM h fun p x hx => (arrival_evaluates hx sup e).1
  have hvalue : ∀ x ∈ pairs, ∃ v, x.2.eval sup e = some v := by
    intro x hx
    obtain ⟨p, -, hp⟩ := exists_of_mem_mapM h hx
    exact (arrival_evaluates hp sup e).2
  obtain ⟨values, hvalues, hfst⟩ := exists_evalPairs hvalue
  exact ⟨values, hvalues, hfst.trans hdests⟩

/-- Control goes along an edge: all phis of the block are assigned at once. -/
def Takes (fr : Frame) (sup : Support σ) (source : Block) (target : BlockId) (e e' : Env σ) :
    Prop :=
  ∃ block pairs values, fr.function.blocks[target.index]? = some block ∧
    fr.arrivals source block = .ok pairs ∧ evalPairs sup e pairs = some values ∧
    e' = { e.setAll values with block := target }

theorem edge_eq_ok {steps : List Step} :
    fr.edge source target = .ok steps ↔ ∃ block pairs,
      fr.function.blocks[target.index]? = some block ∧ fr.arrivals source block = .ok pairs ∧
      steps = copies pairs ++ [.goto target] := by
  unfold edge
  cases hblock : fr.function.blocks[target.index]? with
  | none => simp
  | some block =>
    simp only [bind_eq_ok, pure_eq_ok, Option.some.injEq]
    constructor
    · rintro ⟨pairs, hpairs, rfl⟩
      exact ⟨block, pairs, rfl, hpairs, rfl⟩
    · rintro ⟨_, pairs, rfl, hpairs, rfl⟩
      exact ⟨pairs, hpairs, rfl⟩

/-- The code of an edge goes along it, whatever the variables hold. -/
theorem runSteps_edge {steps : List Step} (h : fr.edge source target = .ok steps) (sup : Support σ)
    (e : Env σ) :
    ∃ e', fr.Takes sup source target e e' ∧
      ∀ rest next, runSteps sup rest next steps e = next e' := by
  obtain ⟨block, pairs, hblock, hpairs, rfl⟩ := edge_eq_ok.mp h
  obtain ⟨values, hvalues, -⟩ := arrivals_evaluate hpairs sup e
  refine ⟨_, ⟨block, pairs, values, hblock, hpairs, hvalues, rfl⟩, fun rest next => ?_⟩
  rw [runSteps_copies hvalues]
  exact Target.runSteps_cons (w := (e.setAll values).world) rfl rfl

end Frame

/-! ## The blocks of a function -/

/-- What the code of a function is lowered in. -/
def frameOf (setting : Setting) (f : IR.Function) : Frame := ⟨setting, f, exceptionValues f⟩

/-- The parts of a lowered function. -/
structure Lowered (setting : Setting) (f : IR.Function) (t : Target.Function) : Prop where
  signature : (frameOf setting f).signature = .ok (t.params, t.ret)
  locals : t.locals = (frameOf setting f).locals
  blocks : f.blocks.mapM (frameOf setting f).block = .ok t.blocks
  flat : t.flat = isFlat f
  usesFrame : t.usesFrame = usesFrame f

theorem lowered_of_function {setting : Setting} {f : IR.Function} {t : Target.Function}
    (h : function setting f = .ok t) : Lowered setting f t := by
  unfold function at h
  simp only at h
  split at h
  next => cases h
  next =>
    obtain ⟨⟨params, ret⟩, hsignature, h⟩ := bind_eq_ok.mp h
    obtain ⟨blocks, hblocks, h⟩ := bind_eq_ok.mp h
    cases h
    exact ⟨hsignature, rfl, hblocks, rfl, rfl⟩

namespace Lowered

variable {setting : Setting} {f : IR.Function} {t : Target.Function}

theorem params_eq (h : Lowered setting f t) : t.params.map Prod.fst = f.params.map .value := by
  have hsignature := h.signature
  unfold Frame.signature at hsignature
  split at hsignature
  next => cases hsignature
  next =>
    obtain ⟨ret, -, hsignature⟩ := bind_eq_ok.mp hsignature
    obtain ⟨params, hparams, hsignature⟩ := bind_eq_ok.mp hsignature
    cases hsignature
    refine map_of_mapM hparams fun p x hx => ?_
    obtain ⟨ty, -, hx⟩ := bind_eq_ok.mp hx
    cases hx
    rfl

/-- A function with an edge is not flat. -/
theorem flat_eq_false (h : Lowered setting f t) {b : Block} (hb : b ∈ f.blocks)
    (htarget : target ∈ b.terminator.successors) : t.flat = false := by
  rw [h.flat]
  unfold isFlat
  split
  next b' hblocks =>
    rw [hblocks, List.mem_singleton] at hb
    rw [← hb, List.isEmpty_eq_false_iff]
    exact List.ne_nil_of_mem htarget
  next => rfl

/-- The code that runs next is that of the current block, also where it is all there is. -/
theorem code_eq (h : Lowered setting f t) {b : BlockId} {block : Block}
    (hblock : f.blocks[b.index]? = some block) :
    ∃ stmts, (frameOf setting f).block block = .ok stmts ∧ t.code b = some stmts := by
  obtain ⟨stmts, hstmts, hcode⟩ := getElem?_of_mapM_left h.blocks hblock
  refine ⟨stmts, hcode, ?_⟩
  unfold Target.Function.code
  split
  next hflat =>
    rw [h.flat, isFlat] at hflat
    split at hflat
    next b' hblocks =>
      have hlength := length_of_mapM h.blocks
      rw [hblocks] at hlength
      obtain ⟨stmts', hstmts'⟩ := List.length_eq_one_iff.mp hlength
      rw [hstmts', List.getElem?_singleton] at hstmts
      split at hstmts
      next =>
        cases hstmts
        simp [hstmts']
      next => cases hstmts
    next => cases hflat
  next => exact hstmts

end Lowered

end SafeIR.Lower
