import SafeIR.Proofs.Lower.Total

/-!
# Lockstep

A function on integers and the code it is lowered to run block by block together: after any number
of blocks both are at the same block with the same values, or both have returned the same value, or
both have stopped at the same trap (`runs_in_lockstep`).

The phis of a block take their values on its entry in one run and along the edge to it in the
other, so they have them in both when the block starts. Inside of a block, every instruction that
has a value has it in both runs, and one that traps leaves the function.
-/

namespace SafeIR.Lower

open IR (Block BlockId Datum Instruction Operand Phi ValueId)
open Target (Action Env Expr Flow Machine.run Machine.settle Machine.step Step Stmt Support
  Var exec runSteps)

variable {σ : Type} {sup : Support σ} {e : Env σ} {env : IR.Env} {fr : Frame} {source b : Block}

/-! ## Instructions -/

/-- A result is kept in the variable of its value. -/
theorem Frame.dest_eq {s : Site} {v : ValueId} {what : String} {dest : Var}
    (h : fr.dest s (some v) what = .ok dest) : dest = .value v := by
  unfold Frame.dest Frame.dest? at h
  split at h
  next hdest =>
    cases h
    obtain ⟨v', hv', rfl⟩ := Option.map_eq_some_iff.mp hdest
    exact congrArg Var.value (Option.some.inj (Option.filter_eq_some_iff.mp hv').1).symm
  next => cases h

/-- The code of an operation computes its value, or traps as it does. -/
theorem Frame.does_op {v : ValueId} {op : IR.Op} {stmts : List Stmt}
    (h : fr.instruction b ⟨some v, op⟩ = .ok stmts)
    (htyped : op.HasType fr.function (fr.function.typeOf v)) (henv : env.Typed fr.function)
    (he : Holds env e) {x : Except Trap Datum}
    (hx : op.eval fr.setting.profile.overflow env = some x) :
    ∃ steps, stmts = steps.map .step ∧
      Does sup steps e (x.map fun d => e.set (.value v) (represent d)) := by
  -- The operands represent their data in both runs, so one operation is compared with its code.
  cases op with
  | binary op flags ty l r =>
    obtain ⟨-, hword, -, hl, hr⟩ := htyped
    obtain ⟨w, a, c, z, ha, hc, hz, rfl⟩ := IR.Op.eval_binary_eq_some hx
    obtain rfl : ty = .int w := IR.Operand.bits_of_datum? (d := ⟨w, a⟩) henv hl ha
    simp only [Frame.instruction, bind_eq_ok] at h
    obtain ⟨scalar, hscalar, l', hl', r', hr', dest, hdest, h⟩ := h
    obtain rfl := Frame.dest_eq hdest
    obtain rfl := (Frame.scalar_int hscalar).trans (scalarOf_word hword)
    have hleft : l'.eval sup e = some (.word true w a) :=
      represent_word hword a ▸ Frame.operand_represents hl' (.inr hword) ha he
    have hright : r'.eval sup e = some (.word true w c) :=
      represent_word hword c ▸ Frame.operand_represents hr' (.inr hword) hc he
    split at h
    next steps hsteps =>
      cases h
      refine ⟨steps, rfl, ?_⟩
      have hdoes := does_binary hword hleft hright hsteps hz
      cases z with
      | error t => exact hdoes
      | ok z =>
        show Does sup steps e (.ok (e.set _ (represent ⟨w, z⟩)))
        rw [represent_word hword]
        exact hdoes
    next => cases h
  | icmp pred ty l r =>
    obtain ⟨hint, -, hl, hr⟩ := htyped
    obtain ⟨w, a, c, ha, hc, rfl⟩ := IR.Op.eval_icmp_eq_some hx
    obtain rfl : ty = .int w := IR.Operand.bits_of_datum? (d := ⟨w, a⟩) henv hl ha
    simp only [Frame.instruction, bind_eq_ok, pure_eq_ok] at h
    obtain ⟨scalar, hscalar, l', hl', r', hr', dest, hdest, rfl⟩ := h
    obtain rfl := Frame.dest_eq hdest
    obtain rfl := Frame.scalar_int hscalar
    refine ⟨[_], rfl, does_pure ?_ _⟩
    exact icmp_represents hint (Frame.operand_represents hl' hint ha he)
      (Frame.operand_represents hr' hint hc he) pred
  | select ty cond yes no =>
    obtain ⟨hint, -, hcond, hyes, hno⟩ := htyped
    obtain ⟨c, holds, d, hc, hholds, hd, rfl⟩ := IR.Op.eval_select_eq_some hx
    simp only [Frame.instruction, bind_eq_ok, pure_eq_ok] at h
    obtain ⟨_, -, cond', hcond', yes', hyes', no', hno', dest, hdest, rfl⟩ := h
    obtain rfl := Frame.dest_eq hdest
    have hchoice : cond'.eval sup e = some (.bool holds) := by
      rw [Frame.operand_represents hcond' (.inl rfl) hc he, represent_isTrue hholds]
    refine ⟨[_], rfl, does_pure ?_ _⟩
    rw [Expr.eval, hchoice]
    cases holds with
    | true => exact Frame.operand_represents hyes' hint hd he
    | false => exact Frame.operand_represents hno' hint hd he
  | cast op source target o =>
    obtain ⟨hsource, htarget, hfits, -, ho⟩ := htyped
    obtain ⟨⟨w, a⟩, d, ha, hd, rfl⟩ := IR.Op.eval_cast_eq_some hx
    obtain rfl : source = .int w := IR.Operand.bits_of_datum? henv ho ha
    obtain rfl : target = .int d.bits := IR.Datum.bits_of_convert hd
    simp only [Frame.instruction, bind_eq_ok] at h
    obtain ⟨scalar, hscalar, scalar', hscalar', o', ho', dest, hdest, h⟩ := h
    obtain rfl := Frame.dest_eq hdest
    obtain rfl := Frame.scalar_int hscalar
    obtain rfl := Frame.scalar_int hscalar'
    split at h
    next action haction =>
      cases h
      obtain ⟨y, rfl, hy⟩ := cast_represents hsource htarget
        (Frame.operand_represents (e := e) ho' hsource ha he) hfits haction hd
      exact ⟨[_], rfl, does_pure hy _⟩
    next => cases h
  | phi | fcmp | fneg | alloca | load | store | gep | call | landingpad => cases hx

/-- The variables after some instructions hold the values after them; a trap is the same trap. -/
inductive Follows (world : σ) : Except Trap IR.Env → Except Trap (Env σ) → Prop
  | values {env : IR.Env} {e : Env σ} :
    e.world = world → Holds env e → Follows world (.ok env) (.ok e)
  | trap (t : Trap) : Follows world (.error t) (.error t)

/-- Statements that end with other variables or leave the function with a trap. -/
def Performs (sup : Support σ) (stmts : List Stmt) (e : Env σ) (r : Except Trap (Env σ)) : Prop :=
  ∀ rest, exec sup (stmts ++ rest) e = match r with
    | .ok e' => exec sup rest e'
    | .error t => .left e.world (.error (.trap t))

theorem Does.performs {steps : List Step} {r : Except Trap (Env σ)} (h : Does sup steps e r) :
    Performs sup (steps.map .step) e r := by
  intro rest
  rw [Target.exec_steps]
  exact h rest (exec sup rest)

/-- The code of an instruction follows it. -/
theorem Frame.performs_instruction {i : Instruction} {stmts : List Stmt}
    (h : fr.instruction b i = .ok stmts)
    (htyped : ∃ v ∈ i.result, i.op.HasType fr.function (fr.function.typeOf v))
    (henv : env.Typed fr.function) (he : Holds env e) {r : Except Trap IR.Env}
    (hr : i.eval fr.setting.profile.overflow env = some r) :
    ∃ r', Performs sup stmts e r' ∧ Follows e.world r r' := by
  obtain ⟨result, op⟩ := i
  obtain ⟨v, rfl : result = some v, hop⟩ := htyped
  cases hphi : (Instruction.mk (some v) op).phi? with
  | some p =>
    obtain ⟨rfl : op = _, -⟩ := Instruction.eq_of_phi? hphi
    cases h
    cases hr
    exact ⟨.ok e, fun _ => rfl, .values rfl he⟩
  | none =>
    rw [Instruction.eval_of_op rfl hphi] at hr
    obtain ⟨x, hx, rfl⟩ := Option.map_eq_some_iff.mp hr
    obtain ⟨steps, rfl, hdoes⟩ := Frame.does_op h hop henv he hx
    refine ⟨_, hdoes.performs, ?_⟩
    cases x with
    | error t => exact .trap t
    | ok d => exact .values rfl (he.set v d)

/-- The code of the instructions of a block, one after the other. -/
theorem Frame.performs_instructions {is : List Instruction} {body : List (List Stmt)}
    (h : is.mapM (fr.instruction b) = .ok body)
    (htyped : ∀ i ∈ is, ∃ v ∈ i.result, i.op.HasType fr.function (fr.function.typeOf v))
    (henv : env.Typed fr.function) (he : Holds env e) {r : Except Trap IR.Env}
    (hr : IR.evalInstructions fr.setting.profile.overflow is env = some r) :
    ∃ r', Performs sup body.flatten e r' ∧ Follows e.world r r' := by
  induction is generalizing env e body with
  | nil =>
    cases h
    cases hr
    exact ⟨.ok e, fun _ => rfl, .values rfl he⟩
  | cons i is ih =>
    rw [List.mapM_cons, bind_eq_ok] at h
    obtain ⟨stmts, hstmts, h⟩ := h
    obtain ⟨body, hbody, h⟩ := bind_eq_ok.mp h
    cases h
    have hi := htyped i List.mem_cons_self
    obtain ⟨r₁, hr₁, hr⟩ := Option.bind_eq_some_iff.mp hr
    obtain ⟨r₁', hperforms, hfollows⟩ := Frame.performs_instruction hstmts hi henv he hr₁
    cases hfollows with
    | trap t =>
      -- what stands behind a trap is not run, so nothing needs to be known of it
      cases hr
      refine ⟨.error t, fun rest => ?_, .trap t⟩
      rw [List.flatten_cons, List.append_assoc]
      exact hperforms _
    | @values env₁ e₁ hworld hholds =>
      obtain ⟨r', hrest, hfollows⟩ := ih hbody (fun j hj => htyped j (List.mem_cons_of_mem _ hj))
        (Instruction.typed_of_eval hi henv hr₁) hholds hr
      rw [hworld] at hfollows
      refine ⟨r', fun rest => ?_, hfollows⟩
      rw [List.flatten_cons, List.append_assoc, hperforms, ← hworld]
      exact hrest rest

/-! ## Edges -/

theorem Frame.arrival_represents {target : Block} {p : Phi} {x : Var × Expr}
    (h : fr.arrival source target p.dest p.ty p.incoming = .ok x) (hexceptions : fr.exceptions = [])
    (hty : p.ty.IsInteger) (he : Holds env e) {value : ValueId × Datum}
    (hvalue : p.arrive source.id env = some value) :
    x.1 = .value value.1 ∧ x.2.eval sup e = some (represent value.2) := by
  obtain ⟨found, hfound, hvalue⟩ := Option.bind_eq_some_iff.mp hvalue
  obtain ⟨d, hd, hvalue⟩ := Option.bind_eq_some_iff.mp hvalue
  cases hvalue
  simp only [Frame.arrival, hfound, hexceptions, List.not_mem_nil, if_false] at h
  obtain ⟨y, hy, h⟩ := bind_eq_ok.mp h
  cases h
  exact ⟨rfl, Frame.operand_represents hy hty hd he⟩

/-- The assignments along an edge are those of the phis on entry. -/
theorem Frame.arrivals_represent {target : Block} {pairs : List (Var × Expr)}
    (h : fr.arrivals source target = .ok pairs) (hexceptions : fr.exceptions = [])
    (htyped : ∀ p ∈ target.phis, p.ty.IsInteger) (he : Holds env e)
    {values : List (ValueId × Datum)}
    (hvalues : target.phis.mapM (Phi.arrive source.id env) = some values) :
    evalPairs sup e pairs = some (values.map fun p => (.value p.1, represent p.2)) := by
  rw [Frame.arrivals_eq_mapM] at h
  -- every operand is read in the variables as they are before the first assignment, so `e` is fixed
  generalize target.phis = ps at h htyped hvalues
  induction ps generalizing pairs values with
  | nil =>
    cases h
    cases hvalues
    rfl
  | cons p ps ih =>
    rw [List.mapM_cons, bind_eq_ok] at h
    obtain ⟨x, hx, h⟩ := h
    obtain ⟨pairs, hpairs, h⟩ := bind_eq_ok.mp h
    cases h
    rw [List.mapM_cons] at hvalues
    obtain ⟨value, hvalue, hvalues⟩ := Option.bind_eq_some_iff.mp hvalues
    obtain ⟨values, hrest, hcons⟩ := Option.bind_eq_some_iff.mp hvalues
    cases hcons
    obtain ⟨hdest, heval⟩ : x.1 = .value value.1 ∧ x.2.eval sup e = some (represent value.2) :=
      Frame.arrival_represents hx hexceptions (htyped p List.mem_cons_self) he hvalue
    have hpairs' := ih hpairs (fun p hp => htyped p (List.mem_cons_of_mem _ hp)) hrest
    rw [evalPairs] at hpairs'
    simp [evalPairs, hdest, heval, hpairs']

/-- Both runs arrive at a block with the same values. -/
theorem Frame.Takes.holds {target : BlockId} {e' : Env σ} (h : fr.Takes sup source target e e')
    (hexceptions : fr.exceptions = [])
    (htyped : ∀ b ∈ fr.function.blocks, ∀ p ∈ b.phis, p.ty.IsInteger) (he : Holds env e)
    {s : IR.State} (hs : fr.function.enter source.id target env = some s) :
    ∃ env', s = .running target env' ∧ e'.block = target ∧ e'.world = e.world ∧
      Holds env' e' := by
  obtain ⟨block, pairs, values, hblock, hpairs, hvalues, rfl⟩ := h
  obtain ⟨block', hblock', hs⟩ := Option.bind_eq_some_iff.mp hs
  cases hblock.symm.trans hblock'
  obtain ⟨values', hvalues', hs⟩ := Option.bind_eq_some_iff.mp hs
  cases hs
  have heval : evalPairs sup e pairs = some (values'.map fun p => (.value p.1, represent p.2)) :=
    Frame.arrivals_represent hpairs hexceptions (htyped block (List.mem_of_getElem? hblock)) he
      hvalues'
  cases hvalues.symm.trans heval
  exact ⟨_, rfl, rfl, (Env.setAll_frame e _).1, he.setAll values'⟩

/-! ## Terminators -/

/-- What the code of a terminator does when a block is left. -/
def Leaves (fr : Frame) (sup : Support σ) (source : Block) (stmts : List Stmt) (e : Env σ) :
    IR.Transfer → Prop
  | .goto target => ∃ e', fr.Takes sup source target e e' ∧ exec sup stmts e = .again e'
  | .ret v => exec sup stmts e = .left e.world (.ok (v.elim .unit represent))
  | .trap t => exec sup stmts e = .left e.world (.error (.trap t))

theorem caseTarget_cons (d : Datum) (default : BlockId) (c : Int × BlockId)
    (cases : List (Int × BlockId)) :
    IR.caseTarget d default (c :: cases)
      = if BitVec.ofInt d.bits c.1 = d.value then c.2 else IR.caseTarget d default cases := by
  unfold IR.caseTarget
  rw [List.find?_cons]
  split <;> simp_all

/-- The code chooses the edge of the case that a word goes to. -/
theorem Frame.chooseCase_represents (sup : Support σ) (e : Env σ) {block : Block} {bits : Nat}
    (hbits : (IR.Ty.int bits).IsInteger) (x : BitVec bits) {default : BlockId}
    {defaultSteps : List Step} (hdefault : fr.edge block default = .ok defaultSteps)
    {cases : List (Int × BlockId)} {cases' : List (Expr × List Step)}
    (h : cases.mapM (fun c => do
      return (Expr.int c.1 (scalarOf bits), ← fr.edge block c.2)) = .ok cases') :
    ∃ steps, fr.edge block (IR.caseTarget ⟨bits, x⟩ default cases) = .ok steps ∧
      Target.chooseCase sup e (represent ⟨bits, x⟩) defaultSteps cases' = some steps := by
  induction cases generalizing cases' with
  | nil =>
    cases h
    exact ⟨defaultSteps, hdefault, rfl⟩
  | cons c cases ih =>
    rw [List.mapM_cons, bind_eq_ok] at h
    obtain ⟨case', hcase, h⟩ := h
    obtain ⟨cases', hcases, h⟩ := bind_eq_ok.mp h
    cases h
    obtain ⟨steps, hsteps, hcase⟩ := bind_eq_ok.mp hcase
    cases hcase
    have heval : (Expr.int c.1 (scalarOf bits)).eval sup e
        = some (represent ⟨bits, BitVec.ofInt bits c.1⟩) :=
      congrArg some (literal_represents hbits c.1)
    -- a case counts as the word it wraps to, in both runs
    rw [caseTarget_cons, Target.chooseCase, heval]
    by_cases hx : BitVec.ofInt bits c.1 = x
    · exact ⟨steps, by rw [if_pos hx]; exact hsteps, by simp [hx]⟩
    · obtain ⟨steps', hsteps', hchoose⟩ := ih hcases
      refine ⟨steps', by rw [if_neg hx]; exact hsteps', ?_⟩
      simp [represent_inj hbits, hx, hchoose]

/-- The code of a terminator leaves the block as the terminator does. -/
theorem Frame.leaves_terminator {block : Block} {stmts : List Stmt}
    (h : fr.terminator block = .ok stmts) (htyped : block.terminator.HasType fr.function)
    (henv : env.Typed fr.function) (he : Holds env e) {r : IR.Transfer}
    (hr : block.terminator.transfer env = some r) : Leaves fr sup block stmts e r := by
  unfold Frame.terminator at h
  cases hterm : block.terminator with
  | ret v =>
    rw [hterm] at h htyped hr
    cases v with
    | none =>
      cases h
      cases hr
      rfl
    | some v =>
      obtain ⟨ty, v⟩ := v
      obtain ⟨x, hx, h⟩ := bind_eq_ok.mp h
      cases h
      obtain ⟨d, hd, rfl⟩ := Option.map_eq_some_iff.mp hr
      show exec sup [.ret (some x)] e = _
      rw [exec, Frame.operand_represents hx htyped.1 hd he]
      rfl
  | br target =>
    rw [hterm] at h hr
    cases hr
    obtain ⟨steps, hsteps, h⟩ := bind_eq_ok.mp h
    cases h
    obtain ⟨e', htakes, hrun⟩ := Frame.runSteps_edge hsteps sup e
    refine ⟨e', htakes, ?_⟩
    rw [Target.exec_steps, hrun]
    rfl
  | condBr cond yes no =>
    rw [hterm] at h hr
    simp only [bind_eq_ok, pure_eq_ok] at h
    obtain ⟨cond', hcond, yes', hyes, no', hno, rfl⟩ := h
    obtain ⟨c, hc, hr⟩ := Option.bind_eq_some_iff.mp hr
    obtain ⟨holds, hholds, hr⟩ := Option.bind_eq_some_iff.mp hr
    cases hr
    have hchoice : cond'.eval sup e = some (.bool holds) := by
      rw [Frame.operand_represents hcond (.inl rfl) hc he, represent_isTrue hholds]
    have hedge : fr.edge block (if holds then yes else no) = .ok (if holds then yes' else no') := by
      cases holds with
      | true => exact hyes
      | false => exact hno
    obtain ⟨e', htakes, hrun⟩ := Frame.runSteps_edge hedge sup e
    refine ⟨e', htakes, ?_⟩
    rw [exec, hchoice]
    exact hrun _ _
  | switch ty v default cases =>
    rw [hterm] at h hr htyped
    simp only [bind_eq_ok, pure_eq_ok] at h
    obtain ⟨scalar, hscalar, v', hv, cases', hcases, default', hdefault, rfl⟩ := h
    obtain ⟨⟨bits, x⟩, hx, rfl⟩ := Option.map_eq_some_iff.mp hr
    obtain rfl : ty = .int bits := IR.Operand.bits_of_datum? henv htyped.2 hx
    obtain rfl := Frame.scalar_int hscalar
    obtain ⟨steps, hedge, hchoose⟩ :=
      Frame.chooseCase_represents sup e htyped.1 x hdefault hcases
    obtain ⟨e', htakes, hrun⟩ := Frame.runSteps_edge hedge sup e
    refine ⟨e', htakes, ?_⟩
    rw [exec, Frame.operand_represents hv htyped.1 hx he, Option.bind_eq_bind, Option.bind_some,
      hchoose]
    exact hrun _ _
  | unreachable =>
    rw [hterm] at h hr
    cases h
    cases hr
    rfl
  | invoke | resume =>
    rw [hterm] at htyped
    exact htyped.elim

/-! ## Blocks -/

/-- The two runs show the same. -/
inductive Agree (t : Target.Function) (world : σ) : IR.State → Target.State σ → Prop
  | running {b : BlockId} {env : IR.Env} {e : Env σ} :
    e.block = b → e.world = world → Holds env e → Agree t world (.running b env) (.run t e [])
  | returned (v : Option Datum) :
    Agree t world (.returned v) (.give world (.ok (v.elim .unit represent)) [])
  | trapped (r : Trap) : Agree t world (.trapped r) (.give world (.error (.trap r)) [])

namespace Lowered

variable {setting : Setting} {f : IR.Function} {t : Target.Function} {world : σ}

/-- One block in both runs. -/
theorem step (h : Lowered setting f t) (hf : f.Sound) (program : List Target.Function)
    {s s₁ : IR.State} {s' : Target.State σ} (hagree : Agree t world s s') (hlive : f.Live s)
    (hs : f.step setting.profile.overflow s = some s₁) :
    ∃ s₁', Machine.step sup program s' = some s₁' ∧ Agree t world s₁ s₁' := by
  have hframe : t.usesFrame = false := h.usesFrame.trans (usesFrame_eq_false hf.typed)
  cases hagree with
  | returned v =>
    cases hs
    exact ⟨_, rfl, .returned v⟩
  | trapped r =>
    cases hs
    exact ⟨_, rfl, .trapped r⟩
  | @running b env e hblock hworld hholds =>
    obtain ⟨passed, block, hb, hpath, hcovers⟩ := hlive
    have hmem : block ∈ f.blocks := List.mem_of_getElem? hb
    have hid : block.id = b := hf.blockIds _ _ hb
    obtain ⟨stmts, hstmts, hcode⟩ := h.code_eq hb
    obtain ⟨body, hbody, hstmts⟩ := bind_eq_ok.mp hstmts
    obtain ⟨last, hlast, hstmts⟩ := bind_eq_ok.mp hstmts
    cases hstmts
    have hstep : Machine.step sup program (.run t e [])
        = Machine.settle sup program t [] (exec sup (body.flatten ++ last) e) := by
      rw [Machine.step, hblock, hcode]
      rfl
    obtain ⟨r, hr, hafter⟩ := hf.exists_evalInstructions hmem (hid.symm ▸ hpath)
      setting.profile.overflow (List.nil_append _) hcovers
    obtain ⟨r', hperforms, hfollows⟩ : ∃ r', Performs sup body.flatten e r' ∧
        Follows e.world r r' :=
      Frame.performs_instructions hbody (hf.typed.2 block hmem).1 hcovers.typed hholds hr
    simp only [IR.Function.step, hb, hr, Option.bind_eq_bind, Option.bind_some] at hs
    cases hfollows with
    | trap r =>
      cases hs
      have hexec : exec sup (body.flatten ++ last) e = .left e.world (.error (.trap r)) :=
        hperforms last
      rw [hexec, Machine.settle, hframe, hworld] at hstep
      exact ⟨_, hstep, .trapped r⟩
    | @values env₁ e₁ hworld₁ hholds₁ =>
      obtain ⟨transfer, htransfer, hs⟩ := Option.bind_eq_some_iff.mp hs
      have hleaves : Leaves (frameOf setting f) sup block last e₁ transfer :=
        Frame.leaves_terminator hlast (hf.typed.2 block hmem).2 (hafter env₁ rfl).typed hholds₁
          htransfer
      have hexec : exec sup (body.flatten ++ last) e = exec sup last e₁ := hperforms last
      rw [hexec] at hstep
      cases transfer with
      | ret v =>
        cases hs
        rw [hleaves, Machine.settle, hframe, hworld₁, hworld] at hstep
        exact ⟨_, hstep, .returned v⟩
      | trap r =>
        cases hs
        rw [hleaves, Machine.settle, hframe, hworld₁, hworld] at hstep
        exact ⟨_, hstep, .trapped r⟩
      | goto target =>
        obtain ⟨e₂, htakes, hagain⟩ := hleaves
        -- a flat function could not go on, but it has no edges
        have hflat := h.flat_eq_false hmem (IR.Terminator.mem_successors_of_transfer htransfer)
        rw [hagain, Machine.settle, hflat] at hstep
        obtain ⟨env₂, rfl, hblock₂, hworld₂, hholds₂⟩ :=
          htakes.holds (exceptionValues_eq_nil hf.typed)
            (fun _ hb _ hp => (hf.typed.phi hb hp).1) hholds₁ (hid.symm ▸ hs)
        exact ⟨_, hstep, .running hblock₂ (hworld₂.trans (hworld₁.trans hworld)) hholds₂⟩

end Lowered

/-! ## The start -/

theorem le_of_mem_drop_zipIdx {α : Type} {xs : List α} {n i : Nat} {x : α}
    (h : (x, i) ∈ xs.zipIdx.drop n) : n ≤ i := by
  obtain ⟨j, hj⟩ := List.mem_iff_getElem?.mp h
  rw [List.getElem?_drop, List.getElem?_zipIdx, Option.map_eq_some_iff] at hj
  obtain ⟨_, -, heq⟩ := hj
  cases heq
  omega

theorem Frame.first_localOf? {fr : Frame} {id : ValueId} {ty : IR.Ty} {l : Target.Local}
    {q : Var × Target.Value} (h : fr.localOf? id ty = some l) (hfirst : l.first = some q) :
    q.1 = .value id := by
  unfold Frame.localOf? at h
  split at h
  next =>
    cases h
    cases hfirst
    rfl
  next =>
    split at h
    next =>
      obtain ⟨scalar, -, rfl⟩ := Option.map_eq_some_iff.mp h
      cases hfirst
      rfl
    next => cases h

/-- The variables that are declared in the code are not those of the parameters. -/
theorem Frame.first_ne_param {fr : Frame} {q : Var × Target.Value}
    (h : q ∈ fr.locals.filterMap Target.Local.first) {p : ValueId}
    (hp : p.index < fr.function.params.length) : q.1 ≠ .value p := by
  obtain ⟨l, hl, hfirst⟩ := List.mem_filterMap.mp h
  obtain hl | hl := List.mem_append.mp hl
  · obtain ⟨⟨info, i⟩, hi, hlocal⟩ := List.mem_filterMap.mp hl
    have hle := le_of_mem_drop_zipIdx hi
    rw [Frame.first_localOf? hlocal hfirst]
    rintro ⟨⟩
    exact absurd hp (Nat.not_lt.mpr hle)
  · split at hl
    next =>
      obtain rfl := List.mem_singleton.mp hl
      cases hfirst
      nofun
    next => cases hl

namespace Lowered

variable {setting : Setting} {f : IR.Function} {t : Target.Function} {world : σ}

/-- Both runs start with the arguments in the parameters. -/
theorem agree_start (h : Lowered setting f t) (hf : f.Sound) (args : List Datum) (world : σ) :
    Agree t world (f.start args) (.run t (t.start (args.map represent) world) []) := by
  have hargs : (t.params.map Prod.fst).zip (args.map represent)
      = (f.params.zip args).map fun p => (.value p.1, represent p.2) := by
    rw [h.params_eq, List.zip_map]
    rfl
  have hlt : ∀ p ∈ f.params, p.index < f.params.length := by
    intro p hp
    rw [hf.params] at hp
    obtain ⟨i, hi, rfl⟩ := List.mem_map.mp hp
    exact List.mem_range.mp hi
  have hfirst : Holds (IR.Env.setAll (fun _ => none) (f.params.zip args))
      (Env.setAll { world, store := fun _ => .unit, block := ⟨0⟩ }
        ((t.params.map Prod.fst).zip (args.map represent))) := by
    rw [hargs]
    exact Holds.setAll (fun _ _ h => by cases h) _
  obtain ⟨hworld, hblock, hstore⟩ := Env.setAll_frame
    (Env.setAll { world, store := fun _ => .unit, block := ⟨0⟩ }
      ((t.params.map Prod.fst).zip (args.map represent)))
    (t.locals.filterMap Target.Local.first)
  unfold Target.Function.start
  rw [Env.setAll_append]
  refine .running ?_ ?_ fun v d hv => ?_
  · rw [hblock, (Env.setAll_frame _ _).2.1]
  · rw [hworld, (Env.setAll_frame _ _).1]
  · -- a value that is there at the start is a parameter, and no declaration is of one
    have hmem : v ∈ f.params := by
      have hsome := IR.Env.isSome_setAll.mp (Option.isSome_of_eq_some hv)
      obtain hv | hv := hsome
      · obtain ⟨⟨p, a⟩, hp, rfl⟩ := List.mem_map.mp hv
        exact (List.of_mem_zip hp).1
      · cases hv
    rw [hstore, hfirst v d hv]
    intro hin
    obtain ⟨q, hq, heq⟩ := List.mem_map.mp hin
    rw [h.locals] at hq
    exact Frame.first_ne_param hq (hlt v hmem) heq

end Lowered

/-- Two runs that start together stay together. -/
theorem Lowered.run {setting : Setting} {f : IR.Function} {t : Target.Function}
    (h : Lowered setting f t) (hf : f.Sound) {args : List Datum}
    (hargs : List.Forall₂ (fun p a => f.typeOf p = .int a.bits) f.params args)
    (program : List Target.Function) (world : σ) (n : Nat) :
    ∃ s s', f.run setting.profile.overflow args n = some s ∧ f.Live s ∧
      Machine.run sup program n (.run t (t.start (args.map represent) world) []) = some s' ∧
      Agree t world s s' := by
  induction n with
  | zero => exact ⟨_, _, rfl, hf.live_start hargs, rfl, h.agree_start hf args world⟩
  | succ n ih =>
    obtain ⟨s, s', hs, hlive, hs', hagree⟩ := ih
    obtain ⟨s₁, hs₁, hlive₁⟩ := hf.step setting.profile.overflow hlive
    obtain ⟨s₁', hs₁', hagree₁⟩ : ∃ s₁', Machine.step sup program s' = some s₁' ∧
        Agree t world s₁ s₁' := h.step hf program hagree hlive hs₁
    refine ⟨s₁, s₁', ?_, hlive₁, ?_, hagree₁⟩
    · rw [IR.Function.run, hs]
      exact hs₁
    · rw [Machine.run, hs']
      exact hs₁'

/-- **Lockstep.** A function on integers that was read has code, and runs block by block as its code
does: after any number of blocks both are at the same block with the same values, or have returned
the same value, or have stopped at the same trap. -/
theorem runs_in_lockstep [Demangler] {bytes : List UInt8} {m : IR.Module}
    (hread : IR.Module.read bytes = .ok m) {f : IR.Function} (hf : f ∈ m.functions)
    (hbody : f.isDeclaration = false) (htyped : f.WellTyped) (hssa : f.SSA) (setting : Setting) :
    (Admits setting f → ∃ t, function setting f = .ok t) ∧
      ∀ t, function setting f = .ok t → ∀ args,
        List.Forall₂ (fun p a => f.typeOf p = .int a.bits) f.params args →
        ∀ (sup : Support σ) (program : List Target.Function) (world : σ) (n : Nat),
          ∃ s s', f.run setting.profile.overflow args n = some s ∧
            Machine.run sup program n (.run t (t.start (args.map represent) world) []) = some s' ∧
            Agree t world s s' := by
  have hwell := (IR.Module.wellFormed_of_read hread).functions f hf
  have hsound := hwell.sound hbody htyped hssa
  refine ⟨exists_function hsound, fun t ht args hargs sup program world n => ?_⟩
  obtain ⟨s, s', hs, -, hs', hagree⟩ :=
    (lowered_of_function ht).run hsound hargs program world n
  exact ⟨s, s', hs, hs', hagree⟩

/-- A loop that adds up to more than a signed byte can hold. -/
def sumText : List UInt8 :=
  ("define i8 @f(i8 %n) \x7b\n" ++
   "a:\n br label %b\n" ++
   "b:\n %i = phi i8 [ 0, %a ], [ %j, %b ]\n" ++
   " %j = add nsw i8 %i, 100\n" ++
   " %c = icmp ult i8 %j, %n\n" ++
   " br i1 %c, label %b, label %d\n" ++
   "d:\n ret i8 %j\n\x7d").toUTF8.toList

/-- The blocks that are passed before each block of the loop. -/
def sumTable : List (List BlockId) := [[], [⟨0⟩], [⟨0⟩, ⟨1⟩]]

def sumSetting (m : IR.Module) : Setting :=
  { module := m, profile := {}, globals := [], names := ["f"] }

/-- Whether a function of one byte overflows in its third block, when it is called with the largest
byte. -/
def overflowsThird (f : IR.Function) : Bool :=
  match f.run .trap [⟨8, 255⟩] 3 with
  | some (.trapped .integerOverflow) => true
  | _ => false

theorem run_of_overflowsThird {f : IR.Function} (h : overflowsThird f = true) :
    f.run .trap [⟨8, 255⟩] 3 = some (.trapped .integerOverflow) := by
  unfold overflowsThird at h
  split at h
  next hrun => exact hrun
  next => cases h

/-- The third step overflows in the function, and traps in its code. -/
theorem runs_in_lockstep_sum :
    ∃ m f t, IR.Module.read sumText = .ok m ∧ f ∈ m.functions ∧ f.WellTyped ∧ f.SSA ∧
      function (sumSetting m) f = .ok t ∧
      ∀ sup : Support Unit, Machine.run sup [t] 3 (.run t (t.start [.word true 8 255] ()) []) =
        some (.give () (.error (.trap .integerOverflow)) []) := by
  have htest : okAnd (IR.Module.read sumText) (fun m => m.functions.any fun f =>
      decide (f.isDeclaration = false ∧ f.WellTyped ∧ f.Lists sumTable ∧
        (f.Scoped fun d b => d ∈ sumTable[b.index]?.getD []) ∧ f.id = ⟨0⟩ ∧ f.varargs = false ∧
        f.ret.IsInteger ∧ (∀ ty ∈ f.types, ty.bits ≤ 64) ∧ f.params = [⟨0⟩] ∧
        f.typeOf ⟨0⟩ = .int 8 ∧ overflowsThird f = true)) = true := by decide +kernel
  obtain ⟨m, hm, htest⟩ := exists_of_okAnd htest
  obtain ⟨f, hf, htest⟩ := List.any_eq_true.mp htest
  obtain ⟨hbody, htyped, hlists, hscoped, hid, hvarargs, hret, hwidths, hparams, hbyte, hthird⟩ :=
    of_decide_eq_true htest
  have hwell := (IR.Module.wellFormed_of_read hm).functions f hf
  have hssa : f.SSA := IR.Function.ssa_of_table hwell.blockIds hlists hscoped
  obtain ⟨hcode, hrun⟩ := @runs_in_lockstep Unit _ _ _ hm _ hf hbody htyped hssa (sumSetting m)
  have hadmits : Admits (sumSetting m) f :=
    ⟨⟨"f", by rw [hid]; rfl⟩, hvarargs, .inr hret, hwidths⟩
  obtain ⟨t, ht⟩ := hcode hadmits
  refine ⟨m, f, t, hm, hf, htyped, hssa, ht, fun sup => ?_⟩
  have hargs : List.Forall₂ (fun p (a : Datum) => f.typeOf p = .int a.bits) f.params
      [⟨8, 255⟩] := by
    rw [hparams]
    exact .cons hbyte .nil
  obtain ⟨s, s', hs, hs', hagree⟩ := hrun t ht _ hargs sup [t] () 3
  cases hs.symm.trans (run_of_overflowsThird hthird)
  cases hagree
  exact hs'

end SafeIR.Lower
