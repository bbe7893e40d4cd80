import SafeIR.Proofs.Lower.Address
import SafeIR.Proofs.Lower.Graph
import SafeIR.Proofs.Reader.ResultType

/-!
# Closed code

Which variables the code of a function mentions, and which of them it declares. Code mentions the
variables of the values that the blocks use (`Frame.uses`, read off the function itself), and the
exception slot where there is a landing pad or a handler that an exception may come to. It declares
the variables of the values that have a representation, and the slot where there is a handler. So
the code is closed exactly where the first are among the second.
-/

namespace SafeIR.Lower

open IR (Block BlockId CallSite Operand Reference Typed ValueId)
open Layout (Scalar)
open Target (Action Expr Step Stmt Var anyMentions stepsMention stmtsMention)

variable {x : Var} {result : Option ValueId} {stmts : List Stmt} {v : ValueId} {b source : Block}
  {terms : List (Expr × Int)} {rs : List Reference} {e r l : Expr} {i : IR.Instruction}
  {dest : Option Var} {site : CallSite} {offset : Int} {o : Operand}

/-! ## Operations -/

/-- Arithmetic mentions its result and its operands. -/
theorem mentions_binary {dest : Var} {op : BinaryOp} {s : Scalar} {flags : WrapFlags}
    {overflow : Overflow} {steps : List Step}
    (h : binary dest op s l r flags overflow = .ok steps) :
    stepsMention x steps ↔ x = dest ∨ l.Mentions x ∨ r.Mentions x := by
  cases binaryCode_of_binary h with
  | pure he => simp [Step.Mentions, Action.operands, he]
  | checked => simp [Step.Mentions, Action.operands]
  | both =>
    simp only [Target.stepsMention_cons, Target.stepsMention_nil, Step.Mentions, Action.operands,
      Target.anyMentions_cons, Target.anyMentions_nil, or_false]
    tauto

theorem mentions_icmp {pred : IntPredicate} {s : Scalar} :
    (icmp pred s l r).Mentions x ↔ l.Mentions x ∨ r.Mentions x := by
  cases s with
  | int bits | ptr =>
    simp only [icmp]
    split <;> exact Iff.rfl
  | bool | f32 | f64 => exact Iff.rfl

/-- The comparison does not look at its operands. -/
def isConstant (pred : FloatPredicate) : Bool := pred = .never ∨ pred = .always

theorem mentions_fcmp {pred : FloatPredicate} :
    (fcmp pred l r).Mentions x ↔
      isConstant pred = false ∧ (l.Mentions x ∨ r.Mentions x) := by
  cases pred <;> simp [fcmp, Expr.Mentions, isConstant]

/-- A conversion mentions what it converts. -/
theorem mentions_cast {op : CastOp} {source target : Scalar} {a : Action}
    (h : cast? op source target e = some a) : anyMentions x a.operands ↔ e.Mentions x := by
  unfold cast? at h
  simp only at h
  split at h <;> (try split at h) <;> cases h <;>
    simp [Action.operands, Expr.Mentions, lowBit, viaUnsigned]

theorem mentions_castArgs {tys : List Target.Ty} {es : List Expr} :
    anyMentions x (Frame.castArgs tys es) ↔ anyMentions x es := by
  induction es generalizing tys with
  | nil => cases tys <;> simp [Frame.castArgs]
  | cons e es ih => cases tys <;> simp [Frame.castArgs, Expr.Mentions, ih]

/-- An address mentions its base and its terms. -/
theorem mentions_address {base : Expr} :
    (address base offset terms).Mentions x ↔
      base.Mentions x ∨ anyMentions x (terms.map Prod.fst) := by
  have hfold : ∀ {e : Expr}, (terms.foldl (fun e t =>
      Expr.wrapping .add e (.cast (.wrapping .mul (.paren (.cast t.1 (.signed 64)))
        (.number t.2 (.signed 64))) (.unsigned 64))) e).Mentions x ↔
      e.Mentions x ∨ anyMentions x (terms.map Prod.fst) := by
    induction terms with
    | nil => simp
    | cons t terms ih =>
      intro e
      rw [List.foldl_cons, ih]
      simp [Expr.Mentions, or_assoc]
  refine hfold.trans (or_congr_left ?_)
  split
  next => simp [Expr.Mentions]
  next => split <;> simp [Expr.Mentions]

/-! ## Operands -/

/-- The variable of a value that is referred to. -/
def Refers (rs : List Reference) (x : Var) : Prop := ∃ v, x = .value v ∧ Reference.value v ∈ rs

@[simp] theorem refers_nil : ¬ Refers [] x := by simp [Refers]

@[simp] theorem refers_append {rs' : List Reference} :
    Refers (rs ++ rs') x ↔ Refers rs x ∨ Refers rs' x := by
  simp [Refers, and_or_left, exists_or]

@[simp] theorem refers_flatMap {α : Type} {f : α → List Reference} {as : List α} :
    Refers (as.flatMap f) x ↔ ∃ a ∈ as, Refers (f a) x := by
  induction as with
  | nil => simp
  | cons a as ih => simp [ih]

theorem refers_value : Refers rs (.value v) ↔ .value v ∈ rs := by
  simp [Refers]

namespace Frame

variable {fr : Frame} {s : Site}

/-- A constant mentions nothing. -/
theorem constant_mentions {scalar : Scalar} {c : IR.Constant} (h : fr.constant s scalar c = .ok e) :
    ¬ e.Mentions x := by
  cases c with
  | int _ | float _ | bool _ | null | undef | zero =>
    cases h
    exact id
  | bytes _ | array _ | struct _ | global _ => cases h

/-- Only values refer to values. -/
theorem not_refers_of_ne (h : ∀ v, o ≠ .value v) : ¬ Refers o.references x := by
  rintro ⟨v, -, hv⟩
  cases o with
  | value w => exact h w rfl
  | const c => exact c.value_notMem_references v hv
  | global _ | function _ | metadata _ => simp [Operand.references] at hv

/-- The code of an operand mentions the value that the operand is. -/
theorem operand_mentions {ty : IR.Ty} (h : fr.operand s ty o = .ok e) :
    e.Mentions x ↔ Refers o.references x := by
  have hglobal : ∀ {g : IR.GlobalId}, fr.globalName g = .ok e → ¬ e.Mentions x := by
    intro g hg
    unfold globalName at hg
    split at hg
    next =>
      cases hg
      exact id
    next => cases hg
  unfold operand at h
  split at h
  next v =>
    cases h
    simp [Expr.Mentions, Refers, Operand.references]
  next => exact iff_of_false (hglobal h) (not_refers_of_ne nofun)
  next => exact iff_of_false (hglobal h) (not_refers_of_ne nofun)
  next =>
    obtain ⟨scalar, -, h⟩ := bind_eq_ok.mp h
    exact iff_of_false (constant_mentions h) (not_refers_of_ne nofun)
  next => split at h <;> cases h
  next => cases h

theorem operands_mention {args : List Typed} {es : List Expr} (h : fr.operands s args = .ok es) :
    anyMentions x es ↔ Refers (args.flatMap fun a => a.2.references) x := by
  rw [refers_flatMap]
  exact exists_mem_iff_of_forall₂ (mapM_eq_ok.mp h) fun a e he => operand_mentions he

/-- A constant index refers to no value. -/
theorem not_refers_of_asInt? {k : Int} (h : o.asInt? = some k) : ¬ Refers o.references x := by
  refine not_refers_of_ne ?_
  rintro v rfl
  cases h

/-- The terms of an address mention its indices. -/
theorem walks_mention {l final : Layout} {move : Int} {indices : List Typed}
    (h : Walks fr s l indices final move terms) :
    anyMentions x (terms.map Prod.fst) ↔ Refers (indices.flatMap fun a => a.2.references) x := by
  induction h with
  | nil => simp
  | cons hhead _ ih =>
    rw [List.map_append, Target.anyMentions_append, ih, List.flatMap_cons, refers_append]
    refine or_congr_left ?_
    cases hhead with
    | element hk | field hk _ _ => simp [not_refers_of_asInt? hk]
    | term _ hx => simp [operand_mentions hx]

theorem offsets_mention {source : IR.Ty} {indices : List Typed}
    (h : fr.offsets s source indices = .ok (offset, terms)) :
    anyMentions x (terms.map Prod.fst) ↔ Refers (indices.flatMap fun a => a.2.references) x := by
  obtain ⟨layout, hlayout, -⟩ := bind_eq_ok.mp h
  obtain ⟨final, move, hwalk, -⟩ := (offsets_eq_ok 1 hlayout).mp h
  exact walks_mention hwalk

theorem allocationSize_mentions {size : Nat} {count : Option Operand}
    (h : fr.allocationSize s size count = .ok e) :
    e.Mentions x ↔ Refers (count.toList.flatMap Operand.references) x := by
  cases count with
  | none =>
    cases h
    simp [Expr.Mentions]
  | some count =>
    unfold allocationSize at h
    simp only at h
    split at h
    next k hk =>
      cases h
      simp [Expr.Mentions, not_refers_of_asInt? hk]
    next v _ =>
      cases h
      simp [dynamicSize, Expr.Mentions, Refers, Operand.references]
    next => cases h

/-! ## Edges -/

/-- What the code along an edge refers to: the phis of the block it goes to, and what they take. -/
def edgeUses (fr : Frame) (source : Block) (target : BlockId) : List Reference :=
  fr.function.blocks[target.index]?.toList.flatMap fun block => block.phis.flatMap fun p =>
    .value p.dest ::
      (p.incoming.find? (·.2 = source.id)).toList.flatMap fun entry => entry.1.references

theorem carries_mentions {p : IR.Phi} {a : Var × Expr}
    (h : fr.Carries source p a) : x = a.1 ∨ a.2.Mentions x ↔
      Refers (.value p.dest ::
        (p.incoming.find? (·.2 = source.id)).toList.flatMap fun entry => entry.1.references) x := by
  obtain ⟨hdest, o, ho, hvalue⟩ := h
  have hoperand : a.2.Mentions x ↔ Refers o.references x := by
    split at hvalue
    next =>
      rw [hvalue]
      cases o with
      | value v => simp [Expr.Mentions, Refers, Operand.references]
      | const _ | global _ | function _ | metadata _ =>
        exact iff_of_false id (not_refers_of_ne nofun)
    next => exact operand_mentions hvalue
  rw [hdest, hoperand, ho]
  simp [Refers, and_or_left, exists_or]

/-- The code along an edge mentions what the edge refers to. -/
theorem edge_mentions {target : BlockId} {steps : List Step}
    (h : fr.edge source target = .ok steps) :
    stepsMention x steps ↔ Refers (fr.edgeUses source target) x := by
  obtain ⟨block, pairs, hblock, hpairs, rfl⟩ := edge_eq_ok.mp h
  rw [arrivals_eq_mapM, mapM_eq_ok] at hpairs
  have hcopies : stepsMention x (copies pairs) ↔ ∃ a ∈ pairs, x = a.1 ∨ a.2.Mentions x := by
    match pairs with
    | [] => simp [copies]
    | [(d, e)] => simp [copies, Step.Mentions, Action.operands]
    | p :: q :: pairs =>
      simp only [copies, Target.stepsMention_cons, Target.stepsMention_nil, or_false,
        Step.Mentions, anyMentions, List.mem_map, and_or_left, exists_or]
      aesop
  rw [Target.stepsMention_append, hcopies, edgeUses, hblock,
    exists_mem_iff_of_forall₂ hpairs fun p a ha => carries_mentions (carries_of_arrival ha)]
  simp [Step.Mentions]

/-! ## Instructions and terminators -/

/-- A call with a result is of a type that is represented. -/
theorem scalar_of_call {edges : Option Edges} (hdest : dest.isSome = true)
    (h : fr.call s site dest edges = .ok stmts) : ∃ scalar, fr.scalar s site.ret = .ok scalar := by
  unfold call at h
  split at h
  next => cases h
  next =>
    split at h
    next => cases h
    next =>
      rw [if_pos hdest] at h
      obtain ⟨scalar, hscalar, -⟩ := bind_eq_ok.mp h
      exact ⟨scalar, hscalar⟩

theorem into_mentions {a : Action} :
    (into dest a).Mentions x ↔ dest = some x ∨ anyMentions x a.operands := by
  cases dest with
  | none => simp [into, Step.Mentions]
  | some d => simp [into, Step.Mentions, eq_comm]

/-- Keeping a value mentions the variable it is kept in. -/
theorem keep_mentions (he : ¬ e.Mentions x) :
    stepsMention x (dest.map fun d => Step.assign d (.pure e)).toList ↔ dest = some x := by
  cases dest with
  | none => simp
  | some d => simp [Step.Mentions, Action.operands, he, eq_comm]

/-- The reference to a result, unless it is void. -/
def kept (fr : Frame) (result : Option ValueId) : List Reference :=
  (result.filter fun v => fr.function.typeOf v ≠ .void).toList.map .value

theorem refers_kept : Refers (fr.kept result) x ↔ fr.dest? result = some x := by
  unfold kept dest?
  cases result.filter fun v => fr.function.typeOf v ≠ .void with
  | none => simp
  | some v => simp [Refers, eq_comm]

theorem refers_kept_of {d : Var} (h : fr.dest? result = some d) :
    Refers (fr.kept result) x ↔ x = d := by
  rw [refers_kept, h, Option.some.injEq, eq_comm]

/-- The code that computes a result mentions the result and the operands. -/
theorem assign_mentions {d : Var} {a : Action} (hd : fr.dest? result = some d) :
    stmtsMention x [.step (.assign d a)] ↔
      Refers (fr.kept result) x ∨ anyMentions x a.operands := by
  simp [Stmt.Mentions, Step.Mentions, refers_kept_of hd]

/-- What the code of a call refers to: its result, and the arguments that are passed on. An
intrinsic without an effect has no code. -/
def callUses (fr : Frame) (result : Option ValueId) (site : CallSite) : List Reference :=
  match fr.catalogued? site with
  | none => fr.kept result ++ site.args.flatMap fun a => a.2.references
  | some entry =>
    if entry.strategy = .noOp then []
    else fr.kept result ++ (site.args.take entry.arity).flatMap fun a => a.2.references

/-- What the ways out of a call refer to: a call that cannot raise has one. -/
def exitsMention (fr : Frame) (s : Site) (site : CallSite) (x : Var) : Option Edges → Prop
  | none => False
  | some edges => Refers (fr.edgeUses s.block edges.normal) x ∨
      fr.cannotRaise s site = false ∧
        (x = .exception ∨ Refers (fr.edgeUses s.block edges.unwind) x)

/-- The code of a call mentions its result, its arguments, what its edges mention and, with a
handler, the exception slot. -/
theorem call_mentions {edges : Option Edges}
    (h : fr.call s site (fr.dest? result) edges = .ok stmts) :
    stmtsMention x stmts ↔
      Refers (fr.callUses result site) x ∨ fr.exitsMention s site x edges := by
  have hexit : ∀ {tail}, fr.cannotRaise s site = true → fr.exitOf s.block edges = .ok tail →
      (stmtsMention x tail ↔ fr.exitsMention s site x edges) := by
    intro tail hraise htail
    cases edges with
    | none =>
      cases htail
      simp [exitsMention]
    | some edges =>
      obtain ⟨steps, hsteps, htail⟩ := bind_eq_ok.mp htail
      cases htail
      simp [exitsMention, hraise, edge_mentions hsteps]
  cases callCode_of_call h with
  | @waits c hentry hoperands =>
    have hargs : anyMentions x (Action.call c).operands ↔
        Refers (site.args.flatMap fun a => a.2.references) x := by
      cases c <;> exact operands_mention hoperands
    simp [Stmt.Mentions, into_mentions, callUses, hentry, refers_kept, hargs, exitsMention]
  | @chooses c edges normal unwind hentry hoperands hnormal hunwind =>
    have hraise : fr.cannotRaise s site = false := by rw [cannotRaise, hentry]
    have hkeep : stepsMention x ((fr.dest? result).map fun d => Step.assign d
        (.pure .outcomeValue)).toList ↔ fr.dest? result = some x := keep_mentions id
    simp only [Target.stmtsMention_cons, Target.stmtsMention_nil, or_false, Stmt.Mentions,
      Target.stepsMention_append, Target.stepsMention_cons, Step.Mentions, hkeep,
      operands_mention hoperands, edge_mentions hnormal, edge_mentions hunwind, callUses, hentry,
      refers_append, refers_kept, exitsMention, hraise, true_and]
    tauto
  | @skips entry _ tail hentry hnone htail =>
    have hraise : fr.cannotRaise s site = true := by
      simp [cannotRaise, hentry, Intrinsic.Entry.mayThrow, hnone]
    simp [hexit hraise htail, callUses, hentry, hnone]
  | @acts entry path args args' _ _ _ tail hentry hthrow hsome hoperands hmem htail =>
    have hraise : fr.cannotRaise s site = true := by simp [cannotRaise, hentry, hthrow]
    have hargs : anyMentions x args' ↔ anyMentions x args := by
      rcases List.mem_cons.mp hmem with rfl | hmem
      · exact Iff.rfl
      · rw [List.mem_singleton.mp hmem]
        exact mentions_castArgs
    rw [Target.stmtsMention_cons, Stmt.Mentions, into_mentions, hexit hraise htail]
    simp only [Action.operands, hargs, operands_mention hoperands, callUses, hentry, hsome,
      if_false, refers_append, refers_kept]
  | @raises entry path args scalar _ _ hentry hthrow hoperands hscalar hraising =>
    have hsome : entry.strategy ≠ .noOp := by
      rintro hnone
      simp [Intrinsic.Entry.mayThrow, hnone] at hthrow
    have hkeep : ∀ c : Throwing, stepsMention x c.takeValue ↔ c.dest = some x :=
      fun c => keep_mentions id
    have hraise : fr.cannotRaise s site = fr.elides s entry site := by
      simp [cannotRaise, hentry, hthrow]
    -- the check and the exit come behind the call itself
    cases edges with
    | none =>
      cases hraising
      rw [Throwing.lower, canElide_eq_elides hscalar]
      cases fr.elides s entry site <;>
        simp [Stmt.Mentions, hkeep, operands_mention hoperands, callUses, hentry, hsome,
          refers_kept, exitsMention, or_comm]
    | some edges =>
      obtain ⟨normal, unwind, hnormal, hunwind, rfl⟩ := hraising
      rw [Throwing.lower, canElide_eq_elides hscalar, exitsMention, hraise]
      cases fr.elides s entry site <;>
        simp only [Target.stmtsMention_cons, Target.stmtsMention_nil, Stmt.Mentions,
          Target.stmtsMention_steps, Target.stepsMention_append, Target.stepsMention_cons,
          Step.Mentions, hkeep, operands_mention hoperands, edge_mentions hnormal,
          edge_mentions hunwind, callUses, hentry, hsome, refers_append, refers_kept, if_true,
          if_false, Bool.false_eq_true, or_false] <;> tauto

/-- What the code of an operation refers to: its result and its operands. A phi has no code of its
own. -/
def opUses (fr : Frame) (result : Option ValueId) : IR.Op → List Reference
  | .fcmp pred _ l r =>
    fr.kept result ++ if isConstant pred then [] else l.references ++ r.references
  | .store _ v address => v.references ++ address.references
  | .phi .. => []
  | .call site => fr.callUses result site
  | op => fr.kept result ++ op.references

/-- The code of an instruction mentions what the instruction refers to; a landing pad also mentions
the exception slot. -/
theorem instruction_mentions (h : fr.instruction b i = .ok stmts) : stmtsMention x stmts ↔
      Refers (fr.opUses i.result i.op) x ∨
      (x = .exception ∧ ∃ ty cleanup clauses, i.op = .landingpad ty cleanup clauses) := by
  obtain ⟨result, op⟩ := i
  cases code_of_instruction h with
  | binary _ hl hr hd hsteps =>
    simp [mentions_binary hsteps, operand_mentions hl, operand_mentions hr, opUses,
      IR.Op.references, refers_kept_of hd]
  | icmp _ hl hr hd =>
    simp [assign_mentions hd, Action.operands, mentions_icmp, operand_mentions hl,
      operand_mentions hr, opUses, IR.Op.references]
  | @fcmp pred _ _ _ _ _ _ _ _ hl hr hd =>
    cases hpred : isConstant pred <;>
      simp [assign_mentions hd, Action.operands, mentions_fcmp, operand_mentions hl,
        operand_mentions hr, opUses, hpred]
  | fneg _ hv hd =>
    simp [assign_mentions hd, Action.operands, Expr.Mentions, operand_mentions hv, opUses,
      IR.Op.references]
  | select _ hcond hyes hno hd =>
    simp [assign_mentions hd, Action.operands, Expr.Mentions, operand_mentions hcond,
      operand_mentions hyes, operand_mentions hno, opUses, IR.Op.references]
  | cast _ _ hv hd ha =>
    simp [assign_mentions hd, mentions_cast ha, operand_mentions hv, opUses, IR.Op.references]
  | alloca hsize hd =>
    simp [assign_mentions hd, Action.operands, allocationSize_mentions hsize, opUses,
      IR.Op.references]
  | load _ haddress hd =>
    simp [assign_mentions hd, Action.operands, operand_mentions haddress, opUses,
      IR.Op.references]
  | store _ hv haddress =>
    simp [Stmt.Mentions, Step.Mentions, Action.operands, operand_mentions hv,
      operand_mentions haddress, opUses, or_comm]
  | gep hbase hoffsets hd =>
    simp [assign_mentions hd, Action.operands, mentions_address, operand_mentions hbase,
      offsets_mention hoffsets, opUses, IR.Op.references]
  | phi => simp [opUses]
  | call hcall => simp [call_mentions hcall, opUses, exitsMention]
  | landingpad hd =>
    simp [assign_mentions hd, Action.operands, Expr.Mentions, opUses, IR.Op.references]

/-- What the code of a terminator refers to before it goes anywhere. -/
def exitUses (fr : Frame) : IR.Terminator → List Reference
  | .ret v => v.toList.flatMap fun a => a.2.references
  | .condBr cond _ _ => cond.references
  | .switch _ v _ _ | .resume v => v.references
  | .invoke result site _ _ => fr.callUses result site
  | .br _ | .unreachable => []

/-- The block ends with a handler to which an exception may come. -/
def Catches (fr : Frame) (b : Block) : Prop :=
  ∃ result site normal unwind, b.terminator = .invoke result site normal unwind ∧
    fr.cannotRaise ⟨b, b.terminator.opcode⟩ site = false

theorem Catches.hasInvoke (h : fr.Catches b) (hb : b ∈ fr.function.blocks) :
    hasInvoke fr.function = true := by
  obtain ⟨result, site, normal, unwind, hterm, -⟩ := h
  unfold Frame.hasInvoke
  exact List.any_eq_true.mpr ⟨b, hb, by rw [hterm]⟩

/-- The code of a terminator mentions what the terminator refers to, and what the edges to its
targets do; a handler also mentions the exception slot. -/
theorem terminator_mentions (h : fr.terminator b = .ok stmts) :
    stmtsMention x stmts ↔ Refers (fr.exitUses b.terminator) x ∨
      Refers ((fr.targets b).flatMap (fr.edgeUses b)) x ∨ (x = .exception ∧ fr.Catches b) := by
  have hcode := exitCode_of_terminator h
  unfold targets Catches
  cases hterm : b.terminator with
  | ret v =>
    rw [hterm] at hcode
    cases hcode with
    | retNone => simp [Stmt.Mentions, exitUses, IR.Terminator.successors]
    | ret hv =>
      simp [Stmt.Mentions, operand_mentions hv, exitUses,
        IR.Terminator.successors]
  | br target =>
    rw [hterm] at hcode
    cases hcode with
    | br hsteps =>
      simp [Stmt.Mentions, edge_mentions hsteps, exitUses,
        IR.Terminator.successors]
  | condBr cond yes no =>
    rw [hterm] at hcode
    cases hcode with
    | condBr hcond hyes hno =>
      simp [Stmt.Mentions, operand_mentions hcond, edge_mentions hyes, edge_mentions hno, exitUses,
        IR.Terminator.successors]
  | switch ty v default cases =>
    rw [hterm] at hcode
    cases hcode with
    | @switch _ _ _ _ _ _ cases' _ _ hv hcases hdefault =>
      -- the values of the cases are numbers
      have hnumbers : ¬ anyMentions x (cases'.map Prod.fst) := by
        rintro ⟨e, he, hx⟩
        obtain ⟨c', hc', rfl⟩ := List.mem_map.mp he
        obtain ⟨c, -, hvalue, -⟩ := exists_of_mem_forall₂ hcases hc'
        rw [hvalue] at hx
        exact hx
      have hedges : (∃ c ∈ cases', stepsMention x c.2) ↔
          ∃ c ∈ cases, Refers (fr.edgeUses b c.2) x :=
        exists_mem_iff_of_forall₂ hcases fun c c' hc => edge_mentions hc.2
      simp only [IR.Terminator.successors, List.flatMap_cons, List.flatMap_map, refers_append,
        refers_flatMap, ← hedges, ← edge_mentions hdefault]
      simp [Stmt.Mentions, operand_mentions hv, hnumbers, exitUses, or_comm]
  | invoke result site normal unwind =>
    rw [hterm] at hcode
    cases hcode with
    | invoke hcall =>
      cases hraise : fr.cannotRaise ⟨b, (IR.Terminator.invoke result site normal unwind).opcode⟩
          site <;>
        simp [Stmt.Mentions, call_mentions hcall, exitsMention, exitUses, hraise]
      tauto
  | resume o =>
    rw [hterm] at hcode
    cases hcode with
    | resume =>
      simp [Stmt.Mentions, Expr.Mentions, exitUses, IR.Terminator.successors, Refers,
        Operand.references]
    | resumeNone ho =>
      simp [Stmt.Mentions, Expr.Mentions, exitUses, IR.Terminator.successors, not_refers_of_ne ho]
  | unreachable =>
    rw [hterm] at hcode
    cases hcode
    simp [Stmt.Mentions, exitUses, IR.Terminator.successors]

/-! ## Blocks -/

/-- What the code of a block refers to: what its instructions and its terminator do, and the edges
to its targets. -/
def uses (fr : Frame) (b : Block) : List Reference :=
  (b.instructions.flatMap fun i => fr.opUses i.result i.op) ++
    (fr.exitUses b.terminator ++ (fr.targets b).flatMap (fr.edgeUses b))

/-- The code of a block mentions what the block refers to; a landing pad and a handler also mention
the exception slot. -/
theorem block_mentions (h : fr.block b = .ok stmts) :
    stmtsMention x stmts ↔ Refers (fr.uses b) x ∨ (x = .exception ∧
      ((∃ i ∈ b.instructions, ∃ ty cleanup clauses, i.op = .landingpad ty cleanup clauses) ∨
        fr.Catches b)) := by
  obtain ⟨body, exit, hbody, hexit, rfl⟩ := block_eq_ok h
  have hflatten : stmtsMention x body.flatten ↔ ∃ code ∈ body, stmtsMention x code := by
    rw [← List.flatMap_id]
    exact exists_mem_flatMap
  rw [Target.stmtsMention_append, terminator_mentions hexit, hflatten,
    exists_mem_iff_of_forall₂ hbody fun i code hcode => instruction_mentions hcode]
  simp only [and_or_left, exists_or, and_left_comm (b := x = _), exists_and_left, uses,
    refers_append, refers_flatMap, or_assoc]
  exact or_congr_right (or_left_comm.trans (or_congr_right or_left_comm))

theorem refers_of_kept (h : Refers (fr.kept result) x) : Refers (result.toList.map .value) x := by
  obtain ⟨v, rfl, rfl⟩ := dest?_eq (refers_kept.mp h)
  exact ⟨v, rfl, by simp⟩

theorem refers_of_callUses (h : Refers (fr.callUses result site) x) :
    Refers (result.toList.map .value) x ∨ Refers site.references x := by
  have hargs : ∀ {args : List Typed}, args ⊆ site.args →
      Refers (args.flatMap fun a => a.2.references) x → Refers site.references x := by
    intro args hsub hx
    obtain ⟨a, ha, hx⟩ := refers_flatMap.mp hx
    exact refers_append.mpr (.inr (refers_flatMap.mpr ⟨a, hsub ha, hx⟩))
  unfold callUses at h
  split at h
  next => exact (refers_append.mp h).imp refers_of_kept (hargs (List.Subset.refl _))
  next =>
    split at h
    next => exact absurd h refers_nil
    next => exact (refers_append.mp h).imp refers_of_kept (hargs (List.take_subset _ _))

theorem refers_of_opUses (h : Refers (fr.opUses i.result i.op) x) : Refers i.references x := by
  obtain ⟨result, op⟩ := i
  refine refers_append.mpr ?_
  cases op with
  | fcmp pred ty l r =>
    refine (refers_append.mp h).imp refers_of_kept fun h => ?_
    split at h
    next => exact absurd h refers_nil
    next => exact h
  | store ty v address => exact .inr h
  | phi ty incoming => exact absurd h refers_nil
  | call site => exact refers_of_callUses h
  | binary _ _ _ _ _ | icmp _ _ _ _ | fneg _ _ | select _ _ _ _ | cast _ _ _ _ | alloca _ _ _
  | load _ _ | gep _ _ _ | landingpad _ _ _ =>
    exact (refers_append.mp h).imp_left refers_of_kept

theorem refers_of_exitUses {t : IR.Terminator} (h : Refers (fr.exitUses t) x) :
    Refers t.references x := by
  cases t with
  | ret _ | resume _ => exact h
  | condBr _ _ _ | switch _ _ _ _ => exact refers_append.mpr (.inl h)
  | invoke result site normal unwind =>
    exact refers_append.mpr (.inl (refers_append.mpr (refers_of_callUses h)))
  | br _ | unreachable => exact absurd h refers_nil

/-- What a block of a function refers to the function does. -/
theorem refers_of_block (hb : b ∈ fr.function.blocks) (h : Refers b.references x) :
    Refers fr.function.references x :=
  refers_append.mpr (.inr (refers_flatMap.mpr ⟨b, hb, h⟩))

theorem refers_of_edgeUses {target : BlockId} (h : Refers (fr.edgeUses source target) x) :
    Refers fr.function.references x := by
  obtain ⟨block, hblock, h⟩ := refers_flatMap.mp h
  obtain ⟨p, hp, h⟩ := refers_flatMap.mp h
  obtain ⟨i, hi, hi'⟩ := List.mem_filterMap.mp hp
  obtain ⟨hop, hresult⟩ := IR.Instruction.eq_of_phi? hi'
  refine refers_of_block (List.mem_of_getElem? (Option.mem_toList.mp hblock))
    (refers_append.mpr (.inl (refers_flatMap.mpr ⟨i, hi, ?_⟩)))
  rw [IR.Instruction.references, hop, hresult]
  -- the entry for the source is one of the phi's
  rcases refers_append.mp (List.singleton_append ▸ h) with h | h
  · exact refers_append.mpr (.inl h)
  · obtain ⟨entry, hentry, h⟩ := refers_flatMap.mp h
    have hmem := List.mem_of_find?_eq_some (Option.mem_toList.mp hentry)
    exact refers_append.mpr (.inr (refers_flatMap.mpr ⟨entry, hmem, refers_append.mpr (.inl h)⟩))

theorem refers_of_uses (hb : b ∈ fr.function.blocks) (h : Refers (fr.uses b) x) :
    Refers fr.function.references x := by
  rcases refers_append.mp h with h | h
  · obtain ⟨i, hi, h⟩ := refers_flatMap.mp h
    exact refers_of_block hb
      (refers_append.mpr (.inl (refers_flatMap.mpr ⟨i, hi, refers_of_opUses h⟩)))
  · rcases refers_append.mp h with h | h
    · exact refers_of_block hb (refers_append.mpr (.inr (refers_of_exitUses h)))
    · obtain ⟨target, -, h⟩ := refers_flatMap.mp h
      exact refers_of_edgeUses h

/-! ## Declarations -/

/-- A value is kept in a variable: as an exception, or as the scalar that its type is laid out
as. -/
def Represented (fr : Frame) (v : ValueId) : Prop :=
  v ∈ fr.exceptions ∨
    ∃ l scalar, fr.layout (fr.function.typeOf v) = .ok l ∧ l.scalar? = some scalar

theorem isSome_localOf? :
    (fr.localOf? v (fr.function.typeOf v)).isSome = true ↔ fr.Represented v := by
  unfold localOf? Represented
  by_cases hv : v ∈ fr.exceptions
  · simp [hv]
  · rw [if_neg hv]
    cases hl : fr.layout (fr.function.typeOf v) with
    | error e => simp [hv]
    | ok l =>
      simp only [Option.isSome_map, Option.isSome_iff_exists, hv, false_or, Except.ok.injEq]
      constructor
      · rintro ⟨scalar, hscalar⟩
        exact ⟨l, scalar, rfl, hscalar⟩
      · rintro ⟨_, scalar, rfl, hscalar⟩
        exact ⟨scalar, hscalar⟩

theorem represented_of_scalar {scalar : Scalar}
    (h : fr.scalar s (fr.function.typeOf v) = .ok scalar) : fr.Represented v := by
  obtain ⟨l, hl, h⟩ := bind_eq_ok.mp h
  split at h
  next scalar' hscalar => exact .inr ⟨l, scalar', hl, hscalar⟩
  next => cases h

theorem var_of_localOf? {ty : IR.Ty} {l : Target.Local} (h : fr.localOf? v ty = some l) :
    l.var = .value v := by
  unfold localOf? at h
  split at h
  next =>
    cases h
    rfl
  next =>
    split at h
    next l' _ =>
      obtain ⟨scalar, -, rfl⟩ := Option.map_eq_some_iff.mp h
      rfl
    next => cases h

/-- The variables that are declared, in order: those of represented values, then the slot. -/
theorem map_var_locals : fr.locals.map Target.Local.var =
    ((fr.function.values.zipIdx.drop fr.function.params.length).filterMap fun p =>
      if (fr.localOf? ⟨p.2⟩ p.1.ty).isSome then some (Var.value ⟨p.2⟩) else none) ++
    if hasInvoke fr.function then [Var.exception] else [] := by
  rw [locals, List.map_append, List.map_filterMap]
  congr 1
  · refine List.filterMap_congr fun p _ => ?_
    cases hlocal : fr.localOf? ⟨p.2⟩ p.1.ty with
    | none => simp [hlocal]
    | some l => simp [hlocal, var_of_localOf? hlocal]
  · split <;> rfl

/-- Declared are the represented values behind the parameters. -/
theorem value_mem_locals : Var.value v ∈ fr.locals.map Target.Local.var ↔
    fr.function.params.length ≤ v.index ∧ v.index < fr.function.values.length ∧
      fr.Represented v := by
  -- The values behind the parameters, with their places among all values.
  have hdrop : ∀ {info : IR.ValueInfo} {i : Nat},
      (info, i) ∈ fr.function.values.zipIdx.drop fr.function.params.length ↔
        fr.function.params.length ≤ i ∧ fr.function.values[i]? = some info := by
    intro info i
    rw [List.mem_iff_getElem?]
    simp only [List.getElem?_drop, List.getElem?_zipIdx, Option.map_eq_some_iff, Prod.mk.injEq]
    constructor
    · rintro ⟨j, info', hinfo, rfl, rfl⟩
      exact ⟨by omega, by simpa using hinfo⟩
    · rintro ⟨hle, hinfo⟩
      refine ⟨i - fr.function.params.length, info, ?_, rfl, by omega⟩
      rwa [Nat.add_sub_cancel' hle]
  have htype : ∀ {info : IR.ValueInfo}, fr.function.values[v.index]? = some info →
      info.ty = fr.function.typeOf v := by
    intro info hinfo
    rw [IR.Function.typeOf, hinfo]
    rfl
  rw [map_var_locals, List.mem_append, ← isSome_localOf?]
  constructor
  · rintro (h | h)
    · obtain ⟨⟨info, i⟩, hmem, h⟩ := List.mem_filterMap.mp h
      obtain ⟨hle, hinfo⟩ := hdrop.mp hmem
      split at h
      next hlocal =>
        cases h
        exact ⟨hle, (List.getElem?_eq_some_iff.mp hinfo).1, htype hinfo ▸ hlocal⟩
      next => cases h
    · split at h
      next => simp at h
      next => cases h
  · rintro ⟨hle, hlt, hlocal⟩
    refine .inl (List.mem_filterMap.mpr ⟨(fr.function.values[v.index], v.index), ?_, ?_⟩)
    · exact hdrop.mpr ⟨hle, List.getElem?_eq_getElem hlt⟩
    · rw [htype (List.getElem?_eq_getElem hlt), if_pos hlocal]

theorem exception_mem_locals :
    Var.exception ∈ fr.locals.map Target.Local.var ↔ hasInvoke fr.function = true := by
  rw [map_var_locals, List.mem_append]
  constructor
  · rintro (h | h)
    · obtain ⟨p, -, hp⟩ := List.mem_filterMap.mp h
      split at hp <;> cases hp
    · split at h
      next hinvoke => exact hinvoke
      next => cases h
  · intro hinvoke
    exact .inr (by simp [hinvoke])

/-- No variable is declared twice. -/
theorem nodup_locals : (fr.locals.map Target.Local.var).Nodup := by
  have hindices : List.Pairwise (fun p q : IR.ValueInfo × Nat => p.2 < q.2)
      (fr.function.values.zipIdx.drop fr.function.params.length) := by
    refine List.Pairwise.drop ?_
    rw [← List.pairwise_map, List.zipIdx_map_snd]
    exact List.pairwise_lt_range'
  rw [map_var_locals, List.nodup_append]
  refine ⟨?_, ?_, ?_⟩
  · refine hindices.filterMap _ fun p q hpq x hx y hy => ?_
    split at hx <;> cases hx
    split at hy <;> cases hy
    intro heq
    have heq : p.2 = q.2 := by simpa using heq
    omega
  · split <;> simp
  · intro x hx y hy hxy
    obtain ⟨p, -, hp⟩ := List.mem_filterMap.mp hx
    split at hp <;> cases hp
    split at hy
    next =>
      rw [List.mem_singleton.mp hy] at hxy
      cases hxy
    next => cases hy

/-! ## Results -/

/-- What an operation makes is represented, unless it is void or the operation is a phi. -/
theorem represented_of_code {op : IR.Op} (h : fr.Code s result op stmts) (hresult : result = some v)
    (htype : fr.function.typeOf v = op.resultTy) (hvoid : fr.function.typeOf v ≠ .void)
    (hphi : ∀ ty incoming, op ≠ .phi ty incoming)
    (hpad : ∀ ty cleanup clauses, op = .landingpad ty cleanup clauses → v ∈ fr.exceptions) :
    fr.Represented v := by
  have hscalar : ∀ {ty scalar}, fr.scalar s ty = .ok scalar → fr.function.typeOf v = ty →
      fr.Represented v := fun hscalar hty => represented_of_scalar (hty ▸ hscalar)
  cases h with
  | binary hty _ _ _ _ | fneg hty _ _ | select hty _ _ _ _ | load hty _ _ | store hty _ _ =>
    exact hscalar hty htype
  | cast _ hty _ _ _ => exact hscalar hty htype
  | icmp _ _ _ _ | fcmp _ _ _ _ =>
    exact .inr ⟨.bool, .bool, by rw [htype]; rfl, rfl⟩
  | alloca _ _ | gep _ _ _ => exact .inr ⟨.ptr, .ptr, by rw [htype]; rfl, rfl⟩
  | phi => exact absurd rfl (hphi _ _)
  | @call site _ hcall =>
    have hdest : (fr.dest? result).isSome = true := by
      simp [dest?, hresult, hvoid]
    obtain ⟨scalar, hty⟩ := scalar_of_call hdest hcall
    exact hscalar hty htype
  | landingpad _ => exact .inl (hpad _ _ _ rfl)

end Frame

/-! ## Functions -/

/-- The function has a landing pad. -/
def HasPad (f : IR.Function) : Prop := padTypes f ≠ []

instance (f : IR.Function) : Decidable (HasPad f) := inferInstanceAs (Decidable (padTypes f ≠ []))

theorem hasPad_iff {f : IR.Function} : HasPad f ↔
    ∃ i ∈ f.instructions, ∃ ty cleanup clauses, i.op = .landingpad ty cleanup clauses := by
  constructor
  · intro h
    obtain ⟨ty, hty⟩ := List.exists_mem_of_ne_nil _ h
    obtain ⟨i, hi, hop⟩ := List.mem_filterMap.mp hty
    split at hop
    next ty' cleanup clauses heq => exact ⟨i, hi, ty', cleanup, clauses, heq⟩
    next => cases hop
  · rintro ⟨i, hi, ty, cleanup, clauses, hop⟩
    have hmem : ty ∈ padTypes f := List.mem_filterMap.mpr ⟨i, hi, by rw [hop]⟩
    exact List.ne_nil_of_mem hmem

namespace Lowered

variable {setting : Setting} {f : IR.Function} {t : Target.Function}

/-- The code of a function mentions what its blocks refer to, and the exception slot where there is
a landing pad or a handler. -/
theorem mentions_iff (h : Lowered setting f t) : t.Mentions x ↔
    (∃ b ∈ f.blocks, Refers ((frameOf setting f).uses b) x) ∨
    (x = .exception ∧ (HasPad f ∨ ∃ b ∈ f.blocks, (frameOf setting f).Catches b)) := by
  have hpad : HasPad f ↔ ∃ b ∈ f.blocks, ∃ i ∈ b.instructions, ∃ ty cleanup clauses,
      i.op = .landingpad ty cleanup clauses := by
    rw [hasPad_iff]
    exact exists_mem_flatMap
  rw [Target.Function.Mentions, hpad,
    exists_mem_iff_of_forall₂ (mapM_eq_ok.mp h.blocks) fun b stmts hb => Frame.block_mentions hb]
  simp only [and_or_left, exists_or, and_left_comm (b := x = _), exists_and_left]

/-- Every instruction has its code somewhere in the function. -/
theorem exists_code (h : Lowered setting f t) (hi : i ∈ f.instructions) :
    ∃ s code, (frameOf setting f).Code s i.result i.op code := by
  obtain ⟨b, hb, hi⟩ := List.mem_flatMap.mp hi
  obtain ⟨stmts, -, hblock⟩ := exists_of_mem_forall₂ (mapM_eq_ok.mp h.blocks).flip hb
  obtain ⟨body, exit, hbody, -, -⟩ := Frame.block_eq_ok hblock
  obtain ⟨code, -, hinstruction⟩ := exists_of_mem_forall₂ hbody.flip hi
  exact ⟨_, code, Frame.code_of_instruction hinstruction⟩

theorem mem_params_iff (h : Lowered setting f t) :
    x ∈ t.params.map Prod.fst ↔ ∃ v ∈ f.params, Var.value v = x := by
  rw [h.params_eq, List.mem_map]

/-- No parameter is declared again: parameters are the first values, and locals are others. -/
theorem param_not_local (h : Lowered setting f t) {m : IR.Module} (hf : f.WellFormed m)
    (hx : x ∈ t.params.map Prod.fst) : x ∉ t.locals.map Target.Local.var := by
  obtain ⟨v, hv, rfl⟩ := h.mem_params_iff.mp hx
  rw [h.locals, Frame.value_mem_locals]
  rintro ⟨hle, -⟩
  exact Nat.not_lt.mpr hle (hf.mem_params.mp hv)

/-- Code is closed exactly if landing pads come with a handler and every value that the blocks refer
to is represented. -/
theorem closed_iff (h : Lowered setting f t) {m : IR.Module} (hf : f.WellFormed m) :
    t.Closed ↔ (HasPad f → Frame.hasInvoke f = true) ∧
      ∀ b ∈ f.blocks, ∀ v, .value v ∈ (frameOf setting f).uses b →
        v ∈ f.params ∨ (frameOf setting f).Represented v := by
  have hcount : ∀ {y}, (t.locals.map Target.Local.var).count y = 1 ↔
      y ∈ (frameOf setting f).locals.map Target.Local.var := by
    intro y
    rw [h.locals]
    constructor
    · exact fun hy => List.count_pos_iff.mp (by omega)
    · exact fun hy => List.count_eq_one_of_mem Frame.nodup_locals hy
  constructor
  · intro hclosed
    constructor
    · intro hpad
      rcases hclosed.declared _ (h.mentions_iff.mpr (.inr ⟨rfl, .inl hpad⟩)) with hparam | hlocal
      · obtain ⟨v, -, hv⟩ := h.mem_params_iff.mp hparam
        cases hv
      · exact Frame.exception_mem_locals.mp (hcount.mp hlocal)
    · intro b hb v hv
      have hmentions := h.mentions_iff.mpr (.inl ⟨b, hb, refers_value.mpr hv⟩)
      rcases hclosed.declared _ hmentions with hparam | hlocal
      · obtain ⟨w, hw, heq⟩ := h.mem_params_iff.mp hparam
        cases heq
        exact .inl hw
      · exact .inr (Frame.value_mem_locals.mp (hcount.mp hlocal)).2.2
  · rintro ⟨hpads, hvalues⟩
    refine ⟨fun y hy => ?_, fun y hy => h.param_not_local hf hy⟩
    rcases h.mentions_iff.mp hy with ⟨b, hb, hy⟩ | ⟨rfl, hslot⟩
    · -- a value that is referred to is one of the function's
      obtain ⟨v, rfl, hv⟩ := Frame.refers_of_uses hb hy
      have hlt : v.index < f.values.length := hf.references _ hv
      by_cases hparam : v ∈ f.params
      · exact .inl (h.mem_params_iff.mpr ⟨v, hparam, rfl⟩)
      · have hle := Nat.not_lt.mp (mt hf.mem_params.mpr hparam)
        have hrepresented := (hvalues b hb v (refers_value.mp hy)).resolve_left hparam
        exact .inr (hcount.mpr (Frame.value_mem_locals.mpr ⟨hle, hlt, hrepresented⟩))
    · refine .inr (hcount.mpr (Frame.exception_mem_locals.mpr ?_))
      rcases hslot with hpad | ⟨b, hb, hcatches⟩
      · exact hpads hpad
      · exact hcatches.hasInvoke hb

end Lowered

/-- **Closed code.** No variable is declared twice and no parameter is declared again. The values
that are mentioned are those that the blocks use: the operands that are read, the results that are
kept, and the phis of a block's targets with what they take. All that is mentioned is declared
exactly if a function with landing pads has a handler, and every value that a block uses is a
parameter or represented, that is, of a scalar type or an exception. What an instruction other than
a phi makes, or a call with a handler, is always represented, unless its type is void. -/
theorem code_closed_iff [Demangler] {bytes : List UInt8} {m : IR.Module}
    (hm : IR.Module.read bytes = .ok m) {f : IR.Function} (hf : f ∈ m.functions)
    {setting : Setting} {t : Target.Function} (h : function setting f = .ok t) :
    (t.locals.map Target.Local.var).Nodup ∧
    (∀ x ∈ t.params.map Prod.fst, x ∉ t.locals.map Target.Local.var) ∧
    (∀ v, t.Mentions (.value v) ↔ ∃ b ∈ f.blocks, .value v ∈ (frameOf setting f).uses b) ∧
    (t.Closed ↔ (HasPad f → Frame.hasInvoke f = true) ∧
      ∀ b ∈ f.blocks, ∀ v, .value v ∈ (frameOf setting f).uses b →
        v ∈ f.params ∨ (frameOf setting f).Represented v) ∧
    (∀ i ∈ f.instructions, ∀ v, i.result = some v → (∀ ty incoming, i.op ≠ .phi ty incoming) →
      f.typeOf v ≠ .void → (frameOf setting f).Represented v) ∧
    (∀ b ∈ f.blocks, ∀ v site normal unwind,
      b.terminator = .invoke (some v) site normal unwind → f.typeOf v ≠ .void →
      (frameOf setting f).Represented v) := by
  have hlowered := lowered_of_function h
  have hwell := (IR.Module.wellFormed_of_read hm).functions f hf
  have htyped := IR.Module.resultsTyped_of_read hm hf
  refine ⟨hlowered.locals ▸ Frame.nodup_locals, fun x hx => hlowered.param_not_local hwell hx,
    fun v => by simp [hlowered.mentions_iff, refers_value], hlowered.closed_iff hwell,
    fun i hi v hv hphi hvoid => ?_, fun b hb v site normal unwind => ?_⟩
  · obtain ⟨s, code, hcode⟩ := hlowered.exists_code hi
    refine Frame.represented_of_code hcode hv (htyped.instructions i hi v hv) hvoid hphi ?_
    intro ty cleanup clauses hop
    exact List.mem_filterMap.mpr ⟨i, hi, by rw [hop]; exact hv⟩
  -- The result of an invoke has the scalar of the call, which is the one of its type.
  · intro hterm hvoid
    obtain ⟨stmts, -, hblock⟩ := exists_of_mem_forall₂ (mapM_eq_ok.mp hlowered.blocks).flip hb
    obtain ⟨body, exit, -, hexit, -⟩ := Frame.block_eq_ok hblock
    have hcode := Frame.exitCode_of_terminator hexit
    rw [hterm] at hcode
    cases hcode with
    | invoke hcall =>
      have hdest : ((frameOf setting f).dest? (some v)).isSome = true := by
        simp [Frame.dest?, frameOf, hvoid]
      obtain ⟨scalar, hscalar⟩ := Frame.scalar_of_call hdest hcall
      rw [← htyped.invokes b hb v site normal unwind hterm] at hscalar
      exact Frame.represented_of_scalar hscalar

/-- A function that calls itself with a handler, whose landing pad goes through a phi. -/
def cleanupText : List UInt8 :=
  ("define i8 @f(i8 %n) \x7b\n" ++
   "a:\n %q = invoke i8 @f(i8 %n) to label %b unwind label %c\n" ++
   "b:\n ret i8 %q\n" ++
   "c:\n %x = landingpad \x7bptr\x7d cleanup\n br label %d\n" ++
   "d:\n %y = phi \x7bptr\x7d [ %x, %c ]\n resume \x7bptr\x7d %y\n\x7d").toUTF8.toList

/-- A landing pad in a function without a handler. -/
def strayPadText : List UInt8 :=
  "define void @f() \x7b\n %x = landingpad \x7bptr\x7d cleanup\n ret void\n\x7d".toUTF8.toList

def plainSetting (m : IR.Module) : Setting :=
  { module := m, profile := {}, globals := [], names := m.functions.map IR.Function.name }

/-- The exception goes from its slot through the phi, and all are declared. -/
theorem code_closed_iff_cleanup :
    ∃ m f t, IR.Module.read cleanupText = .ok m ∧ f ∈ m.functions ∧ HasPad f ∧
      function (plainSetting m) f = .ok t ∧ t.Closed := by
  have htest : okAnd (IR.Module.read cleanupText) (fun m => m.functions.any fun f =>
      decide (HasPad f ∧ Frame.hasInvoke f = true ∧
        ∀ i < f.values.length, ((frameOf (plainSetting m) f).localOf? ⟨i⟩ (f.typeOf ⟨i⟩)).isSome) &&
      okAnd (function (plainSetting m) f) fun _ => true) = true := by decide +kernel
  obtain ⟨m, hm, htest⟩ := exists_of_okAnd htest
  obtain ⟨f, hf, htest⟩ := List.any_eq_true.mp htest
  obtain ⟨hvalues, hcode⟩ := Bool.and_eq_true_iff.mp htest
  obtain ⟨hpad, hinvoke, hvalues⟩ := of_decide_eq_true hvalues
  obtain ⟨t, ht, -⟩ := exists_of_okAnd hcode
  obtain ⟨-, -, -, hclosed, -, -⟩ := code_closed_iff hm hf ht
  refine ⟨m, f, t, hm, hf, hpad, ht, hclosed.mpr ⟨fun _ => hinvoke, fun b hb v hv => .inr ?_⟩⟩
  have hrefs := refers_value.mp (Frame.refers_of_uses hb (refers_value.mpr hv))
  have hlt := ((IR.Module.wellFormed_of_read hm).functions f hf).references _ hrefs
  exact Frame.isSome_localOf?.mp (hvalues v.index hlt)

/-- A landing pad alone takes an exception from a slot that is not declared. -/
theorem stray_pad_not_closed :
    ∃ m f t, IR.Module.read strayPadText = .ok m ∧ f ∈ m.functions ∧
      function (plainSetting m) f = .ok t ∧ t.Mentions .exception ∧
      .exception ∉ t.locals.map Target.Local.var ∧ ¬ t.Closed := by
  have htest : okAnd (IR.Module.read strayPadText) (fun m => m.functions.any fun f =>
      decide (HasPad f ∧ Frame.hasInvoke f = false) &&
      okAnd (function (plainSetting m) f) fun _ => true) = true := by decide +kernel
  obtain ⟨m, hm, htest⟩ := exists_of_okAnd htest
  obtain ⟨f, hf, htest⟩ := List.any_eq_true.mp htest
  obtain ⟨hpad, hcode⟩ := Bool.and_eq_true_iff.mp htest
  obtain ⟨hpad, hinvoke⟩ := of_decide_eq_true hpad
  obtain ⟨t, ht, -⟩ := exists_of_okAnd hcode
  have hlowered := lowered_of_function ht
  have hwell := (IR.Module.wellFormed_of_read hm).functions f hf
  have hslot : Var.exception ∉ t.locals.map Target.Local.var := by
    rw [hlowered.locals, Frame.exception_mem_locals]
    exact Bool.eq_false_iff.mp hinvoke
  refine ⟨m, f, t, hm, hf, ht, hlowered.mentions_iff.mpr (.inr ⟨rfl, .inl hpad⟩), hslot,
    fun hclosed => ?_⟩
  exact Bool.eq_false_iff.mp hinvoke (((hlowered.closed_iff hwell).mp hclosed).1 hpad)

end SafeIR.Lower
