import SafeIR.Host
import SafeIR.Proofs.Unwinding

/-!
# Calls of host functions

A function that is only declared, and is no intrinsic, is called in the host if the profile says
so. The host answers with a value that carries its type, or with a fault. Generated code takes the
answer at the type that it expects, and drops it where it expects none (`received`).

The code of a call is written in two ways, for an instruction and for a terminator. Both take every
answer to the same outcome with one exception, and `hosted_calls_agree` says which: a function
without a result that answers with a value. An instruction drops the value. A terminator expects
that there is none, and traps.
-/

namespace SafeIR.Target

variable {σ : Type} {ty : Ty} {name : String} {ret : IR.Ty} {e : Env σ}

/-! ## Answers of the host -/

/-- The values of the host that a type of generated code stands for. -/
def Ty.kind? : Ty → Option SafeIR.Value.Kind
  | .unit => some .void
  | .bool => some .i1
  | .signed 8 => some .i8
  | .signed 16 => some .i16
  | .signed 32 => some .i32
  | .signed 64 => some .i64
  | .signed 128 => some .i128
  | .f32 => some .f32
  | .f64 => some .f64
  | .unsigned 64 => some .ptr
  | _ => none

/-- A value of the host in generated code. -/
def Value.ofHost : SafeIR.Value → Value
  | .void => .unit
  | .i1 b => .bool b
  | .i8 v => .word true 8 v
  | .i16 v => .word true 16 v
  | .i32 v => .word true 32 v
  | .i64 v => .word true 64 v
  | .i128 v => .word true 128 v
  | .f32 bits => .float 32 bits.toNat
  | .f64 bits => .float 64 bits.toNat
  | .ptr address => .word false 64 address

/-- A value of generated code as an argument for the host, if it can be one. -/
def Value.toHost? : Value → Option SafeIR.Value
  | .bool b => some (.i1 b)
  | .word true 8 v => some (.i8 v)
  | .word true 16 v => some (.i16 v)
  | .word true 32 v => some (.i32 v)
  | .word true 64 v => some (.i64 v)
  | .word true 128 v => some (.i128 v)
  | .float 32 bits => some (.f32 (BitVec.ofNat 32 bits))
  | .float 64 bits => some (.f64 (BitVec.ofNat 64 bits))
  | .word false 64 address => some (.ptr address)
  | _ => none

/-- An answer at the type that is expected. Nothing is asked of it where none is. -/
def received (expected : Option Ty) (answer : Outcome SafeIR.Value) : Outcome Value :=
  match expected with
  | none => answer.map fun _ => .unit
  | some ty => answer.bind fun v =>
    match ty.kind? with
    | some k => (v.get k).map Value.ofHost
    | none => .error (.trap .externalSignatureMismatch)

/-- The functions of a host, by their names. -/
abbrev Host (σ : Type) := String → List Value → σ → Outcome SafeIR.Value × σ

/-- Generated code that is linked with a host. -/
def Support.hosted (sup : Support σ) (host : Host σ) : Support σ :=
  { sup with external := fun name args expected world =>
      let (answer, world) := host name args world
      (received expected answer, world) }

/-- The functions that are bound in a context. -/
def contextHost : Host Context := fun name args ctx =>
  ctx.callExternal name (args.filterMap Value.toHost?)

/-- The types that the variables of generated code have are all types of the host. -/
theorem exists_kind (s : Layout.Scalar) : ∃ k, s.ty.kind? = some k := by
  cases s with
  | int bits =>
    by_cases h : bits ∈ [8, 16, 32, 64]
    · simp only [List.mem_cons, List.not_mem_nil, or_false] at h
      rcases h with rfl | rfl | rfl | rfl <;> exact ⟨_, rfl⟩
    · rw [Layout.Scalar.ty, Layout.Scalar.wordBits, if_neg h]
      exact ⟨_, rfl⟩
  | bool | f32 | f64 | ptr => exact ⟨_, rfl⟩

/-- No value is the only one that passes for no value. -/
theorem received_unit_of_ne {v : SafeIR.Value} (h : v ≠ .void) :
    received (some .unit) (.ok v) = .error (.trap .externalSignatureMismatch) := by
  cases v with
  | void => exact absurd rfl h
  | _ => rfl

theorem received_unit_eq_iff (answer : Outcome SafeIR.Value) :
    received (some .unit) answer = received none answer ↔
      ¬ ∃ v, answer = .ok v ∧ v ≠ .void := by
  cases answer with
  | error f => simp [received, Except.bind, Except.map]
  | ok v =>
    by_cases hv : v = .void
    · subst hv
      simp [received, Except.bind, Except.map, Ty.kind?, SafeIR.Value.get, SafeIR.Value.kind,
        Value.ofHost]
    · rw [received_unit_of_ne hv]
      simp [received, Except.map, hv]

/-! ## Going on with an answer -/

variable {sup : Support σ}

/-- A function that waits for the host goes on with the answer. -/
def Flow.answered (sup : Support σ) : Flow σ → Flow σ
  | .waits (.external name args expected) p =>
    let (o, world) := sup.external name args expected p.env.world
    p.resume sup world o
  | flow => flow

/-- The machine gets there in two steps: the call, and the way back. -/
def Machine.Answers (sup : Support σ) (code : List Stmt) (e : Env σ) : Prop :=
  ∀ program (f : Function) stack, f.code e.block = some code →
    run sup program 2 (.run f e stack)
      = settle sup program f stack ((exec sup code e).answered sup)

theorem Machine.answers_of_waits {code : List Stmt} {args : List Value} {expected : Option Ty}
    {p : Pause σ} (hwaits : exec sup code e = .waits (.external name args expected) p) :
    Answers sup code e := by
  intro program f stack hcode
  have hstep : step sup program (.run f e stack)
      = settle sup program f stack (exec sup code e) := by
    rw [step, hcode]
    rfl
  rw [run_succ_left, hstep, hwaits]
  rfl

theorem pause_external {args : List Expr} {values : List Value}
    (hargs : args.mapM (Expr.eval sup e) = some values) (expected : Option Ty) (receiver : Receiver)
    (rest : List Stmt) :
    pause sup (.external name args expected) receiver rest e
      = .waits (.external name values expected) ⟨e, receiver, rest⟩ := by
  rw [pause, Call.request, hargs]
  rfl

theorem answered_pause {args : List Expr} {values : List Value} {expected : Option Ty}
    {o : Outcome Value} {world : σ} (hargs : args.mapM (Expr.eval sup e) = some values)
    (ho : sup.external name values expected e.world = (o, world)) (receiver : Receiver)
    (rest : List Stmt) :
    (pause sup (.external name args expected) receiver rest e).answered sup
      = Pause.resume sup ⟨e, receiver, rest⟩ world o := by
  rw [pause_external hargs, Flow.answered, ho]

end SafeIR.Target

namespace SafeIR.Lower

open IR (Block BlockId CallSite Instruction Operand Typed ValueId)
open Target (Env Expr Flow Pause Receiver Step Stmt Support Var exec runSteps)

variable {σ : Type} {sup : Support σ} {ty : Target.Ty} {name : String} {ret : IR.Ty} {e : Env σ}

/-! ## The code of a call -/

namespace Frame

variable {fr : Frame} {dest : Option Var}

/-- A call that is left to the host, by the name it has there. -/
structure Hosted (fr : Frame) (site : CallSite) (name : String) : Prop where
  callee : ∃ f callee, site.callee = .direct f ∧
    fr.setting.module.functions[f.index]? = some callee ∧ callee.isDeclaration = true ∧
    callee.name = name
  unlisted : Intrinsic.lookUp Intrinsic.catalog name = none
  policy : fr.setting.profile.unknownIntrinsics = .external

/-- The type of a result: that of its variable, if it has one. -/
def resultTy (fr : Frame) (s : Site) (ret : IR.Ty) (dest : Option Var) : Result Target.Ty :=
  match dest with
  | some _ => (fr.scalar s ret).map Layout.Scalar.ty
  | none => return .unit

/-- The code of a call that is left to the host. It differs by the type at which the answer is
expected: a terminator drops only the answer of a function that has a result. -/
def hostedCode (fr : Frame) (source : Block) (ret : IR.Ty) (name : String) (args : List Expr)
    (ty : Target.Ty) (dest : Option Var) : Option Edges → Result (List Stmt)
  | none =>
    let expected := dest.map fun _ => ty
    return [.step (into dest (.call (.external name args expected)))]
  | some edges =>
    let expected := if dest.isNone ∧ ret ≠ .void then none else some ty
    fr.matchOutcome source (.external name args expected) dest edges

/-- The code of a call of the host. -/
theorem call_of_hosted {s : Site} {site : CallSite} {edges : Option Edges} {stmts : List Stmt}
    (hsite : fr.Hosted site name) (h : fr.call s site dest edges = .ok stmts) :
    ∃ args ty, fr.operands s site.args = .ok args ∧ fr.resultTy s site.ret dest = .ok ty ∧
      fr.hostedCode s.block site.ret name args ty dest edges = .ok stmts := by
  obtain ⟨⟨f, callee, hf, hcallee, hdecl, rfl⟩, hunlisted, hpolicy⟩ := hsite
  have hbehind : ∃ ty, fr.resultTy s site.ret dest = .ok ty ∧
      (do fr.hostedCode s.block site.ret callee.name (← fr.operands s site.args) ty dest edges)
        = .ok stmts := by
    unfold call at h
    simp only [hf, hcallee, hdecl, hunlisted, hpolicy, Bool.not_true, Bool.false_eq_true,
      if_false] at h
    cases dest with
    | none =>
      refine ⟨.unit, rfl, ?_⟩
      cases edges <;> exact h
    | some d =>
      obtain ⟨scalar, hscalar, h⟩ := bind_eq_ok.mp h
      refine ⟨scalar.ty, ?_, ?_⟩
      · rw [resultTy, hscalar]
        rfl
      · cases edges <;> exact h
  obtain ⟨ty, hty, hbehind⟩ := hbehind
  obtain ⟨args, hargs, hcode⟩ := bind_eq_ok.mp hbehind
  exact ⟨args, ty, hargs, hty, hcode⟩

/-! ## Two places in a function

A place is for messages only, so what is accepted at one place is the same at another. -/

variable {s s' : Site}

theorem scalar_at {ty : IR.Ty} {a : Layout.Scalar} (h : fr.scalar s ty = .ok a) :
    fr.scalar s' ty = .ok a := by
  unfold scalar at h ⊢
  obtain ⟨layout, hlayout, h⟩ := bind_eq_ok.mp h
  rw [hlayout, ok_bind]
  cases hscalar : layout.scalar? with
  | none =>
    rw [hscalar] at h
    cases h
  | some a' =>
    rw [hscalar] at h
    exact h

theorem resultTy_at (h : fr.resultTy s ret dest = .ok ty) : fr.resultTy s' ret dest = .ok ty := by
  cases dest with
  | none => exact h
  | some d =>
    obtain ⟨a, ha, rfl⟩ := map_eq_ok.mp h
    exact map_eq_ok.mpr ⟨a, scalar_at ha, rfl⟩

theorem operand_at {ty : IR.Ty} {o : Operand} {x : Expr} (h : fr.operand s ty o = .ok x) :
    fr.operand s' ty o = .ok x := by
  unfold operand at h ⊢
  split at h
  next => exact h
  next => exact h
  next => exact h
  next c _ =>
    obtain ⟨a, ha, h⟩ := bind_eq_ok.mp h
    simp only [scalar_at ha, ok_bind]
    cases c with
    | int _ | float _ | bool _ | null | undef | zero => exact h
    | bytes _ | array _ | struct _ | global _ => cases h
  next => split at h <;> cases h
  next => cases h

theorem operands_at {args : List Typed} {xs : List Expr} (h : fr.operands s args = .ok xs) :
    fr.operands s' args = .ok xs :=
  mapM_eq_ok.mpr ((mapM_eq_ok.mp h).imp fun _ _ hx => operand_at hx)

/-- A result is expected at a type that the host has too. -/
theorem exists_kind_of_resultTy (h : fr.resultTy s ret dest = .ok ty) : ∃ k, ty.kind? = some k := by
  cases dest with
  | none =>
    cases h
    exact ⟨.void, rfl⟩
  | some d =>
    obtain ⟨a, -, rfl⟩ := map_eq_ok.mp h
    exact Target.exists_kind a

/-- A result without a type has no variable. -/
theorem dest_eq_none_of_void (h : fr.resultTy s .void dest = .ok ty) : dest = none := by
  cases dest with
  | none => rfl
  | some d => cases h

end Frame

/-! ## What an outcome leads to -/

/-- A call by an instruction, by the outcome and what it leaves the world in: after a value the
code behind the call runs, and a fault leaves the function. -/
structure Continues (sup : Support σ) (dest : Option Var) (e : Env σ) (stmts : List Stmt)
    (world : σ) (o : Outcome Target.Value) : Prop where
  machine : ∀ rest, Target.Machine.Answers sup (stmts ++ rest) e
  value : ∀ v, o = .ok v → ∀ rest, (exec sup (stmts ++ rest) e).answered sup
    = exec sup rest (keepIn dest v { e with world })
  fault : ∀ f, o = .error f → ∀ rest,
    (exec sup (stmts ++ rest) e).answered sup = .left world (.error f)

/-- A call by a terminator: a value takes the normal edge, an exception the other one, and a trap
leaves the function. -/
structure Branches (fr : Frame) (sup : Support σ) (source : Block) (normal unwind : BlockId)
    (dest : Option Var) (e : Env σ) (stmts : List Stmt) (world : σ) (o : Outcome Target.Value) :
    Prop where
  machine : Target.Machine.Answers sup stmts e
  value : ∀ v, o = .ok v → ∃ e', (exec sup stmts e).answered sup = .again e' ∧
    fr.Takes sup source normal (keepIn dest v { e with world, outcome := some v }) e'
  raised : ∀ x, o = .error (.exception x) → ∃ e', (exec sup stmts e).answered sup = .again e' ∧
    Unwound fr sup source unwind x { e with world, caught := some x } e'
  trapped : ∀ t, o = .error (.trap t) →
    (exec sup stmts e).answered sup = .left world (.error (.trap t))

section

variable {args : List Expr} {values : List Target.Value} {expected : Option Target.Ty}
  {o : Outcome Target.Value} {world : σ} {dest : Option Var}

theorem continues_of_external (hargs : args.mapM (Expr.eval sup e) = some values)
    (ho : sup.external name values expected e.world = (o, world)) :
    Continues sup dest e [.step (into dest (.call (.external name args expected)))] world o := by
  obtain ⟨receiver, hvalue, hfault, hrun⟩ : ∃ receiver : Receiver,
      (∀ v rest, Pause.resume sup ⟨e, receiver, rest⟩ world (.ok v)
        = exec sup rest (keepIn dest v { e with world })) ∧
      (∀ f rest, Pause.resume sup ⟨e, receiver, rest⟩ world (.error f)
        = .left world (.error f)) ∧
      ∀ rest, exec sup ([.step (into dest (.call (.external name args expected)))] ++ rest) e
        = Target.pause sup (.external name args expected) receiver rest e := by
    cases dest with
    | none => exact ⟨.drop, fun _ _ => rfl, fun f _ => by cases f <;> rfl, fun _ => rfl⟩
    | some d => exact ⟨.keep d, fun _ _ => rfl, fun f _ => by cases f <;> rfl, fun _ => rfl⟩
  constructor
  · intro rest
    exact Target.Machine.answers_of_waits ((hrun rest).trans (Target.pause_external hargs _ _ _))
  · intro v hv rest
    rw [hrun, Target.answered_pause hargs ho, hv, hvalue]
  · intro f hf rest
    rw [hrun, Target.answered_pause hargs ho, hf, hfault]

/-- A call with a handler branches on what the host answers. -/
theorem branches_of_external {fr : Frame} {source : Block} {edges : Frame.Edges}
    {stmts : List Stmt}
    (hcode : fr.matchOutcome source (.external name args expected) dest edges = .ok stmts)
    (hargs : args.mapM (Expr.eval sup e) = some values)
    (ho : sup.external name values expected e.world = (o, world)) :
    Branches fr sup source edges.normal edges.unwind dest e (stmts ++ [.next]) world o := by
  simp only [Frame.matchOutcome, bind_eq_ok, pure_eq_ok] at hcode
  obtain ⟨normal, hnormal, unwind, hunwind, rfl⟩ := hcode
  have hrun : (exec sup ([.matchOutcome (.external name args expected)
        ((dest.map fun d => Step.assign d (.pure .outcomeValue)).toList ++ normal)
        (.hold :: unwind)] ++ [.next]) e).answered sup = Pause.resume sup _ world o :=
    Target.answered_pause hargs ho _ [.next]
  constructor
  · exact Target.Machine.answers_of_waits (Target.pause_external hargs _ _ [.next])
  · intro v hv
    obtain ⟨e', htakes, hedge⟩ := Frame.runSteps_edge hnormal sup
      (keepIn dest v { e with world, outcome := some v })
    refine ⟨e', ?_, htakes⟩
    rw [hrun, hv]
    exact (runSteps_keep rfl dest _ _ normal).trans (hedge _ _)
  · intro x hx
    obtain ⟨e', htakes, hedge⟩ := Frame.runSteps_edge hunwind sup
      (holdIn x { e with world, caught := some x })
    refine ⟨e', ?_, unwound_of_takes htakes⟩
    rw [hrun, hx]
    exact (runSteps_hold rfl _ _ unwind).trans (hedge _ _)
  · intro t ht
    rw [hrun, ht, resume_trap]

end

/-! ## The two kinds of calls -/

/-- The answer that the two kinds of calls do not take in the same way. -/
def Unexpected (ret : IR.Ty) (answer : Outcome Value) : Prop :=
  ret = .void ∧ ∃ v, answer = .ok v ∧ v ≠ .void

/-- The types at which the two kinds of calls expect an answer make a difference for one alone. -/
theorem received_eq_iff {fr : Frame} {s : Site} {dest : Option Var}
    (hty : fr.resultTy s ret dest = .ok ty) (answer : Outcome Value) :
    Target.received (if dest.isNone ∧ ret ≠ .void then none else some ty) answer
        = Target.received (dest.map fun _ => ty) answer ↔
      ¬ Unexpected ret answer := by
  by_cases hret : ret = .void
  · subst hret
    obtain rfl := Frame.dest_eq_none_of_void hty
    cases hty
    simpa [Unexpected] using Target.received_unit_eq_iff answer
  · have hused : ¬ Unexpected ret answer := fun h => hret h.1
    cases dest with
    | none => simp [hret, hused]
    | some d => simp [hused]

/-- An instruction drops that answer, and a terminator does not. -/
theorem received_of_unexpected {fr : Frame} {s : Site} {dest : Option Var}
    (hty : fr.resultTy s ret dest = .ok ty) {answer : Outcome Value} (h : Unexpected ret answer) :
    Target.received (dest.map fun _ => ty) answer = .ok .unit ∧
      Target.received (if dest.isNone ∧ ret ≠ .void then none else some ty) answer
        = .error (.trap .externalSignatureMismatch) := by
  obtain ⟨rfl, v, rfl, hv⟩ := h
  obtain rfl := Frame.dest_eq_none_of_void hty
  cases hty
  constructor
  · rfl
  · simpa using Target.received_unit_of_ne hv

/-- **Host functions answer both kinds of calls alike**. The same call of a host function stands
once as an instruction and once as a terminator. The host gets the same arguments from both and
gives an answer. Then the outcome of the instruction, which completes by a value, and that of the
terminator, which takes its normal edge by a value, are equal: also in the value that is kept, and
in the fault if there is one. The exception is a function without a result that answers with a
value; the instruction completes and the terminator traps. The machine takes two steps to each
outcome, the call and the way back. -/
theorem hosted_calls_agree (base : Support σ) (host : Target.Host σ) {fr : Frame}
    {b b' : Block} {i : Instruction} {site : CallSite} {name : String} {normal unwind : BlockId}
    {call invoke : List Stmt} (hsite : fr.Hosted site name) (hop : i.op = .call site)
    (hcall : fr.instruction b i = .ok call)
    (hterm : b'.terminator = .invoke i.result site normal unwind)
    (hinvoke : fr.terminator b' = .ok invoke) (e : Env σ) :
    ∃ args values ty, fr.operands ⟨b, i.op.opcode⟩ site.args = .ok args ∧
      args.mapM (Expr.eval (base.hosted host) e) = some values ∧
      fr.resultTy ⟨b, i.op.opcode⟩ site.ret (fr.dest? i.result) = .ok ty ∧
      (∃ k, ty.kind? = some k) ∧
      ∀ answer world, host name values e.world = (answer, world) →
        ∃ o o', o = Target.received ((fr.dest? i.result).map fun _ => ty) answer ∧
          Continues (base.hosted host) (fr.dest? i.result) e call world o ∧
          Branches fr (base.hosted host) b' normal unwind (fr.dest? i.result) e invoke world o' ∧
          (o' = o ↔ ¬ Unexpected site.ret answer) ∧
          (Unexpected site.ret answer →
            o = .ok .unit ∧ o' = .error (.trap .externalSignatureMismatch)) := by
  rw [hop]
  rw [Frame.instruction, hop] at hcall
  obtain ⟨args, ty, hargs, hty, hcall⟩ := Frame.call_of_hosted hsite hcall
  simp only [Frame.terminator, hterm, bind_eq_ok, pure_eq_ok] at hinvoke
  obtain ⟨code, hinvoke, rfl⟩ := hinvoke
  obtain ⟨args', ty', hargs', hty', hinvoke⟩ := Frame.call_of_hosted hsite hinvoke
  -- what is accepted at the place of the instruction is what is accepted at the other
  obtain rfl : args = args' := Except.ok.inj ((Frame.operands_at hargs).symm.trans hargs')
  obtain rfl : ty = ty' := Except.ok.inj ((Frame.resultTy_at hty).symm.trans hty')
  obtain ⟨values, hvalues⟩ := Frame.operands_evaluate hargs (base.hosted host) e
  refine ⟨args, values, ty, hargs, hvalues, hty, Frame.exists_kind_of_resultTy hty,
    fun answer world hanswer => ?_⟩
  have hexternal : ∀ expected, (base.hosted host).external name values expected e.world
      = (Target.received expected answer, world) := by
    intro expected
    show (let (answer, world) := host name values e.world
      (Target.received expected answer, world)) = _
    rw [hanswer]
  obtain rfl := pure_eq_ok.mp hcall
  exact ⟨_, _, rfl, continues_of_external hvalues (hexternal _),
    branches_of_external hinvoke hvalues (hexternal _), received_eq_iff hty answer,
    received_of_unexpected hty⟩

/-! ## A host with two functions -/

/-- One function doubles a number. The other is to have no result and answers with a number. -/
def twoFunctions : Context :=
  let memory : Memory :=
    { bytes := #[], stackBase := 0, stackEnd := 0, sp := 0, heapNext := 0, heapLast := none }
  let twice : HostFunction := fun m args => match args with
    | [.i32 v] => (.ok (.i32 (v + v)), m)
    | _ => (.error (.trap .abort), m)
  { memory, externals := [("twice", twice), ("note", fun m _ => (.ok (.i32 1), m))] }

def twiceSite : CallSite := ⟨.direct ⟨0⟩, .int 32, [(.int 32, .const (.int 21))]⟩

def noteSite : CallSite := ⟨.direct ⟨1⟩, .void, []⟩

/-- A block with a call by an instruction, and one with the call by its terminator. -/
def callBlock (i : Instruction) : Block :=
  { id := ⟨0⟩, label := "a", instructions := [i], terminator := .br ⟨1⟩ }

def invokeBlock (result : Option ValueId) (site : CallSite) : Block :=
  { id := ⟨0⟩, label := "a", instructions := [], terminator := .invoke result site ⟨1⟩ ⟨2⟩ }

/-- A function that may make both calls. -/
def hostedFrame : Frame :=
  let declared (i : Nat) (name : String) (ret : IR.Ty) : IR.Function :=
    { id := ⟨i⟩, name, demangled := none, params := [], ret, varargs := false
      isDeclaration := true, values := [], blocks := [] }
  let f : IR.Function :=
    { id := ⟨2⟩, name := "f", demangled := none, params := [], ret := .void, varargs := false
      isDeclaration := false, values := [⟨"x", .int 32⟩]
      blocks := [invokeBlock none noteSite,
        { id := ⟨1⟩, label := "b", instructions := [], terminator := .ret none },
        { id := ⟨2⟩, label := "c", instructions := [], terminator := .unreachable }] }
  { setting :=
      { module := { functions := [declared 0 "twice" (.int 32), declared 1 "note" .void, f] }
        profile := { unknownIntrinsics := .external }, globals := [], names := ["t", "n", "f"] }
    function := f, exceptions := [] }

/-- Nothing but the host is linked. -/
def bareSupport : Support Context :=
  { global := fun _ => 0, float := fun _ _ => none, raising := fun _ _ => none
    act := fun _ _ _ => none, external := fun _ _ _ ctx => (.ok .unit, ctx)
    enter := id, leave := id }

def hostOnly : Support Context := bareSupport.hosted Target.contextHost

def hostedStart : Env Context :=
  { world := twoFunctions, store := fun _ => .unit, block := ⟨0⟩ }

/-- A function without a result answers with a number: the instruction completes, and the
terminator traps. -/
theorem terminator_traps_on_note :
    hostedFrame.Hosted noteSite "note" ∧
    ∃ call invoke,
      hostedFrame.instruction (callBlock ⟨none, .call noteSite⟩) ⟨none, .call noteSite⟩
        = .ok call ∧
      hostedFrame.terminator (invokeBlock none noteSite) = .ok invoke ∧
      (∀ rest, (exec hostOnly (call ++ rest) hostedStart).answered hostOnly
        = exec hostOnly rest hostedStart) ∧
      (exec hostOnly invoke hostedStart).answered hostOnly
        = .left twoFunctions (.error (.trap .externalSignatureMismatch)) := by
  refine ⟨⟨⟨_, _, rfl, rfl, rfl, rfl⟩, ?_, rfl⟩, _, _, rfl, rfl, fun rest => rfl, rfl⟩
  decide +kernel

/-- The number that the other function answers with is the result of both calls. -/
theorem hosted_calls_agree_on_twice :
    hostedFrame.Hosted twiceSite "twice" ∧
    ∃ call invoke e',
      hostedFrame.instruction (callBlock ⟨some ⟨0⟩, .call twiceSite⟩) ⟨some ⟨0⟩, .call twiceSite⟩
        = .ok call ∧
      hostedFrame.terminator (invokeBlock (some ⟨0⟩) twiceSite) = .ok invoke ∧
      (∀ rest, (exec hostOnly (call ++ rest) hostedStart).answered hostOnly
        = exec hostOnly rest (hostedStart.set (.value ⟨0⟩) (.word true 32 42))) ∧
      (exec hostOnly invoke hostedStart).answered hostOnly = .again e' ∧
      e'.block = ⟨1⟩ ∧ e'.store (.value ⟨0⟩) = .word true 32 42 := by
  have hsite : hostedFrame.Hosted twiceSite "twice" :=
    ⟨⟨_, _, rfl, rfl, rfl, rfl⟩, by decide +kernel, rfl⟩
  obtain ⟨call, hcall⟩ : ∃ call, hostedFrame.instruction (callBlock ⟨some ⟨0⟩, .call twiceSite⟩)
      ⟨some ⟨0⟩, .call twiceSite⟩ = .ok call := ⟨_, rfl⟩
  obtain ⟨invoke, hinvoke⟩ : ∃ invoke,
      hostedFrame.terminator (invokeBlock (some ⟨0⟩) twiceSite) = .ok invoke := ⟨_, rfl⟩
  obtain ⟨args, values, ty, hargs, hvalues, hty, -, hagree⟩ :=
    hosted_calls_agree bareSupport Target.contextHost hsite rfl hcall rfl hinvoke hostedStart
  cases hargs
  cases hvalues
  cases hty
  obtain ⟨o, o', rfl, hcontinues, hbranches, heq, -⟩ := hagree (.ok (.i32 42)) twoFunctions rfl
  have hexpected : ¬ Unexpected twiceSite.ret (.ok (.i32 42)) := by
    rintro ⟨hret, -⟩
    cases hret
  rw [heq.mpr hexpected] at hbranches
  obtain ⟨e', hrun, block, pairs, values, hblock, hpairs, hvalues, rfl⟩ := hbranches.value _ rfl
  cases hblock
  cases hpairs
  cases hvalues
  exact ⟨hsite, call, invoke, _, hcall, hinvoke, hcontinues.value _ rfl, hrun, rfl, rfl⟩

end SafeIR.Lower
