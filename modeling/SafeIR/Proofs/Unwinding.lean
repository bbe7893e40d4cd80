import SafeIR.Proofs.Lower.Call

/-!
# Unwinding

An exception that a routine raises goes to the nearest handler around it: out of every function
that waits without one, and to the unwind block of the first that has one. A trap goes out of all
of them.

The main statement is `nearest_handler`. Its first part is about one call of a routine that may
raise and all results it may have; the second about stacks of waiting calls, of any height and
with handlers at any of the levels.
-/

namespace SafeIR.Lower

open IR (Block BlockId CallSite Instruction ValueId)
open Target (Activation Env Expr Flow Machine.run Machine.settle Machine.step Pause Receiver
  State Stmt Support Var exec runSteps)

variable {σ : Type} {sup : Support σ} {program : List Target.Function} {fr : Frame}
  {a : Activation σ}

/-! ## Arriving at a handler -/

/-- Control is at the unwind block of a handler: the exception is in its slot, the phis of the
block are assigned, and all other variables are as they were. -/
structure Unwound (fr : Frame) (sup : Support σ) (source : Block) (unwind : BlockId)
    (x : Exception) (e e' : Env σ) : Prop where
  takes : fr.Takes sup source unwind (holdIn x e) e'
  block : e'.block = unwind
  slot : e'.store .exception = .exception (some x)
  others : ∀ v, v ≠ .exception →
    (∀ b, fr.function.blocks[unwind.index]? = some b → ∀ p ∈ b.phis, v ≠ .value p.dest) →
    e'.store v = e.store v

/-- An edge assigns to the phis of its block and to nothing else. -/
theorem Frame.Takes.store_of_not_phi {source : Block} {target : BlockId} {e e' : Env σ}
    (h : fr.Takes sup source target e e') {v : Var}
    (hv : ∀ b, fr.function.blocks[target.index]? = some b → ∀ p ∈ b.phis, v ≠ .value p.dest) :
    e'.store v = e.store v := by
  obtain ⟨block, pairs, values, hblock, hpairs, hvalues, rfl⟩ := h
  obtain ⟨values', hvalues', hdests⟩ := Frame.arrivals_evaluate hpairs sup e
  obtain rfl : values = values' := Option.some.inj (hvalues.symm.trans hvalues')
  refine (Env.setAll_frame e values).2.2 v fun hmem => ?_
  rw [hdests] at hmem
  obtain ⟨p, hp, rfl⟩ := List.mem_map.mp hmem
  exact hv block hblock p hp rfl

theorem unwound_of_takes {source : Block} {unwind : BlockId} {x : Exception} {e e' : Env σ}
    (h : fr.Takes sup source unwind (holdIn x e) e') : Unwound fr sup source unwind x e e' where
  takes := h
  block := by
    obtain ⟨_, _, _, _, _, _, rfl⟩ := h
    rfl
  slot := by
    rw [h.store_of_not_phi (v := .exception) fun b _ p _ => nofun]
    exact Env.set_store_self e _ _
  others := by
    intro v hslot hphi
    rw [h.store_of_not_phi hphi]
    exact Env.set_store_of_ne hslot

/-! ## One call of a routine that may raise -/

/-- A call without a handler: an exception leaves the function, whatever comes behind the call. -/
structure Propagates (sup : Support σ) (dest : Option Var) (e : Env σ) (stmts : List Stmt)
    (r : Emulated Target.Value) : Prop where
  raised : ∀ x, r.pending = some x → ∀ rest,
    exec sup (stmts ++ rest) e = .left e.world (.error (.exception x))
  returned : r.pending = none → ∀ rest,
    exec sup (stmts ++ rest) e = exec sup rest (keepIn dest r.value { e with result := some r })

/-- A call with a handler: an exception goes to the unwind block, a value to the normal one. -/
structure Handles (fr : Frame) (sup : Support σ) (source : Block) (normal unwind : BlockId)
    (dest : Option Var) (e : Env σ) (stmts : List Stmt) (r : Emulated Target.Value) : Prop where
  raised : ∀ x, r.pending = some x → ∃ e', exec sup stmts e = .again e' ∧
    Unwound fr sup source unwind x { e with result := some r, caught := some x } e'
  returned : r.pending = none → ∃ e', exec sup stmts e = .again e' ∧
    fr.Takes sup source normal (keepIn dest r.value { e with result := some r }) e'

/-- The statements begin with a call of the routine that an entry stands for at the scalar of the
first operand, and the operands that go to it have the values given. -/
def Attempts (fr : Frame) (sup : Support σ) (s : Site) (site : CallSite) (entry : Intrinsic.Entry)
    (e : Env σ) (stmts : List Stmt) (path : String) (values : List Target.Value) : Prop :=
  ∃ scalar args rest, fr.overload s entry (site.args.take entry.arity) = .ok scalar ∧
    entry.path? (scalar.map Layout.Scalar.typeName) = some path ∧
    fr.operands s (site.args.take entry.arity) = .ok args ∧
    args.mapM (Expr.eval sup e) = some values ∧ stmts = .attempt path args :: rest

/-- A call by an instruction has no handler. -/
theorem propagates_of_instruction {b : Block} {i : Instruction} {site : CallSite}
    {entry : Intrinsic.Entry} {stmts : List Stmt}
    (helide : fr.setting.profile.elideProvenChecks = false) (hop : i.op = .call site)
    (hentry : fr.catalogued? site = some entry) (hthrow : entry.mayThrow = true)
    (h : fr.instruction b i = .ok stmts) (e : Env σ) :
    ∃ path values, Attempts fr sup ⟨b, i.op.opcode⟩ site entry e stmts path values ∧
      ∀ r, sup.raising path values = some r →
        Propagates sup (fr.dest? i.result) e stmts r := by
  rw [Frame.instruction, hop] at h
  rw [hop]
  obtain ⟨name, h⟩ := Frame.call_of_entry hentry h
  obtain ⟨path, args, scalar, hargs, hscalar, hpath, hcode⟩ := Frame.exists_isRaising hthrow h
  rw [Frame.IsRaising, helide] at hcode
  subst hcode
  obtain ⟨values, hvalues⟩ := Frame.operands_evaluate hargs sup e
  refine ⟨path, values, ⟨scalar, args, _, hscalar, hpath, hargs, hvalues, rfl⟩,
    fun r hr => ⟨?_, ?_⟩⟩
  · intro x hx rest
    rw [Throwing.exec_propagate hvalues hr, hx]
  · intro hx rest
    rw [Throwing.exec_propagate hvalues hr, hx]

/-- A call by a terminator is its own handler. -/
theorem handles_of_terminator {b : Block} {result : Option ValueId} {site : CallSite}
    {normal unwind : BlockId} {entry : Intrinsic.Entry} {stmts : List Stmt}
    (helide : fr.setting.profile.elideProvenChecks = false)
    (hterm : b.terminator = .invoke result site normal unwind)
    (hentry : fr.catalogued? site = some entry) (hthrow : entry.mayThrow = true)
    (h : fr.terminator b = .ok stmts) (e : Env σ) :
    ∃ path values, Attempts fr sup ⟨b, b.terminator.opcode⟩ site entry e stmts path values ∧
      ∀ r, sup.raising path values = some r →
        Handles fr sup b normal unwind (fr.dest? result) e stmts r := by
  simp only [Frame.terminator, hterm, bind_eq_ok, pure_eq_ok] at h
  rw [hterm]
  obtain ⟨code, h, rfl⟩ := h
  obtain ⟨name, h⟩ := Frame.call_of_entry hentry h
  obtain ⟨path, args, scalar, hargs, hscalar, hpath, hcode⟩ := Frame.exists_isRaising hthrow h
  rw [Frame.IsRaising, helide] at hcode
  obtain ⟨normalSteps, unwindSteps, hnormal, hunwind, rfl⟩ := hcode
  obtain ⟨values, hvalues⟩ := Frame.operands_evaluate hargs sup e
  refine ⟨path, values, ⟨scalar, args, _, hscalar, hpath, hargs, hvalues, rfl⟩,
    fun r hr => ⟨?_, ?_⟩⟩
  · intro x hx
    rw [Throwing.exec_invoke hvalues hr, hx]
    obtain ⟨e', htakes, hrun⟩ := Frame.runSteps_edge hunwind sup
      (holdIn x { e with result := some r, caught := some x })
    exact ⟨e', hrun _ _, unwound_of_takes htakes⟩
  · intro hx
    rw [Throwing.exec_invoke hvalues hr, hx]
    obtain ⟨e', htakes, hrun⟩ := Frame.runSteps_edge hnormal sup
      (keepIn (fr.dest? result) r.value { e with result := some r })
    exact ⟨e', hrun _ _, htakes⟩

/-! ## Stacks of waiting calls -/

/-- A handler: the function it is in, the block of the call and where exceptions go. -/
structure Landing where
  frame : Frame
  block : Block
  unwind : BlockId

/-- A function waits at a call that was translated: one that is no routine of the catalog, made by
an instruction, which has no handler, or by a terminator, which is one. -/
inductive Awaits (sup : Support σ) (a : Activation σ) : Option Landing → Prop where
  | call {fr : Frame} {b : Block} {i : Instruction} {site : CallSite} {stmts rest : List Stmt}
      {e : Env σ} {request : Target.Request} (hop : i.op = .call site)
      (hentry : fr.catalogued? site = none)
      (hcode : fr.instruction b i = .ok stmts)
      (hwaits : exec sup (stmts ++ rest) e = .waits request a.pause) : Awaits sup a none
  | invoke {setting : Setting} {f : IR.Function} {b : Block} {result : Option ValueId}
      {site : CallSite} {normal unwind : BlockId} {stmts : List Stmt} {e : Env σ}
      {request : Target.Request} (hfunction : function setting f = .ok a.function)
      (hb : b ∈ f.blocks)
      (hterm : b.terminator = .invoke result site normal unwind)
      (hentry : (frameOf setting f).catalogued? site = none)
      (hcode : (frameOf setting f).terminator b = .ok stmts)
      (hwaits : exec sup stmts e = .waits request a.pause) :
      Awaits sup a (some ⟨frameOf setting f, b, unwind⟩)

/-- No receiver stops a trap. -/
theorem resume_trap (p : Pause σ) (world : σ) (t : Trap) :
    p.resume sup world (.error (.trap t)) = .left world (.error (.trap t)) := by
  obtain ⟨e, receiver, rest⟩ := p
  cases receiver <;> rfl

/-- A call without a handler lets every fault through. -/
theorem Awaits.resume_fault (h : Awaits sup a none) (world : σ) (f : Fault) :
    a.pause.resume sup world (.error f) = .left world (.error f) := by
  cases h with
  | @call fr b i site stmts rest e request hop hentry hcode hwaits =>
    rw [Frame.instruction, hop] at hcode
    obtain ⟨c, -, -, rfl⟩ := Frame.call_of_no_entry hentry hcode
    have hpause : ∃ receiver, (receiver = .drop ∨ ∃ d, receiver = .keep d) ∧
        Target.pause sup c receiver rest e = .waits request a.pause := by
      cases hdest : fr.dest? i.result with
      | none =>
        rw [hdest] at hwaits
        exact ⟨.drop, .inl rfl, hwaits⟩
      | some d =>
        rw [hdest] at hwaits
        exact ⟨.keep d, .inr ⟨d, rfl⟩, hwaits⟩
    obtain ⟨receiver, hreceiver, hpause⟩ := hpause
    unfold Target.pause at hpause
    split at hpause
    next =>
      obtain ⟨-, hp⟩ := Flow.waits.inj hpause
      rw [← hp]
      rcases hreceiver with rfl | ⟨d, rfl⟩ <;> cases f <;> rfl
    next => cases hpause

/-- A handler takes an exception to its unwind block. -/
theorem Awaits.resume_exception {l : Landing} (h : Awaits sup a (some l)) (world : σ)
    (x : Exception) :
    a.function.flat = false ∧ ∃ e', a.pause.resume sup world (.error (.exception x)) = .again e' ∧
      Unwound l.frame sup l.block l.unwind x { a.pause.env with world, caught := some x } e' := by
  cases h with
  | @invoke setting f b result site normal unwind stmts e request hfunction hb hterm hentry hcode
      hwaits =>
    have hedge : unwind ∈ b.terminator.successors := by
      rw [hterm]
      exact List.mem_cons_of_mem _ List.mem_cons_self
    refine ⟨(lowered_of_function hfunction).flat_eq_false hb hedge, ?_⟩
    simp only [Frame.terminator, hterm, bind_eq_ok, pure_eq_ok] at hcode
    obtain ⟨code, hcode, rfl⟩ := hcode
    obtain ⟨c, -, -, hcode⟩ := Frame.call_of_no_entry hentry hcode
    simp only [Frame.matchOutcome, bind_eq_ok, pure_eq_ok] at hcode
    obtain ⟨normalSteps, -, unwindSteps, hunwind, rfl⟩ := hcode
    rw [List.cons_append, exec, Target.pause] at hwaits
    split at hwaits
    next =>
      obtain ⟨-, hp⟩ := Flow.waits.inj hwaits
      rw [← hp]
      obtain ⟨e', htakes, hrun⟩ := Frame.runSteps_edge hunwind sup
        (holdIn x { e with world, caught := some x })
      refine ⟨e', ?_, unwound_of_takes htakes⟩
      exact (runSteps_hold rfl _ _ unwindSteps).trans (hrun _ _)
    next => cases hwaits

/-! ## Whole stacks -/

/-- Faults leave the calls that let them through, one step for each. -/
theorem run_through (program : List Target.Function) (f : Fault)
    (inner outer : List (Activation σ))
    (h : ∀ a ∈ inner, ∀ world, a.pause.resume sup world (.error f) = .left world (.error f))
    (world : σ) :
    ∃ world', Machine.run sup program inner.length (.give world (.error f) (inner ++ outer))
      = some (.give world' (.error f) outer) := by
  induction inner generalizing world with
  | nil => exact ⟨world, rfl⟩
  | cons a inner ih =>
    obtain ⟨world', hrun⟩ := ih (fun a' ha' => h a' (List.mem_cons_of_mem a ha'))
      (if a.function.usesFrame then sup.leave world else world)
    refine ⟨world', Target.Machine.run_of_step ?_ hrun⟩
    rw [List.cons_append, Machine.step, h a List.mem_cons_self world]
    rfl

/-- An exception gets to the innermost handler of a stack. -/
theorem run_to_handler {inner outer : List (Activation σ)} {l : Landing}
    (hinner : ∀ a ∈ inner, Awaits sup a none) (ha : Awaits sup a (some l)) (x : Exception)
    (world : σ) :
    ∃ e' world', Machine.run sup program (inner.length + 1)
        (.give world (.error (.exception x)) (inner ++ a :: outer))
          = some (.run a.function e' outer) ∧
      Unwound l.frame sup l.block l.unwind x
        { a.pause.env with world := world', caught := some x } e' := by
  obtain ⟨world', hrun⟩ := run_through program (.exception x) inner (a :: outer)
    (fun a' ha' world => (hinner a' ha').resume_fault world _) world
  obtain ⟨hflat, e', hresume, hunwound⟩ := ha.resume_exception world' x
  refine ⟨e', world', ?_, hunwound⟩
  rw [Machine.run, hrun]
  show Machine.settle sup program a.function outer (a.pause.resume sup world' _) = _
  rw [hresume, Machine.settle, hflat]
  rfl

/-- **The nearest handler**. A routine that may raise is called without a handler or with one, and
each of its results leads where it should. Above it a stack of functions waits for calls: an
exception goes to the innermost handler, or out of all functions where there is none, and is the
same exception there; a trap goes out of all functions. -/
theorem nearest_handler (sup : Support σ) (program : List Target.Function) :
    (∀ (fr : Frame) (b : Block) (i : Instruction) (site : CallSite) (entry : Intrinsic.Entry)
        (stmts : List Stmt), fr.setting.profile.elideProvenChecks = false → i.op = .call site →
      fr.catalogued? site = some entry → entry.mayThrow = true → fr.instruction b i = .ok stmts →
      ∀ e : Env σ, ∃ path values,
        Attempts fr sup ⟨b, i.op.opcode⟩ site entry e stmts path values ∧
        ∀ r, sup.raising path values = some r →
          Propagates sup (fr.dest? i.result) e stmts r) ∧
    (∀ (fr : Frame) (b : Block) (result : Option ValueId) (site : CallSite)
        (normal unwind : BlockId) (entry : Intrinsic.Entry) (stmts : List Stmt),
      fr.setting.profile.elideProvenChecks = false →
      b.terminator = .invoke result site normal unwind → fr.catalogued? site = some entry →
      entry.mayThrow = true → fr.terminator b = .ok stmts →
      ∀ e : Env σ, ∃ path values,
        Attempts fr sup ⟨b, b.terminator.opcode⟩ site entry e stmts path values ∧
        ∀ r, sup.raising path values = some r →
          Handles fr sup b normal unwind (fr.dest? result) e stmts r) ∧
    (∀ (inner outer : List (Activation σ)) (a : Activation σ) (l : Landing) (x : Exception)
        (world : σ), (∀ a ∈ inner, Awaits sup a none) → Awaits sup a (some l) →
      ∃ e' world', Machine.run sup program (inner.length + 1)
          (.give world (.error (.exception x)) (inner ++ a :: outer))
            = some (.run a.function e' outer) ∧
        Unwound l.frame sup l.block l.unwind x
          { a.pause.env with world := world', caught := some x } e') ∧
    (∀ (stack : List (Activation σ)) (x : Exception) (world : σ),
      (∀ a ∈ stack, Awaits sup a none) →
      ∃ world', Machine.run sup program stack.length (.give world (.error (.exception x)) stack)
        = some (.give world' (.error (.exception x)) [])) ∧
    (∀ (stack : List (Activation σ)) (t : Trap) (world : σ),
      ∃ world', Machine.run sup program stack.length (.give world (.error (.trap t)) stack)
        = some (.give world' (.error (.trap t)) [])) := by
  refine ⟨?_, ?_, ?_, ?_, ?_⟩
  · intro fr b i site entry stmts helide hop hentry hthrow h e
    exact propagates_of_instruction helide hop hentry hthrow h e
  · intro fr b result site normal unwind entry stmts helide hterm hentry hthrow h e
    exact handles_of_terminator helide hterm hentry hthrow h e
  · intro inner outer a l x world hinner ha
    exact run_to_handler hinner ha x world
  · intro stack x world hstack
    obtain ⟨world', hrun⟩ := run_through program (.exception x) stack []
      (fun a ha world => (hstack a ha).resume_fault world _) world
    exact ⟨world', by rwa [List.append_nil] at hrun⟩
  · intro stack t world
    obtain ⟨world', hrun⟩ := run_through program (.trap t) stack []
      (fun a _ world => resume_trap a.pause world t) world
    exact ⟨world', by rwa [List.append_nil] at hrun⟩

/-- A support library in which every routine raises. -/
def raisingSupport : Support Unit where
  global _ := 0
  float _ _ := none
  raising _ _ := some ⟨.unit, some .divisionByZero⟩
  act _ _ _ := none
  external _ _ _ _ := (.ok .unit, ())
  enter := id
  leave := id

/-- The call of a routine that may raise, and that of the function it stands in. -/
def divisionSite : CallSite :=
  ⟨.direct ⟨0⟩, .int 8, [(.int 8, .const (.int 1)), (.int 8, .const (.int 0))]⟩

def recursiveSite : CallSite := ⟨.direct ⟨1⟩, .void, []⟩

def recursiveBlock : Block :=
  { id := ⟨0⟩, label := "a"
    instructions := [⟨some ⟨0⟩, .call divisionSite⟩, ⟨none, .call recursiveSite⟩]
    terminator := .invoke none recursiveSite ⟨1⟩ ⟨1⟩ }

/-- A function that calls itself twice, the second time with a handler. -/
def recursiveFunction : IR.Function :=
  { id := ⟨1⟩, name := "g", demangled := none, params := [], ret := .void, varargs := false
    isDeclaration := false, values := [⟨"q", .int 8⟩]
    blocks := [recursiveBlock,
      { id := ⟨1⟩, label := "b", instructions := [], terminator := .ret none }] }

def recursiveSetting : Setting :=
  { module := { functions := [
      { id := ⟨0⟩, name := "checked_div", demangled := none, params := [], ret := .int 8
        varargs := false, isDeclaration := true, values := [], blocks := [] },
      recursiveFunction] }
    profile := {}, globals := [], names := ["d", "g"] }

/-- The exception passes one call and is held by the handler of the next. -/
theorem nearest_handler_recursion :
    (∃ stmts, (frameOf recursiveSetting recursiveFunction).instruction recursiveBlock
        ⟨some ⟨0⟩, .call divisionSite⟩ = .ok stmts ∧
      ∀ (e : Env Unit) (rest : List Stmt),
        exec raisingSupport (stmts ++ rest) e
          = .left () (.error (.exception .divisionByZero))) ∧
    ∃ (inner a : Activation Unit) (e' : Env Unit), Awaits raisingSupport inner none ∧
      Machine.run raisingSupport [] 2 (.give () (.error (.exception .divisionByZero)) [inner, a])
        = some (.run a.function e' []) ∧
      e'.block = ⟨1⟩ ∧ e'.store .exception = .exception (some .divisionByZero) := by
  obtain ⟨hsite, -, hchain, -, -⟩ := nearest_handler raisingSupport []
  constructor
  · have hcode : okAnd ((frameOf recursiveSetting recursiveFunction).instruction recursiveBlock
        ⟨some ⟨0⟩, .call divisionSite⟩) (fun _ => true) = true := by decide +kernel
    obtain ⟨stmts, hstmts, -⟩ := exists_of_okAnd hcode
    have hentry : ∃ entry, (frameOf recursiveSetting recursiveFunction).catalogued? divisionSite
        = some entry ∧ entry.mayThrow = true := ⟨_, rfl, rfl⟩
    obtain ⟨entry, hentry, hthrow⟩ := hentry
    refine ⟨stmts, hstmts, fun e rest => ?_⟩
    obtain ⟨path, values, -, hr⟩ := hsite _ _ _ _ _ _ rfl rfl hentry hthrow hstmts e
    exact (hr _ rfl).raised _ rfl rest
  · have hfunction :
        okAnd (function recursiveSetting recursiveFunction) (fun _ => true) = true := by
      decide +kernel
    obtain ⟨t, ht, -⟩ := exists_of_okAnd hfunction
    let e : Env Unit := { world := (), store := fun _ => .unit, block := ⟨0⟩ }
    let inner : Activation Unit := ⟨t, e, .drop, []⟩
    let a : Activation Unit := ⟨t, e, .choose [.goto ⟨1⟩] [.hold, .goto ⟨1⟩], [.next]⟩
    have hinner : Awaits raisingSupport inner none :=
      @Awaits.call _ _ _ (frameOf recursiveSetting recursiveFunction) recursiveBlock
        ⟨none, .call recursiveSite⟩ recursiveSite _ [] e _ rfl rfl rfl rfl
    have ha : Awaits raisingSupport a
        (some ⟨frameOf recursiveSetting recursiveFunction, recursiveBlock, ⟨1⟩⟩) :=
      .invoke (e := e) ht List.mem_cons_self rfl rfl rfl rfl
    obtain ⟨e', world', hrun, hunwound⟩ := hchain [inner] [] a _ .divisionByZero ()
      (fun a' ha' => List.mem_singleton.mp ha' ▸ hinner) ha
    exact ⟨inner, a, e', hinner, hrun, hunwound.block, hunwound.slot⟩

end SafeIR.Lower
