import SafeIR.Proofs.Lower.Call
import SafeIR.Proofs.Target.Mention

/-!
# The code of instructions, by their form

What lowering gives for each form of call, instruction and terminator, with everything that was
computed on the way. A proof about all generated code is by cases on `BinaryCode`, `CallCode`,
`Code` and `ExitCode`, and does not open the lowering itself.
-/

namespace SafeIR.Lower

open IR (Block BlockId CallSite Operand Typed ValueId)
open Layout (Scalar)
open Target (Action Call Expr Step Stmt Var)

/-! ## Arithmetic -/

/-- The steps of an arithmetic operation: the result is an expression over both operands or a
checked operation on them, and of two promises one is checked before. -/
inductive BinaryCode (dest : Var) (s : Scalar) (l r : Expr) : List Step → Prop
  | pure {e : Expr} : (∀ x, e.Mentions x ↔ l.Mentions x ∨ r.Mentions x) →
      BinaryCode dest s l r [.assign dest (.pure e)]
  | checked {op : CheckedOp} : BinaryCode dest s l r [.assign dest (.checked s op l r)]
  | both {op op' : CheckedOp} :
      BinaryCode dest s l r [.run (.checked s op l r), .assign dest (.checked s op' l r)]

/-- Arithmetic has the code of one of the forms. -/
theorem binaryCode_of_binary {dest : Var} {op : BinaryOp} {s : Scalar} {l r : Expr}
    {flags : WrapFlags} {overflow : Overflow} {steps : List Step}
    (h : binary dest op s l r flags overflow = .ok steps) : BinaryCode dest s l r steps := by
  have hpromised : ∀ {nsw nuw : Bool} {signed unsigned : CheckedOp} {plain : Expr},
      (∀ x, plain.Mentions x ↔ l.Mentions x ∨ r.Mentions x) →
      BinaryCode dest s l r (promised dest s l r nsw nuw signed unsigned plain) := by
    intro nsw nuw signed unsigned plain hplain
    cases nsw <;> cases nuw
    · exact .pure hplain
    · exact .checked
    · exact .checked
    · exact .both
  cases s with
  | int bits =>
    cases op with
    | add | sub | mul | shl =>
      cases h
      exact hpromised fun _ => Iff.rfl
    | sdiv | udiv | srem | urem =>
      cases h
      exact .checked
    | and | or | xor =>
      cases h
      exact .pure fun _ => Iff.rfl
    | lshr | ashr =>
      simp only [binary, intBinary] at h
      split at h
      · cases h
        exact .checked
      · cases h
        exact .pure fun _ => Iff.rfl
    | fadd | fsub | fmul | fdiv | frem => cases h
  | bool | f32 | f64 => cases op <;> cases h <;> exact .pure fun _ => Iff.rfl
  | ptr => cases h

namespace Frame

variable {fr : Frame} {stmts : List Stmt}

/-! ## Calls -/

/-- The way out of an intrinsic that does not raise: under a handler, along the normal edge. -/
def exitOf (fr : Frame) (source : Block) (edges : Option Edges) : Result (List Stmt) :=
  match edges with
  | some edges => do return (← fr.edge source edges.normal).map .step
  | none => return []

/-- The code of a call, by its callee and by whether there is a handler. -/
inductive CallCode (fr : Frame) (s : Site) (site : CallSite) (dest : Option Var) :
    Option Edges → List Stmt → Prop
  /-- A call of a function of the module or the host. -/
  | waits {c : Call} : fr.catalogued? site = none → fr.operands s site.args = .ok c.args →
      CallCode fr s site dest none [.step (into dest (.call c))]
  | chooses {c : Call} {edges : Edges} {normal unwind : List Step} :
      fr.catalogued? site = none → fr.operands s site.args = .ok c.args →
      fr.edge s.block edges.normal = .ok normal → fr.edge s.block edges.unwind = .ok unwind →
      CallCode fr s site dest (some edges) [.matchOutcome c
        ((dest.map fun d => Step.assign d (.pure .outcomeValue)).toList ++ normal)
        (.hold :: unwind)]
  /-- An intrinsic without an effect. -/
  | skips {entry : Intrinsic.Entry} {edges : Option Edges} {tail : List Stmt} :
      fr.catalogued? site = some entry → entry.strategy = .noOp →
      fr.exitOf s.block edges = .ok tail → CallCode fr s site dest edges tail
  /-- An intrinsic that does not raise. -/
  | acts {entry : Intrinsic.Entry} {path : String} {args args' : List Expr}
      {fallible memory : Bool} {edges : Option Edges} {tail : List Stmt} :
      fr.catalogued? site = some entry → entry.mayThrow = false → entry.strategy ≠ .noOp →
      fr.operands s (site.args.take entry.arity) = .ok args →
      args' ∈ [args, castArgs entry.casts args] → fr.exitOf s.block edges = .ok tail →
      CallCode fr s site dest edges
        (.step (into dest (.intrinsic path args' fallible memory)) :: tail)
  /-- An intrinsic that may raise. -/
  | raises {entry : Intrinsic.Entry} {path : String} {args : List Expr} {scalar : Option Scalar}
      {edges : Option Edges} {stmts : List Stmt} :
      fr.catalogued? site = some entry → entry.mayThrow = true →
      fr.operands s (site.args.take entry.arity) = .ok args →
      fr.overload s entry (site.args.take entry.arity) = .ok scalar →
      fr.IsRaising s.block edges
        { entry, path, args, constants := (site.args.take entry.arity).map fun a => a.2.asInt?
          bits := scalar.map Scalar.bits, dest } stmts →
      CallCode fr s site dest edges stmts

theorem callCode_of_intrinsic {s : Site} {entry : Intrinsic.Entry} {name : String} {site : CallSite}
    {dest : Option Var} {edges : Option Edges} (hentry : fr.catalogued? site = some entry)
    (hthrow : entry.mayThrow = false) (h : fr.intrinsic s entry name site dest edges = .ok stmts) :
    fr.CallCode s site dest edges stmts := by
  unfold intrinsic at h
  simp only at h
  split at h
  next hnone => exact .skips hentry hnone h
  next hsome =>
    split at h
    next => cases h
    next =>
      obtain ⟨args, hargs, h⟩ := bind_eq_ok.mp h
      obtain ⟨scalar, -, h⟩ := bind_eq_ok.mp h
      have hacts : ∀ {path : String} {args' : List Expr} {fallible memory : Bool},
          args' ∈ [args, castArgs entry.casts args] →
          (do
            let tail ← fr.exitOf s.block edges
            return Stmt.step (into dest (.intrinsic path args' fallible memory)) :: tail)
            = .ok stmts → fr.CallCode s site dest edges stmts := by
        intro path args' fallible memory hargs' hcode
        obtain ⟨tail, htail, hcode⟩ := bind_eq_ok.mp hcode
        rw [← pure_eq_ok.mp hcode]
        exact .acts hentry hthrow hsome hargs hargs' htail
      split at h
      next => cases h
      next path _ =>
        -- the check of the overload has no part in the code
        cases hstrategy : entry.strategy with
        | pure _ | fallible _ =>
          simp only [hstrategy] at h
          cases scalar with
          | none => exact hacts List.mem_cons_self h
          | some scalar =>
            obtain ⟨_, -, h⟩ := bind_eq_ok.mp h
            exact hacts List.mem_cons_self h
        | memory _ =>
          simp only [hstrategy] at h
          cases scalar with
          | none => exact hacts (List.mem_cons_of_mem _ List.mem_cons_self) h
          | some scalar =>
            obtain ⟨_, -, h⟩ := bind_eq_ok.mp h
            exact hacts (List.mem_cons_of_mem _ List.mem_cons_self) h
        | mayThrow _ => simp [Intrinsic.Entry.mayThrow, hstrategy] at hthrow
        | noOp => contradiction

theorem callCode_of_call {s : Site} {site : CallSite} {dest : Option Var} {edges : Option Edges}
    (h : fr.call s site dest edges = .ok stmts) : fr.CallCode s site dest edges stmts := by
  cases hentry : fr.catalogued? site with
  | none =>
    obtain ⟨c, hargs, -, h⟩ := call_of_no_entry hentry h
    cases edges with
    | none =>
      subst h
      exact .waits hentry hargs
    | some edges =>
      obtain ⟨normal, hnormal, h⟩ := bind_eq_ok.mp h
      obtain ⟨unwind, hunwind, h⟩ := bind_eq_ok.mp h
      cases h
      exact .chooses hentry hargs hnormal hunwind
  | some entry =>
    obtain ⟨name, h⟩ := call_of_entry hentry h
    by_cases hthrow : entry.mayThrow = true
    · obtain ⟨path, args, scalar, hargs, hscalar, -, hraising⟩ := exists_isRaising hthrow h
      exact .raises hentry hthrow hargs hscalar hraising
    · exact callCode_of_intrinsic hentry (Bool.eq_false_iff.mpr hthrow) h

/-! ## Instructions -/

/-- The code of an operation with its result. -/
inductive Code (fr : Frame) (s : Site) (result : Option ValueId) : IR.Op → List Stmt → Prop
  | binary {op : BinaryOp} {flags : WrapFlags} {ty : IR.Ty} {l r : Operand} {scalar : Scalar}
      {l' r' : Expr} {d : Var} {steps : List Step} : fr.scalar s ty = .ok scalar →
      fr.operand s ty l = .ok l' → fr.operand s ty r = .ok r' → fr.dest? result = some d →
      Lower.binary d op scalar l' r' flags fr.setting.profile.overflow = .ok steps →
      Code fr s result (.binary op flags ty l r) (steps.map .step)
  | icmp {pred : IntPredicate} {ty : IR.Ty} {l r : Operand} {scalar : Scalar} {l' r' : Expr}
      {d : Var} : fr.scalar s ty = .ok scalar → fr.operand s ty l = .ok l' →
      fr.operand s ty r = .ok r' → fr.dest? result = some d →
      Code fr s result (.icmp pred ty l r)
        [.step (.assign d (.pure (Lower.icmp pred scalar l' r')))]
  | fcmp {pred : FloatPredicate} {ty : IR.Ty} {l r : Operand} {scalar : Scalar} {l' r' : Expr}
      {d : Var} : fr.scalar s ty = .ok scalar → fr.operand s ty l = .ok l' →
      fr.operand s ty r = .ok r' → fr.dest? result = some d →
      Code fr s result (.fcmp pred ty l r) [.step (.assign d (.pure (Lower.fcmp pred l' r')))]
  | fneg {ty : IR.Ty} {v : Operand} {scalar : Scalar} {v' : Expr} {d : Var} :
      fr.scalar s ty = .ok scalar → fr.operand s ty v = .ok v' → fr.dest? result = some d →
      Code fr s result (.fneg ty v) [.step (.assign d (.pure (.neg v')))]
  | select {ty : IR.Ty} {cond yes no : Operand} {scalar : Scalar} {cond' yes' no' : Expr}
      {d : Var} : fr.scalar s ty = .ok scalar → fr.operand s (.int 1) cond = .ok cond' →
      fr.operand s ty yes = .ok yes' → fr.operand s ty no = .ok no' → fr.dest? result = some d →
      Code fr s result (.select ty cond yes no)
        [.step (.assign d (.pure (.ifElse cond' yes' no')))]
  | cast {op : CastOp} {source target : IR.Ty} {v : Operand} {scalar scalar' : Scalar} {v' : Expr}
      {d : Var} {a : Action} : fr.scalar s source = .ok scalar →
      fr.scalar s target = .ok scalar' → fr.operand s source v = .ok v' →
      fr.dest? result = some d → cast? op scalar scalar' v' = some a →
      Code fr s result (.cast op source target v) [.step (.assign d a)]
  | alloca {ty : IR.Ty} {count : Option Operand} {align : Option Nat} {layout : Layout}
      {size : Expr} {d : Var} {n : Nat} : fr.allocationSize s layout.size count = .ok size →
      fr.dest? result = some d →
      Code fr s result (.alloca ty count align) [.step (.assign d (.alloca size n))]
  | load {ty : IR.Ty} {address : Operand} {scalar : Scalar} {address' : Expr} {d : Var} :
      fr.scalar s ty = .ok scalar → fr.operand s .ptr address = .ok address' →
      fr.dest? result = some d →
      Code fr s result (.load ty address) [.step (.assign d (.load scalar address'))]
  | store {ty : IR.Ty} {v address : Operand} {scalar : Scalar} {v' address' : Expr} :
      fr.scalar s ty = .ok scalar → fr.operand s ty v = .ok v' →
      fr.operand s .ptr address = .ok address' →
      Code fr s result (.store ty v address) [.step (.run (.store scalar address' v'))]
  | gep {source : IR.Ty} {base : Operand} {indices : List Typed} {base' : Expr} {offset : Int}
      {terms : List (Expr × Int)} {d : Var} : fr.operand s .ptr base = .ok base' →
      fr.offsets s source indices = .ok (offset, terms) → fr.dest? result = some d →
      Code fr s result (.gep source base indices)
        [.step (.assign d (.pure (address base' offset terms)))]
  | phi {ty : IR.Ty} {incoming : List (Operand × BlockId)} : Code fr s result (.phi ty incoming) []
  | call {site : CallSite} {stmts : List Stmt} : fr.call s site (fr.dest? result) none = .ok stmts →
      Code fr s result (.call site) stmts
  | landingpad {ty : IR.Ty} {cleanup : Bool} {clauses : Nat} {d : Var} :
      fr.dest? result = some d →
      Code fr s result (.landingpad ty cleanup clauses)
        [.step (.assign d (.pure (.take .exception)))]

theorem dest?_of_dest {s : Site} {result : Option ValueId} {what : String} {d : Var}
    (h : fr.dest s result what = .ok d) : fr.dest? result = some d := by
  unfold dest at h
  split at h
  next hd =>
    cases h
    exact hd
  next => cases h

/-- Every instruction has the code of its form. -/
theorem code_of_instruction {b : Block} {i : IR.Instruction} (h : fr.instruction b i = .ok stmts) :
    fr.Code ⟨b, i.op.opcode⟩ i.result i.op stmts := by
  obtain ⟨result, op⟩ := i
  -- Every bind that succeeded is a premise of the constructor for the operation.
  cases op with
  | binary op flags ty l r =>
    obtain ⟨scalar, hscalar, h⟩ := bind_eq_ok.mp h
    obtain ⟨l', hl, h⟩ := bind_eq_ok.mp h
    obtain ⟨r', hr, h⟩ := bind_eq_ok.mp h
    obtain ⟨d, hd, h⟩ := bind_eq_ok.mp h
    split at h
    next steps hsteps =>
      cases h
      exact .binary hscalar hl hr (dest?_of_dest hd) hsteps
    next => cases h
  | icmp pred ty l r =>
    obtain ⟨scalar, hscalar, h⟩ := bind_eq_ok.mp h
    obtain ⟨l', hl, h⟩ := bind_eq_ok.mp h
    obtain ⟨r', hr, h⟩ := bind_eq_ok.mp h
    obtain ⟨d, hd, h⟩ := bind_eq_ok.mp h
    cases h
    exact .icmp hscalar hl hr (dest?_of_dest hd)
  | fcmp pred ty l r =>
    obtain ⟨scalar, hscalar, h⟩ := bind_eq_ok.mp h
    split at h
    next => cases h
    next =>
      obtain ⟨l', hl, h⟩ := bind_eq_ok.mp h
      obtain ⟨r', hr, h⟩ := bind_eq_ok.mp h
      obtain ⟨d, hd, h⟩ := bind_eq_ok.mp h
      cases h
      exact .fcmp hscalar hl hr (dest?_of_dest hd)
  | fneg ty v =>
    obtain ⟨scalar, hscalar, h⟩ := bind_eq_ok.mp h
    split at h
    next => cases h
    next =>
      obtain ⟨v', hv, h⟩ := bind_eq_ok.mp h
      obtain ⟨d, hd, h⟩ := bind_eq_ok.mp h
      cases h
      exact .fneg hscalar hv (dest?_of_dest hd)
  | select ty cond yes no =>
    obtain ⟨scalar, hscalar, h⟩ := bind_eq_ok.mp h
    obtain ⟨cond', hcond, h⟩ := bind_eq_ok.mp h
    obtain ⟨yes', hyes, h⟩ := bind_eq_ok.mp h
    obtain ⟨no', hno, h⟩ := bind_eq_ok.mp h
    obtain ⟨d, hd, h⟩ := bind_eq_ok.mp h
    cases h
    exact .select hscalar hcond hyes hno (dest?_of_dest hd)
  | cast op source target v =>
    obtain ⟨scalar, hscalar, h⟩ := bind_eq_ok.mp h
    obtain ⟨scalar', hscalar', h⟩ := bind_eq_ok.mp h
    obtain ⟨v', hv, h⟩ := bind_eq_ok.mp h
    obtain ⟨d, hd, h⟩ := bind_eq_ok.mp h
    split at h
    next a ha =>
      cases h
      exact .cast hscalar hscalar' hv (dest?_of_dest hd) ha
    next => cases h
  | alloca ty count align =>
    obtain ⟨layout, -, h⟩ := bind_eq_ok.mp h
    obtain ⟨size, hsize, h⟩ := bind_eq_ok.mp h
    obtain ⟨d, hd, h⟩ := bind_eq_ok.mp h
    cases h
    exact .alloca hsize (dest?_of_dest hd)
  | load ty address =>
    obtain ⟨scalar, hscalar, h⟩ := bind_eq_ok.mp h
    obtain ⟨address', haddress, h⟩ := bind_eq_ok.mp h
    obtain ⟨d, hd, h⟩ := bind_eq_ok.mp h
    cases h
    exact .load hscalar haddress (dest?_of_dest hd)
  | store ty v address =>
    obtain ⟨scalar, hscalar, h⟩ := bind_eq_ok.mp h
    obtain ⟨v', hv, h⟩ := bind_eq_ok.mp h
    obtain ⟨address', haddress, h⟩ := bind_eq_ok.mp h
    cases h
    exact .store hscalar hv haddress
  | gep source base indices =>
    obtain ⟨base', hbase, h⟩ := bind_eq_ok.mp h
    obtain ⟨⟨offset, terms⟩, hoffsets, h⟩ := bind_eq_ok.mp h
    obtain ⟨d, hd, h⟩ := bind_eq_ok.mp h
    cases h
    exact .gep hbase hoffsets (dest?_of_dest hd)
  | phi ty incoming =>
    cases h
    exact .phi
  | call site => exact .call h
  | landingpad ty cleanup clauses =>
    obtain ⟨d, hd, h⟩ := bind_eq_ok.mp h
    cases h
    exact .landingpad (dest?_of_dest hd)

/-! ## Terminators -/

/-- The code of a terminator. -/
inductive ExitCode (fr : Frame) (s : Site) : IR.Terminator → List Stmt → Prop
  | retNone : ExitCode fr s (.ret none) [.ret none]
  | ret {ty : IR.Ty} {v : Operand} {v' : Expr} : fr.operand s ty v = .ok v' →
      ExitCode fr s (.ret (some (ty, v))) [.ret (some v')]
  | br {target : BlockId} {steps : List Step} : fr.edge s.block target = .ok steps →
      ExitCode fr s (.br target) (steps.map .step ++ [.next])
  | condBr {cond : Operand} {yes no : BlockId} {cond' : Expr} {yes' no' : List Step} :
      fr.operand s (.int 1) cond = .ok cond' → fr.edge s.block yes = .ok yes' →
      fr.edge s.block no = .ok no' →
      ExitCode fr s (.condBr cond yes no) [.ifElse cond' yes' no', .next]
  | switch {ty : IR.Ty} {v : Operand} {default : BlockId} {cases : List (Int × BlockId)}
      {scalar : Scalar} {v' : Expr} {cases' : List (Expr × List Step)} {default' : List Step} :
      fr.scalar s ty = .ok scalar → fr.operand s ty v = .ok v' →
      List.Forall₂ (fun c c' => c'.1 = Expr.int c.1 scalar ∧ fr.edge s.block c.2 = .ok c'.2)
        cases cases' →
      fr.edge s.block default = .ok default' →
      ExitCode fr s (.switch ty v default cases) [.switch v' cases' default', .next]
  | invoke {result : Option ValueId} {site : CallSite} {normal unwind : BlockId}
      {stmts : List Stmt} :
      fr.call s site (fr.dest? result) (some ⟨normal, unwind⟩) = .ok stmts →
      ExitCode fr s (.invoke result site normal unwind) (stmts ++ [.next])
  | resume {v : ValueId} : ExitCode fr s (.resume (.value v)) [.resume (.take (.value v))]
  | resumeNone {o : Operand} : (∀ v, o ≠ .value v) → ExitCode fr s (.resume o) [.resume .none]
  | unreachable : ExitCode fr s .unreachable [.unreachable]

/-- Every terminator has the code of its form. -/
theorem exitCode_of_terminator {b : Block} (h : fr.terminator b = .ok stmts) :
    fr.ExitCode ⟨b, b.terminator.opcode⟩ b.terminator stmts := by
  unfold terminator at h
  cases hterm : b.terminator with
  | ret v =>
    rw [hterm] at h
    cases v with
    | none =>
      cases h
      exact .retNone
    | some v =>
      obtain ⟨v', hv, h⟩ := bind_eq_ok.mp h
      cases h
      exact .ret hv
  | br target =>
    rw [hterm] at h
    obtain ⟨steps, hsteps, h⟩ := bind_eq_ok.mp h
    cases h
    exact .br hsteps
  | condBr cond yes no =>
    rw [hterm] at h
    obtain ⟨cond', hcond, h⟩ := bind_eq_ok.mp h
    obtain ⟨yes', hyes, h⟩ := bind_eq_ok.mp h
    obtain ⟨no', hno, h⟩ := bind_eq_ok.mp h
    cases h
    exact .condBr hcond hyes hno
  | switch ty v default cases =>
    rw [hterm] at h
    obtain ⟨scalar, hscalar, h⟩ := bind_eq_ok.mp h
    obtain ⟨v', hv, h⟩ := bind_eq_ok.mp h
    obtain ⟨cases', hcases, h⟩ := bind_eq_ok.mp h
    obtain ⟨default', hdefault, h⟩ := bind_eq_ok.mp h
    cases h
    refine .switch hscalar hv ((mapM_eq_ok.mp hcases).imp fun c c' hc => ?_) hdefault
    obtain ⟨steps, hsteps, hc⟩ := bind_eq_ok.mp hc
    cases hc
    exact ⟨rfl, hsteps⟩
  | invoke result site normal unwind =>
    rw [hterm] at h
    obtain ⟨code, hcode, h⟩ := bind_eq_ok.mp h
    cases h
    exact .invoke hcode
  | resume o =>
    rw [hterm] at h
    cases o with
    | value v =>
      cases h
      exact .resume
    | const _ | global _ | function _ | metadata _ =>
      cases h
      exact .resumeNone nofun
  | unreachable =>
    rw [hterm] at h
    cases h
    exact .unreachable

theorem block_eq_ok {b : Block} (h : fr.block b = .ok stmts) :
    ∃ body exit, List.Forall₂ (fun i code => fr.instruction b i = .ok code) b.instructions body ∧
      fr.terminator b = .ok exit ∧ stmts = body.flatten ++ exit := by
  obtain ⟨body, hbody, h⟩ := bind_eq_ok.mp h
  obtain ⟨exit, hexit, h⟩ := bind_eq_ok.mp h
  cases h
  exact ⟨body, exit, mapM_eq_ok.mp hbody, hexit, rfl⟩

end Frame

end SafeIR.Lower
