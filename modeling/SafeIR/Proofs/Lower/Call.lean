import SafeIR.Proofs.Lower.Edge

/-!
# Calls in generated code

What the code of a call does, by the kind of its callee. A routine that may raise is called at
once, and the check behind the call sends an exception out of the function or, under a handler,
along the unwind edge. Any other call waits, and its receiver says what an outcome leads to.
-/

namespace SafeIR.Lower

open IR (Block BlockId CallSite Typed)
open Target (Env Expr Flow Pause Receiver Step Stmt Support Var exec runSteps)

variable {σ : Type} {sup : Support σ} {e : Env σ}

/-! ## Receiving a value -/

/-- A value goes into its variable, if it has one. -/
def keepIn (dest : Option Var) (v : Target.Value) (e : Env σ) : Env σ :=
  match dest with
  | some d => e.set d v
  | none => e

/-- An exception goes into its slot. -/
def holdIn (x : Exception) (e : Env σ) : Env σ := e.set .exception (.exception (some x))

theorem runSteps_keep {x : Expr} {v : Target.Value} (h : x.eval sup e = some v) (dest : Option Var)
    (rest : List Stmt) (next : Env σ → Flow σ) (steps : List Step) :
    runSteps sup rest next ((dest.map fun d => Step.assign d (.pure x)).toList ++ steps) e
      = runSteps sup rest next steps (keepIn dest v e) := by
  cases dest with
  | none => rfl
  | some d =>
    refine Target.runSteps_cons (w := e.world) rfl ?_
    rw [Step.eval, Target.Action.eval_pure h]
    rfl

theorem runSteps_hold {x : Exception} (h : e.caught = some x) (rest : List Stmt)
    (next : Env σ → Flow σ) (steps : List Step) :
    runSteps sup rest next (.hold :: steps) e = runSteps sup rest next steps (holdIn x e) := by
  refine Target.runSteps_cons (w := e.world) rfl ?_
  rw [Step.eval, h]
  rfl

/-! ## Routines that may raise -/

namespace Throwing

theorem canElide_false (c : Throwing) : c.canElide false = false := by
  unfold canElide
  split <;> rfl

/-- Without a handler an exception leaves the function, and nothing behind the call runs. -/
theorem exec_propagate {c : Throwing} {values : List Target.Value} {r : Emulated Target.Value}
    (hargs : c.args.mapM (Expr.eval sup e) = some values) (hr : sup.raising c.path values = some r)
    (rest : List Stmt) :
    exec sup (c.lower false .propagate ++ rest) e =
      match r.pending with
      | some x => .left e.world (.error (.exception x))
      | none => exec sup rest (keepIn c.dest r.value { e with result := some r }) := by
  have hkeep : exec sup (c.takeValue.map .step ++ .propagate :: rest) { e with result := some r }
      = exec sup (.propagate :: rest) (keepIn c.dest r.value { e with result := some r }) := by
    rw [Target.exec_steps, ← List.append_nil c.takeValue]
    exact runSteps_keep rfl c.dest _ _ []
  have hresult : (keepIn c.dest r.value { e with result := some r }).result = some r ∧
      (keepIn c.dest r.value { e with result := some r }).world = e.world := by
    cases c.dest <;> exact ⟨rfl, rfl⟩
  rw [lower, canElide_false]
  simp only [Bool.false_eq_true, if_false, List.cons_append, List.append_assoc, List.nil_append]
  rw [exec, hargs, Option.bind_eq_bind, Option.bind_some, hr]
  simp only
  rw [hkeep, exec, hresult.1]
  obtain ⟨value, pending⟩ := r
  cases pending with
  | none => rfl
  | some x =>
    simp only
    rw [hresult.2]

/-- Under a handler an exception is held and takes the unwind edge; a value is kept and takes the
normal one. -/
theorem exec_invoke {c : Throwing} {values : List Target.Value} {r : Emulated Target.Value}
    (hargs : c.args.mapM (Expr.eval sup e) = some values) (hr : sup.raising c.path values = some r)
    (normal unwind : List Step) (rest : List Stmt) :
    exec sup (c.lower false (.invoke normal unwind) ++ rest) e =
      match r.pending with
      | some x => runSteps sup rest (exec sup rest) unwind
          (holdIn x { e with result := some r, caught := some x })
      | none => runSteps sup rest (exec sup rest) normal
          (keepIn c.dest r.value { e with result := some r }) := by
  rw [lower, canElide_false]
  simp only [Bool.false_eq_true, if_false, List.cons_append, List.nil_append]
  rw [exec, hargs, Option.bind_eq_bind, Option.bind_some, hr]
  simp only
  rw [exec]
  obtain ⟨value, pending⟩ := r
  cases pending with
  | none => exact runSteps_keep rfl c.dest _ _ normal
  | some x => exact runSteps_hold rfl _ _ unwind

end Throwing

/-! ## Callees -/

namespace Frame

variable {fr : Frame} {s : Site} {site : CallSite} {dest : Option Var} {edges : Option Edges}
  {stmts : List Stmt}

/-- The entry of the catalog that a call is to, if it is to one. -/
def catalogued? (fr : Frame) (site : CallSite) : Option Intrinsic.Entry :=
  match site.callee with
  | .indirect _ => none
  | .direct f =>
    match fr.setting.module.functions[f.index]? with
    | some callee =>
      if callee.isDeclaration then Intrinsic.lookUp Intrinsic.catalog callee.name else none
    | none => none

theorem operands_evaluate {args : List Typed} {xs : List Expr} (h : fr.operands s args = .ok xs)
    (sup : Support σ) (e : Env σ) : ∃ values, xs.mapM (Expr.eval sup e) = some values := by
  have hall := mapM_eq_ok.mp h
  clear h
  induction hall with
  | nil => exact ⟨[], rfl⟩
  | cons hx _ ih =>
    obtain ⟨v, hv⟩ := operand_evaluates hx sup e
    obtain ⟨values, hvalues⟩ := ih
    exact ⟨v :: values, by simp [hv, hvalues]⟩

/-- What comes behind a choice between two computations gets a result of one of them. -/
theorem exists_of_ite_bind {p : Prop} [Decidable p] {α β γ : Type} {x : Result α} {f : α → β}
    {b : β} {k : β → Result γ} {c : γ}
    (h : (if p then (do k (← pure (f (← x)))) else (do k (← pure b))) = .ok c) :
    ∃ b, k b = .ok c := by
  split at h
  next =>
    obtain ⟨a, -, h⟩ := bind_eq_ok.mp h
    exact ⟨f a, h⟩
  next => exact ⟨b, h⟩

/-- A call of an entry of the catalog is an intrinsic. -/
theorem call_of_entry {entry : Intrinsic.Entry} (hentry : fr.catalogued? site = some entry)
    (h : fr.call s site dest edges = .ok stmts) :
    ∃ name, fr.intrinsic s entry name site dest edges = .ok stmts := by
  unfold catalogued? at hentry
  unfold call at h
  split at hentry
  next => cases hentry
  next f hf =>
    simp only [hf] at h
    split at hentry
    next callee hcallee =>
      simp only [hcallee] at h
      split at hentry
      next hdecl =>
        obtain ⟨ret, h⟩ := exists_of_ite_bind h
        simp only [hdecl, Bool.not_true, Bool.false_eq_true, if_false, hentry] at h
        exact ⟨callee.name, h⟩
      next => cases hentry
    next => cases hentry

/-- The code of any other call: it waits, and with a handler it chooses by the outcome. -/
theorem call_of_no_entry (hentry : fr.catalogued? site = none)
    (h : fr.call s site dest edges = .ok stmts) :
    ∃ c, fr.operands s site.args = .ok c.args ∧ (∀ name ∈ c.name?, name ∈ fr.setting.names) ∧
      match edges with
      | none => stmts = [.step (into dest (.call c))]
      | some edges => fr.matchOutcome s.block c dest edges = .ok stmts := by
  unfold catalogued? at hentry
  unfold call at h
  split at h
  next => cases h
  next f hf =>
    rw [hf] at hentry
    split at h
    next => cases h
    next callee hcallee =>
      simp only [hcallee] at hentry
      obtain ⟨ret, h⟩ := exists_of_ite_bind h
      split at h
      next =>
        split at h
        next => cases h
        next =>
          obtain ⟨args, hargs, h⟩ := bind_eq_ok.mp h
          split at h
          next => cases h
          next name hname =>
            have hnamed : ∀ name' ∈ some name, name' ∈ fr.setting.names := by
              rintro _ ⟨⟩
              exact List.mem_of_getElem? hname
            refine ⟨.function name args, hargs, hnamed, ?_⟩
            cases edges with
            | none => exact (pure_eq_ok.mp h).symm
            | some edges => exact h
      next hdecl =>
        rw [Bool.not_eq_true, Bool.not_eq_false'] at hdecl
        rw [if_pos hdecl] at hentry
        rw [hentry] at h
        simp only at h
        split at h
        next => cases h
        next =>
          obtain ⟨args, hargs, h⟩ := bind_eq_ok.mp h
          cases edges with
          | none =>
            exact ⟨.external _ args _, hargs, by simp [Target.Call.name?], (pure_eq_ok.mp h).symm⟩
          | some edges => exact ⟨.external _ args _, hargs, by simp [Target.Call.name?], h⟩

/-- The code for a routine that may raise, under the handler that there is. -/
def IsRaising (fr : Frame) (block : Block) (edges : Option Edges) (c : Throwing)
    (stmts : List Stmt) : Prop :=
  match edges with
  | none => stmts = c.lower fr.setting.profile.elideProvenChecks .propagate
  | some edges => ∃ normal unwind, fr.edge block edges.normal = .ok normal ∧
      fr.edge block edges.unwind = .ok unwind ∧
      stmts = c.lower fr.setting.profile.elideProvenChecks (.invoke normal unwind)

/-- What a call of an entry that may raise is the code for: the routine that its first argument
selects, at its arguments and the constants among them. -/
theorem exists_isRaising {entry : Intrinsic.Entry} {name : String} (hthrow : entry.mayThrow = true)
    (h : fr.intrinsic s entry name site dest edges = .ok stmts) :
    ∃ path args scalar, fr.operands s (site.args.take entry.arity) = .ok args ∧
      fr.overload s entry (site.args.take entry.arity) = .ok scalar ∧
      entry.path? (scalar.map Layout.Scalar.typeName) = some path ∧
      fr.IsRaising s.block edges
        { entry, path, args, constants := (site.args.take entry.arity).map fun a => a.2.asInt?
          bits := scalar.map Layout.Scalar.bits, dest } stmts := by
  obtain ⟨function, hstrategy⟩ : ∃ function, entry.strategy = .mayThrow function := by
    unfold Intrinsic.Entry.mayThrow at hthrow
    split at hthrow
    next function hstrategy => exact ⟨function, hstrategy⟩
    next => cases hthrow
  unfold intrinsic at h
  simp only [hstrategy, reduceCtorEq, if_false] at h
  split at h
  next => cases h
  next =>
    obtain ⟨args, hargs, h⟩ := bind_eq_ok.mp h
    obtain ⟨scalar, hscalar, h⟩ := bind_eq_ok.mp h
    split at h
    next => cases h
    next path hpath =>
      refine ⟨path, args, scalar, hargs, hscalar, hpath, ?_⟩
      -- the check of the overload has no part in the code
      cases edges with
      | none =>
        cases scalar with
        | none => exact (pure_eq_ok.mp h).symm
        | some scalar =>
          obtain ⟨_, -, h⟩ := bind_eq_ok.mp h
          exact (pure_eq_ok.mp h).symm
      | some edges =>
        let c : Throwing :=
          { entry, path, args, constants := (site.args.take entry.arity).map fun a => a.2.asInt?
            bits := scalar.map Layout.Scalar.bits, dest }
        have hedges : ∃ normal, fr.edge s.block edges.normal = .ok normal ∧
            ∃ unwind, fr.edge s.block edges.unwind = .ok unwind ∧
              c.lower fr.setting.profile.elideProvenChecks (.invoke normal unwind) = stmts := by
          cases scalar with
          | none => simpa only [bind_eq_ok, pure_eq_ok, pure_bind] using h
          | some scalar =>
            obtain ⟨_, -, h⟩ := bind_eq_ok.mp h
            simpa only [bind_eq_ok, pure_eq_ok, pure_bind] using h
        obtain ⟨normal, hnormal, unwind, hunwind, hstmts⟩ := hedges
        exact ⟨normal, unwind, hnormal, hunwind, hstmts.symm⟩

end Frame

end SafeIR.Lower
