import SafeIR.Proofs.Target.Value

/-!
# Running generated code

A function runs its statements until it leaves, asks for its next block, or waits for a call. What
waits for a call is a `Pause`; what a call gives back, a value or a fault, is handed to the topmost
pause, which goes on from there or leaves in turn. `Machine.step` takes one such stretch at a time,
so without calls it is one block.

Nothing is assumed about code here: an ill-typed operation, a branch to a block that is not there
or the end of a flat function gets stuck.
-/

namespace SafeIR.Target

open IR (BlockId)

variable {σ : Type}

/-! ## Actions and steps -/

/-- The arguments of a call. -/
def Call.args : Call → List Expr
  | .function _ args | .external _ args _ => args

/-- The generated function that is called, by its name. -/
def Call.name? : Call → Option String
  | .function name _ => some name
  | .external .. => none

/-- The operands of an action. -/
def Action.operands : Action → List Expr
  | .pure e | .toInt _ _ _ e | .alloca e _ | .load _ e => [e]
  | .checked _ _ l r | .store _ l r => [l, r]
  | .call (.function _ args) | .call (.external _ args _) | .intrinsic _ args _ _ => args

/-- A checked operation on two signed words of the width of a scalar. -/
def checkedWords (s : Layout.Scalar) (op : CheckedOp) : Value → Value → Option (Outcome Value)
  | .word true w x, .word true w' y =>
    if h : w' = w then
      if s.ty = .signed w then
        match op.eval x (h ▸ y) with
        | .ok z => some (.ok (.word true w z))
        | .error t => some (.error (.trap t))
      else none
    else none
  | _, _ => none

/-- The value of an expression that may take it out of a variable, which leaves none behind. -/
def Expr.evalTaking (sup : Support σ) (e : Env σ) : Expr → Option (Value × Env σ)
  | .take v => some (e.store v, e.set v (.exception Option.none))
  | x => (x.eval sup e).map (·, e)

/-- An expression that has a value by itself takes nothing. -/
theorem Expr.evalTaking_of_eval {sup : Support σ} {e : Env σ} {x : Expr} {v : Value}
    (h : x.eval sup e = some v) : x.evalTaking sup e = some (v, e) := by
  unfold evalTaking
  split
  next => cases h
  next =>
    rw [h]
    rfl

/-- The outcome of an action that is no call of a function. -/
def Action.eval (sup : Support σ) (e : Env σ) : Action → Option (Outcome Value × Env σ)
  | .pure x => (x.evalTaking sup e).map fun (v, e) => (.ok v, e)
  | .checked s op l r => do
    return (← checkedWords s op (← l.eval sup e) (← r.eval sup e), e)
  | .call _ => none
  | a => do
    let (o, world) ← sup.act a (← a.operands.mapM (Expr.eval sup e)) e.world
    return (o, { e with world })

theorem Action.eval_pure {sup : Support σ} {e : Env σ} {x : Expr} {v : Value}
    (h : x.eval sup e = some v) : (Action.pure x).eval sup e = some (.ok v, e) := by
  rw [Action.eval, Expr.evalTaking_of_eval h]
  rfl

/-- One step: the variables afterwards, or a fault. -/
def Step.eval (sup : Support σ) (e : Env σ) : Step → Option (Except Fault (Env σ) × σ)
  | .assign d a => (a.eval sup e).map fun (o, e) => (o.map (e.set d), e.world)
  | .run a => (a.eval sup e).map fun (o, e) => (o.map fun _ => e, e.world)
  | .copies pairs => do
    let values ← pairs.mapM fun p => (p.2.eval sup e).map (p.1, ·)
    return (.ok (e.setAll values), e.world)
  | .hold => e.caught.map fun x => (.ok (e.set .exception (.exception (some x))), e.world)
  | .goto b => some (.ok { e with block := b }, e.world)
  | .text _ => none

/-! ## Statements -/

/-- A call with its arguments. -/
inductive Request where
  | function (name : String) (args : List Value)
  | external (name : String) (args : List Value) (ret : Option Ty)

/-- What is done with the outcome of a call. -/
inductive Receiver where
  | keep (dest : Var)
  | drop
  | choose (normal raised : List Step)

/-- A function that waits for the outcome of a call. -/
structure Pause (σ : Type) where
  env : Env σ
  receiver : Receiver
  rest : List Stmt

/-- Where statements lead. -/
inductive Flow (σ : Type) where
  /-- The end of the statements. -/
  | fell (e : Env σ)
  /-- On to the next block. -/
  | again (e : Env σ)
  | left (world : σ) (o : Outcome Value)
  | waits (request : Request) (p : Pause σ)
  | stuck

/-- The call that a step makes, if it makes one. -/
def Step.call? : Step → Option (Receiver × Call)
  | .assign d (.call c) => some (.keep d, c)
  | .run (.call c) => some (.drop, c)
  | _ => none

/-- What a call asks for. -/
def Call.request (sup : Support σ) (e : Env σ) : Call → Option Request
  | .function name args => (args.mapM (Expr.eval sup e)).map (.function name)
  | .external name args ret => (args.mapM (Expr.eval sup e)).map (.external name · ret)

/-- Make a call and wait for it. -/
def pause (sup : Support σ) (c : Call) (receiver : Receiver) (rest : List Stmt) (e : Env σ) :
    Flow σ :=
  match c.request sup e with
  | some request => .waits request ⟨e, receiver, rest⟩
  | none => .stuck

/-- Run steps and then go on with `next`, which is what the statements in `rest` do. -/
def runSteps (sup : Support σ) (rest : List Stmt) (next : Env σ → Flow σ) :
    List Step → Env σ → Flow σ
  | [], e => next e
  | s :: steps, e =>
    match s.call? with
    | some (receiver, c) => pause sup c receiver (steps.map .step ++ rest) e
    | none =>
      match s.eval sup e with
      | none => .stuck
      | some (.error fault, world) => .left world (.error fault)
      | some (.ok e, _) => runSteps sup rest next steps e

/-- The steps of the first case that is equal to a value. -/
def chooseCase (sup : Support σ) (e : Env σ) (v : Value) (default : List Step) :
    List (Expr × List Step) → Option (List Step)
  | [] => some default
  | (c, steps) :: cases => do
    if (← c.eval sup e) = v then return steps else chooseCase sup e v default cases

/-- The exception that is to be raised again. -/
def pendingOf (e : Env σ) : Expr → Option (Option Exception)
  | .take v =>
    match e.store v with
    | .exception pending => some pending
    | _ => none
  | .none => some none
  | _ => none

/-- Statements run one after another. -/
def exec (sup : Support σ) : List Stmt → Env σ → Flow σ
  | [], e => .fell e
  | .step s :: rest, e => runSteps sup rest (exec sup rest) [s] e
  | .attempt path args :: rest, e =>
    match args.mapM (Expr.eval sup e) >>= sup.raising path with
    | some r => exec sup rest { e with result := some r }
    | none => .stuck
  | .propagate :: rest, e =>
    match e.result with
    | some ⟨_, some x⟩ => .left e.world (.error (.exception x))
    | some ⟨_, none⟩ => exec sup rest e
    | none => .stuck
  | .ifRaised raised normal :: rest, e =>
    match e.result with
    | some ⟨_, some x⟩ => runSteps sup rest (exec sup rest) raised { e with caught := some x }
    | some ⟨_, none⟩ => runSteps sup rest (exec sup rest) normal e
    | none => .stuck
  | .matchOutcome c normal raised :: rest, e => pause sup c (.choose normal raised) rest e
  | .ifElse cond yes no :: rest, e =>
    match cond.eval sup e with
    | some (.bool b) => runSteps sup rest (exec sup rest) (if b then yes else no) e
    | _ => .stuck
  | .switch v cases default :: rest, e =>
    match v.eval sup e >>= fun v => chooseCase sup e v default cases with
    | some steps => runSteps sup rest (exec sup rest) steps e
    | none => .stuck
  | .next :: _, e => .again e
  | .ret none :: _, e => .left e.world (.ok .unit)
  | .ret (some x) :: _, e =>
    match x.eval sup e with
    | some v => .left e.world (.ok v)
    | none => .stuck
  | .resume x :: _, e =>
    match pendingOf e x with
    | some pending => .left e.world (.error (Fault.resume pending))
    | none => .stuck
  | .unreachable :: _, e => .left e.world (.error (.trap .unreachable))

/-- Go on with the outcome of the call. An exception is for a receiver that chooses; all other
faults leave the function. -/
def Pause.resume (sup : Support σ) (p : Pause σ) (world : σ) (o : Outcome Value) : Flow σ :=
  let e := { p.env with world }
  match o, p.receiver with
  | .ok v, .keep d => exec sup p.rest (e.set d v)
  | .ok _, .drop => exec sup p.rest e
  | .ok v, .choose normal _ =>
    runSteps sup p.rest (exec sup p.rest) normal { e with outcome := some v }
  | .error (.exception x), .choose _ raised =>
    runSteps sup p.rest (exec sup p.rest) raised { e with caught := some x }
  | .error f, _ => .left world (.error f)

/-! ## The machine -/

/-- The first value of a variable. -/
def Local.first : Local → Option (Var × Value)
  | .scalar id s => some (.value id, .zero s)
  | .exception v => some (v, .exception none)
  | .text .. => none

/-- A function as it is called: the parameters have their arguments, the other variables their
first values, and the first block is next. -/
def Function.start (f : Function) (args : List Value) (world : σ) : Env σ :=
  Env.setAll { world, store := fun _ => .unit, block := ⟨0⟩ }
    ((f.params.map Prod.fst).zip args ++ f.locals.filterMap Local.first)

/-- The statements that run next. -/
def Function.code (f : Function) (b : BlockId) : Option (List Stmt) :=
  if f.flat then some f.blocks.flatten else f.blocks[b.index]?

/-- A function with the call it waits for. -/
structure Activation (σ : Type) where
  function : Function
  pause : Pause σ

/-- A function that runs, or an outcome for the one that waits. -/
inductive State (σ : Type) where
  | run (f : Function) (e : Env σ) (stack : List (Activation σ))
  /-- An outcome, for the topmost function that waits. -/
  | give (world : σ) (o : Outcome Value) (stack : List (Activation σ))

namespace Machine

variable (sup : Support σ) (program : List Function)

/-- What becomes of a function after a stretch of its code. A flat function cannot run on. -/
def settle (f : Function) (stack : List (Activation σ)) : Flow σ → Option (State σ)
  | .fell e | .again e => if f.flat then none else some (.run f e stack)
  | .left world o => some (.give (if f.usesFrame then sup.leave world else world) o stack)
  | .waits (.function name args) p =>
    match program.find? (·.name = name) with
    | some g =>
      if g.params.length = args.length then
        let world := if g.usesFrame then sup.enter p.env.world else p.env.world
        some (.run g (g.start args world) (⟨f, p⟩ :: stack))
      else none
    | none => none
  | .waits (.external name args ret) p =>
    let (o, world) := sup.external name args ret p.env.world
    some (.give world o (⟨f, p⟩ :: stack))
  | .stuck => none

/-- One stretch of code. An outcome that no function waits for stays. -/
def step : State σ → Option (State σ)
  | .run f e stack => f.code e.block >>= fun code => settle sup program f stack (exec sup code e)
  | .give world o [] => some (.give world o [])
  | .give world o (a :: stack) =>
    settle sup program a.function stack (a.pause.resume sup world o)

/-- So many steps. -/
def run : Nat → State σ → Option (State σ)
  | 0, s => some s
  | n + 1, s => run n s >>= step sup program

variable {sup program}

theorem run_succ_left (n : Nat) (s : State σ) :
    run sup program (n + 1) s = step sup program s >>= run sup program n := by
  induction n with
  | zero =>
    show step sup program s = step sup program s >>= some
    cases step sup program s <;> rfl
  | succ n ih =>
    rw [run, ih]
    cases step sup program s with
    | none => rfl
    | some s' => rfl

/-- Runs go on from where they got. -/
theorem run_of_step {n : Nat} {s s' t : State σ} (hstep : step sup program s = some s')
    (hrun : run sup program n s' = some t) : run sup program (n + 1) s = some t := by
  rw [run_succ_left, hstep]
  exact hrun

end Machine

/-! ## Sequences of steps -/

variable {sup : Support σ}

/-- Steps that stand as statements run as steps. -/
theorem exec_steps (steps : List Step) (rest : List Stmt) (e : Env σ) :
    exec sup (steps.map .step ++ rest) e = runSteps sup rest (exec sup rest) steps e := by
  induction steps generalizing e with
  | nil => rfl
  | cons s steps ih =>
    show runSteps sup (steps.map .step ++ rest) (exec sup (steps.map .step ++ rest)) [s] e = _
    simp only [runSteps, List.map_nil, List.nil_append]
    cases s.call? with
    | some c => rfl
    | none =>
      cases s.eval sup e with
      | none => rfl
      | some o =>
        obtain ⟨o, world⟩ := o
        cases o with
        | error f => rfl
        | ok e' => exact ih e'

theorem runSteps_append (steps steps' : List Step) (rest : List Stmt) (next : Env σ → Flow σ)
    (e : Env σ) :
    runSteps sup rest next (steps ++ steps') e
      = runSteps sup (steps'.map .step ++ rest) (runSteps sup rest next steps') steps e := by
  induction steps generalizing e with
  | nil => rfl
  | cons s steps ih =>
    simp only [List.cons_append, runSteps, List.map_append, List.append_assoc]
    cases s.call? with
    | some c => rfl
    | none =>
      cases s.eval sup e with
      | none => rfl
      | some o =>
        obtain ⟨o, world⟩ := o
        cases o with
        | error f => rfl
        | ok e' => exact ih e'

theorem runSteps_cons {rest : List Stmt} {next : Env σ → Flow σ} {s : Step} {steps : List Step}
    {e e' : Env σ} {w : σ} (hcall : s.call? = none) (hs : s.eval sup e = some (.ok e', w)) :
    runSteps sup rest next (s :: steps) e = runSteps sup rest next steps e' := by
  rw [runSteps, hcall, hs]

end SafeIR.Target
