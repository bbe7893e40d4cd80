import SafeIR.Proofs.Target.Machine

/-!
# Paths through generated code

A path through statements takes one arm of every branch and may leave at every action that can
fail. It is given by the steps it makes and by how it ends: it leaves the function, goes on to the
next block, or falls off the end. `Stretch.runs` says that the machine only ever takes such paths,
whatever its variables hold and whatever the calls on the way give back.
-/

namespace SafeIR.Target

open IR (BlockId)

/-- How a path through statements ends. -/
inductive Ending where
  /-- Out of the function, by a value or a fault. -/
  | leaves
  /-- On to the next block. -/
  | continues
  /-- Off the end of the statements. -/
  | falls
  deriving DecidableEq, Repr

variable {steps : List Step} {rest : List Stmt} {e : Ending}

/-! ## Steps and statements -/

/-- The action may end the function with a fault: all but expressions are up to what they call. -/
def Action.mayFail : Action → Bool
  | .pure _ => false
  | _ => true

/-- The step can end with a fault. -/
def Step.mayFail : Step → Bool
  | .assign _ a | .run a => a.mayFail
  | _ => false

/-- The block that a step switches to. -/
def Step.switch? : Step → Option BlockId
  | .goto b => some b
  | _ => none

/-- The step sets a variable. Code that is given as text may set any. -/
def Step.Sets (x : Var) : Step → Prop
  | .assign d _ => x = d
  | .copies pairs => x ∈ pairs.map Prod.fst
  | .hold => x = .exception
  | .text _ => True
  | .run _ | .goto _ => False

/-- The block that is current behind some steps, where `b` is current before them. -/
def landing (b : BlockId) (steps : List Step) : BlockId :=
  (steps.filterMap Step.switch?).getLast?.getD b

namespace Stmt

/-- The steps of each way through a statement to the one behind it. -/
def arms : Stmt → List (List Step)
  | .step s => [[s]]
  | .attempt .. | .propagate => [[]]
  | .ifRaised raised normal => [raised, normal]
  | .matchOutcome _ normal raised => [normal, raised]
  | .ifElse _ yes no => [yes, no]
  | .switch _ cases default => cases.map Prod.snd ++ [default]
  | .next | .ret _ | .resume _ | .unreachable => []

/-- How a statement ends every path that reaches it, if it does. -/
def exit? : Stmt → Option Ending
  | .next => some .continues
  | .ret _ | .resume _ | .unreachable => some .leaves
  | _ => none

/-- The statement may leave the function before any of its arms. -/
def mayLeave : Stmt → Bool
  | .propagate | .matchOutcome .. => true
  | _ => false

end Stmt

/-! ## Paths -/

/-- The steps of a path through statements, and how it ends. -/
inductive Path : List Stmt → List Step → Ending → Prop
  | falls : Path [] [] .falls
  | exit {s : Stmt} {rest : List Stmt} {e : Ending} : s.exit? = some e → Path (s :: rest) [] e
  | leave {s : Stmt} {rest : List Stmt} : s.mayLeave = true → Path (s :: rest) [] .leaves
  | through {s : Stmt} {rest : List Stmt} {arm steps : List Step} {e : Ending} :
      arm ∈ s.arms → Path rest steps e → Path (s :: rest) (arm ++ steps) e
  | fail {s : Stmt} {rest : List Stmt} {done left : List Step} {x : Step} :
      done ++ x :: left ∈ s.arms → x.mayFail = true → Path (s :: rest) done .leaves

/-- The steps of a path through an arm and the statements behind it. -/
def Through (arm : List Step) (rest : List Stmt) (steps : List Step) (e : Ending) : Prop :=
  (∃ tail, steps = arm ++ tail ∧ Path rest tail e) ∨
    (e = .leaves ∧ ∃ x left, arm = steps ++ x :: left ∧ x.mayFail = true)

theorem Path.of_through {s : Stmt} {arm : List Step} (harm : arm ∈ s.arms)
    (h : Through arm rest steps e) : Path (s :: rest) steps e := by
  obtain ⟨tail, rfl, htail⟩ | ⟨rfl, x, left, rfl, hx⟩ := h
  · exact .through harm htail
  · exact .fail harm hx

/-- What a path through a statement and those behind it can be. -/
theorem Path.cons_iff {s : Stmt} :
    Path (s :: rest) steps e ↔ (steps = [] ∧ s.exit? = some e) ∨
      (steps = [] ∧ e = .leaves ∧ s.mayLeave = true) ∨
      ∃ arm ∈ s.arms, Through arm rest steps e := by
  constructor
  · intro h
    cases h with
    | exit he => exact .inl ⟨rfl, he⟩
    | leave hs => exact .inr (.inl ⟨rfl, rfl, hs⟩)
    | through harm htail => exact .inr (.inr ⟨_, harm, .inl ⟨_, rfl, htail⟩⟩)
    | fail harm hx => exact .inr (.inr ⟨_, harm, .inr ⟨rfl, _, _, rfl, hx⟩⟩)
  · rintro (⟨rfl, he⟩ | ⟨rfl, rfl, hs⟩ | ⟨arm, harm, h⟩)
    · exact .exit he
    · exact .leave hs
    · exact .of_through harm h

theorem Path.nil_iff : Path [] steps e ↔ steps = [] ∧ e = .falls := by
  constructor
  · intro h
    cases h
    exact ⟨rfl, rfl⟩
  · rintro ⟨rfl, rfl⟩
    exact .falls

/-- A path through steps that stand as statements is one through an arm. -/
theorem Path.steps_iff {arm : List Step} :
    Path (arm.map .step ++ rest) steps e ↔ Through arm rest steps e := by
  induction arm generalizing steps with
  | nil => simp [Through]
  | cons s arm ih =>
    rw [List.map_cons, List.cons_append, Path.cons_iff]
    simp only [Stmt.exit?, Stmt.mayLeave, Stmt.arms, List.mem_singleton, exists_eq_left,
      reduceCtorEq, and_false, Bool.false_eq_true, false_or]
    constructor
    · rintro (⟨tail, rfl, htail⟩ | ⟨rfl, x, left, hs, hx⟩)
      · obtain ⟨tail', rfl, htail'⟩ | ⟨rfl, x, left, rfl, hx⟩ := ih.mp htail
        · exact .inl ⟨tail', rfl, htail'⟩
        · exact .inr ⟨rfl, x, left, rfl, hx⟩
      · -- the step itself fails, and nothing was done before it
        obtain ⟨rfl, heq⟩ := List.append_eq_singleton_iff.mp hs.symm |>.resolve_right (by simp)
        cases heq
        exact .inr ⟨rfl, s, arm, rfl, hx⟩
    · rintro (⟨tail, rfl, htail⟩ | ⟨rfl, x, left, harm, hx⟩)
      · exact .inl ⟨arm ++ tail, rfl, ih.mpr (.inl ⟨tail, rfl, htail⟩)⟩
      · cases steps with
        | nil =>
          cases harm
          exact .inr ⟨rfl, s, [], rfl, hx⟩
        | cons s' steps =>
          cases harm
          exact .inl ⟨steps, rfl, ih.mpr (.inr ⟨rfl, x, left, rfl, hx⟩)⟩

/-- A path through statements ends in the first of them, or falls into the others. -/
theorem Path.append_iff {stmts : List Stmt} :
    Path (stmts ++ rest) steps e ↔ (e ≠ .falls ∧ Path stmts steps e) ∨
      ∃ done tail, steps = done ++ tail ∧ Path stmts done .falls ∧ Path rest tail e := by
  -- A path that falls out of the front goes on in the rest; any other ends in the front.
  induction stmts generalizing steps with
  | nil =>
    constructor
    · exact fun h => .inr ⟨[], steps, rfl, .falls, h⟩
    · rintro (⟨he, h⟩ | ⟨done, tail, rfl, hdone, htail⟩)
      · exact absurd (Path.nil_iff.mp h).2 he
      · obtain ⟨rfl, -⟩ := Path.nil_iff.mp hdone
        exact htail
  | cons s stmts ih =>
    rw [List.cons_append]
    constructor
    · intro h
      cases h with
      | exit he =>
        refine .inl ⟨?_, .exit he⟩
        rintro rfl
        cases s <;> cases he
      | leave hs => exact .inl ⟨by decide, .leave hs⟩
      | through harm htail =>
        obtain ⟨he, h⟩ | ⟨done, tail, rfl, hdone, h⟩ := ih.mp htail
        · exact .inl ⟨he, .through harm h⟩
        · exact .inr ⟨_, tail, (List.append_assoc ..).symm, .through harm hdone, h⟩
      | fail harm hx => exact .inl ⟨by decide, .fail harm hx⟩
    · rintro (⟨he, h⟩ | ⟨done, tail, rfl, hdone, h⟩)
      · cases h with
        | exit he => exact .exit he
        | leave hs => exact .leave hs
        | through harm htail => exact .through harm (ih.mpr (.inl ⟨he, htail⟩))
        | fail harm hx => exact .fail harm hx
      · cases hdone with
        | exit he => cases s <;> cases he
        | through harm hdone =>
          rw [List.append_assoc]
          exact .through harm (ih.mpr (.inr ⟨_, tail, rfl, hdone, h⟩))

/-! ## The machine takes paths -/

theorem landing_append (b : BlockId) (done steps : List Step) :
    landing b (done ++ steps) = landing (landing b done) steps := by
  simp only [landing, List.filterMap_append, List.getLast?_append]
  cases (steps.filterMap Step.switch?).getLast? <;> rfl

variable {σ : Type}

/-- The flow of code that takes the paths in `P`, where `b` is the current block before them. What
waits for a call has gone along a path so far, and goes on along one with every outcome. -/
def Runs (P : List Step → Ending → Prop) (b : BlockId) : Flow σ → Prop
  | .fell e => ∃ steps, P steps .falls ∧ e.block = landing b steps
  | .again e => ∃ steps, P steps .continues ∧ e.block = landing b steps
  | .left _ _ => ∃ steps, P steps .leaves
  | .waits _ p => ∃ done, p.env.block = landing b done ∧ P done .leaves ∧
    match p.receiver with
    | .keep _ | .drop => ∃ s, s.switch? = none ∧
        ∀ steps e, Path p.rest steps e → P (done ++ s :: steps) e
    | .choose normal raised => ∀ arm ∈ [normal, raised], ∀ steps e,
        Through arm p.rest steps e → P (done ++ steps) e
  | .stuck => True

/-- A flow along paths that come behind some steps. -/
theorem Runs.behind {P Q : List Step → Ending → Prop} {b : BlockId} {flow : Flow σ}
    (done : List Step) (hPQ : ∀ steps e, P steps e → Q (done ++ steps) e)
    (h : Runs P (landing b done) flow) : Runs Q b flow := by
  cases flow with
  | fell e | again e =>
    obtain ⟨steps, hP, hblock⟩ := h
    exact ⟨done ++ steps, hPQ _ _ hP, hblock.trans (landing_append ..).symm⟩
  | left world o =>
    obtain ⟨steps, hP⟩ := h
    exact ⟨done ++ steps, hPQ _ _ hP⟩
  | waits request p =>
    obtain ⟨done', hblock, hleave, hrest⟩ := h
    refine ⟨done ++ done', hblock.trans (landing_append ..).symm, hPQ _ _ hleave, ?_⟩
    obtain ⟨env, receiver, rest⟩ := p
    cases receiver with
    | keep _ | drop =>
      obtain ⟨s, hs, hrest⟩ := hrest
      refine ⟨s, hs, fun steps e hpath => ?_⟩
      rw [List.append_assoc]
      exact hPQ _ _ (hrest steps e hpath)
    | choose normal raised =>
      intro arm harm steps e hpath
      rw [List.append_assoc]
      exact hPQ _ _ (hrest arm harm steps e hpath)
  | stuck => trivial

/-- An action stays in its block. -/
theorem Action.eval_block {sup : Support σ} {a : Action} {e e' : Env σ} {o : Outcome Value}
    (h : a.eval sup e = some (o, e')) : e'.block = e.block := by
  cases a with
  | pure x =>
    obtain ⟨⟨v, e''⟩, hx, heq⟩ := Option.map_eq_some_iff.mp h
    cases heq
    unfold Expr.evalTaking at hx
    split at hx
    next =>
      cases hx
      rfl
    next =>
      obtain ⟨v', -, heq⟩ := Option.map_eq_some_iff.mp hx
      cases heq
      rfl
  | checked s op l r =>
    simp only [Action.eval, Option.bind_eq_bind, Option.bind_eq_some_iff, Option.pure_def] at h
    obtain ⟨_, -, _, -, _, -, heq⟩ := h
    cases heq
    rfl
  | call c => cases h
  | toInt _ _ _ _ | alloca _ _ | load _ _ | store _ _ _ | intrinsic _ _ _ _ =>
    simp only [Action.eval, Option.bind_eq_bind, Option.bind_eq_some_iff, Option.pure_def] at h
    obtain ⟨_, -, _, -, heq⟩ := h
    cases heq
    rfl

/-- A step leaves the current block alone unless it switches. -/
theorem Step.eval_block {sup : Support σ} {s : Step} {e e' : Env σ} {w : σ}
    (h : s.eval sup e = some (.ok e', w)) : e'.block = landing e.block [s] := by
  cases s with
  | assign d a | run a =>
    obtain ⟨⟨o, e''⟩, ha, heq⟩ := Option.map_eq_some_iff.mp h
    have hblock := Action.eval_block ha
    cases o <;> cases heq
    exact hblock
  | copies pairs =>
    obtain ⟨values, -, heq⟩ := Option.bind_eq_some_iff.mp h
    cases heq
    exact (Env.setAll_frame e values).2.1
  | hold =>
    obtain ⟨x, -, heq⟩ := Option.map_eq_some_iff.mp h
    cases heq
    rfl
  | goto b =>
    cases h
    rfl
  | text _ => cases h

/-- A step fails only if it may. -/
theorem Step.mayFail_of_eval {sup : Support σ} {s : Step} {e : Env σ} {f : Fault} {w : σ}
    (h : s.eval sup e = some (.error f, w)) : s.mayFail = true := by
  cases s with
  | assign d a | run a =>
    cases a with
    | pure x =>
      obtain ⟨⟨o, e'⟩, ha, heq⟩ := Option.map_eq_some_iff.mp h
      obtain ⟨_, -, heq'⟩ := Option.map_eq_some_iff.mp ha
      cases heq'
      cases heq
    | checked _ _ _ _ | toInt _ _ _ _ | alloca _ _ | load _ _ | store _ _ _ | call _
    | intrinsic _ _ _ _ => rfl
  | copies pairs =>
    obtain ⟨values, -, heq⟩ := Option.bind_eq_some_iff.mp h
    cases heq
  | hold =>
    obtain ⟨x, -, heq⟩ := Option.map_eq_some_iff.mp h
    cases heq
  | goto b => cases h
  | text _ => cases h

theorem Step.of_call? {s : Step} {receiver : Receiver} {c : Call}
    (h : s.call? = some (receiver, c)) :
    s.mayFail = true ∧ s.switch? = none ∧ (receiver = .drop ∨ ∃ d, receiver = .keep d) := by
  unfold Step.call? at h
  split at h <;> cases h
  · exact ⟨rfl, rfl, .inr ⟨_, rfl⟩⟩
  · exact ⟨rfl, rfl, .inl rfl⟩

/-- Steps run along the paths through an arm. -/
theorem runSteps_runs {sup : Support σ} {next : Env σ → Flow σ}
    (hnext : ∀ e, Runs (Path rest) e.block (next e)) (arm : List Step) (e : Env σ) :
    Runs (Through arm rest) e.block (runSteps sup rest next arm e) := by
  induction arm generalizing e with
  | nil => exact Runs.behind [] (fun steps _ h => .inl ⟨steps, rfl, h⟩) (hnext e)
  | cons s arm ih =>
    rw [runSteps]
    -- a path through the remaining steps is one through all of them, behind the first
    have hbehind :
        ∀ steps e, Through arm rest steps e → Through (s :: arm) rest ([s] ++ steps) e := by
      rintro steps e (⟨tail, rfl, htail⟩ | ⟨rfl, x, left, rfl, hx⟩)
      · exact .inl ⟨tail, rfl, htail⟩
      · exact .inr ⟨rfl, x, left, rfl, hx⟩
    split
    next receiver c hcall =>
      obtain ⟨hfail, hswitch, hreceiver⟩ := Step.of_call? hcall
      unfold pause
      split
      next request _ =>
        refine ⟨[], rfl, .inr ⟨rfl, s, arm, rfl, hfail⟩, ?_⟩
        obtain rfl | ⟨d, rfl⟩ := hreceiver <;>
          exact ⟨s, hswitch, fun steps e hpath => hbehind steps e (Path.steps_iff.mp hpath)⟩
      next => trivial
    next =>
      split
      next => trivial
      next f w heval => exact ⟨[], .inr ⟨rfl, s, arm, rfl, Step.mayFail_of_eval heval⟩⟩
      next e' w heval => exact Runs.behind [s] hbehind (Step.eval_block heval ▸ ih e')

theorem chooseCase_mem {sup : Support σ} {e : Env σ} {v : Value} {default : List Step}
    {cases : List (Expr × List Step)} (h : chooseCase sup e v default cases = some steps) :
    steps ∈ cases.map Prod.snd ++ [default] := by
  induction cases with
  | nil =>
    cases h
    exact List.mem_singleton_self _
  | cons c cases ih =>
    rw [chooseCase] at h
    obtain ⟨v', -, h⟩ := Option.bind_eq_some_iff.mp h
    split at h
    next =>
      cases h
      exact List.mem_cons_self
    next => exact List.mem_cons_of_mem _ (ih h)

/-- **Code runs along its paths**, whatever the variables hold. -/
theorem exec_runs (sup : Support σ) (stmts : List Stmt) (e : Env σ) :
    Runs (Path stmts) e.block (exec sup stmts e) := by
  induction stmts generalizing e with
  | nil => exact ⟨[], .falls, rfl⟩
  | cons s rest ih =>
    -- to run an arm and then the rest is to take a path through the statement
    have harm : ∀ (e' : Env σ), e'.block = e.block → ∀ arm ∈ s.arms,
        Runs (Path (s :: rest)) e.block (runSteps sup rest (exec sup rest) arm e') :=
      fun e' he arm h => he ▸ Runs.behind [] (fun _ _ => Path.of_through h)
        (runSteps_runs ih arm e')
    have hnil : ∀ (e' : Env σ), e'.block = e.block → [] ∈ s.arms →
        Runs (Path (s :: rest)) e.block (exec sup rest e') :=
      fun e' he h => he ▸ Runs.behind [] (fun _ _ => Path.through h) (ih e')
    cases s with
    | step s => exact harm e rfl _ (.head _)
    | attempt path args =>
      rw [exec]
      split
      next => exact hnil _ rfl (.head _)
      next => trivial
    | propagate =>
      rw [exec]
      split
      next => exact ⟨[], .leave rfl⟩
      next => exact hnil e rfl (.head _)
      next => trivial
    | ifRaised raised normal =>
      rw [exec]
      split
      next x _ => exact harm { e with caught := some x } rfl _ (.head _)
      next => exact harm e rfl _ (.tail _ (.head _))
      next => trivial
    | matchOutcome c normal raised =>
      rw [exec, pause]
      split
      next => exact ⟨[], rfl, .leave rfl, fun arm h _ _ => Path.of_through h⟩
      next => trivial
    | ifElse cond yes no =>
      rw [exec]
      split
      next b _ =>
        cases b with
        | true => exact harm e rfl _ (.head _)
        | false => exact harm e rfl _ (.tail _ (.head _))
      next => trivial
    | switch v cases default =>
      rw [exec]
      split
      next steps h =>
        obtain ⟨v', -, hchoose⟩ := Option.bind_eq_some_iff.mp h
        exact harm e rfl _ (chooseCase_mem hchoose)
      next => trivial
    | next => exact ⟨[], .exit rfl, rfl⟩
    | ret value =>
      cases value with
      | none => exact ⟨[], .exit rfl⟩
      | some x =>
        rw [exec]
        split
        next => exact ⟨[], .exit rfl⟩
        next => trivial
    | resume x =>
      rw [exec]
      split
      next => exact ⟨[], .exit rfl⟩
      next => trivial
    | unreachable => exact ⟨[], .exit rfl⟩

/-- **Calls come back to a path**: with every outcome of the call it waits for, the code goes on
along one of its paths. -/
theorem Runs.resume {P : List Step → Ending → Prop} {b : BlockId} {request : Request}
    {p : Pause σ} (h : Runs P b (.waits request p)) (sup : Support σ) (world : σ)
    (o : Outcome Value) : Runs P b (p.resume sup world o) := by
  obtain ⟨env, receiver, rest⟩ := p
  obtain ⟨done, hblock, hleave, hrest⟩ := h
  -- The steps done before the pause stay in front of what the rest does.
  have hexec : ∀ (s : Step), s.switch? = none →
      (∀ steps e, Path rest steps e → P (done ++ s :: steps) e) → ∀ e' : Env σ,
      e'.block = env.block → Runs P b (exec sup rest e') := by
    intro s hs hpath e' he
    have hbehind : ∀ steps e, Path rest steps e → P (done ++ [s] ++ steps) e := by
      intro steps e h
      rw [List.append_assoc]
      exact hpath steps e h
    refine Runs.behind (done ++ [s]) hbehind ?_
    have hlanding : landing b (done ++ [s]) = e'.block := by
      rw [landing_append, ← hblock, he]
      simp [landing, hs]
    rw [hlanding]
    exact exec_runs sup rest e'
  have harm : ∀ arm, (∀ steps e, Through arm rest steps e → P (done ++ steps) e) →
      ∀ e' : Env σ, e'.block = env.block →
      Runs P b (runSteps sup rest (exec sup rest) arm e') := by
    intro arm hpath e' he
    refine Runs.behind done hpath ?_
    rw [← hblock, ← he]
    exact runSteps_runs (exec_runs sup rest) arm e'
  cases receiver with
  | keep _ | drop =>
    obtain ⟨s, hs, hpath⟩ := hrest
    cases o with
    | ok v => exact hexec s hs hpath _ rfl
    | error f => cases f <;> exact ⟨done, hleave⟩
  | choose normal raised =>
    cases o with
    | ok v => exact harm normal (hrest normal (.head _)) _ rfl
    | error f =>
      cases f with
      | exception x => exact harm raised (hrest raised (.tail _ (.head _))) _ rfl
      | trap t => exact ⟨done, hleave⟩

/-- What running statements comes to: at once, or after any number of calls on the way, each with
any outcome. -/
inductive Stretch (sup : Support σ) (stmts : List Stmt) (e : Env σ) : Flow σ → Prop
  | start : Stretch sup stmts e (exec sup stmts e)
  | resume {request : Request} {p : Pause σ} (world : σ) (o : Outcome Value) :
      Stretch sup stmts e (.waits request p) → Stretch sup stmts e (p.resume sup world o)

/-- A stretch of code runs along one path, however many calls it makes. -/
theorem Stretch.runs {sup : Support σ} {stmts : List Stmt} {e : Env σ} {flow : Flow σ}
    (h : Stretch sup stmts e flow) : Runs (Path stmts) e.block flow := by
  induction h with
  | start => exact exec_runs sup stmts e
  | resume world o _ ih => exact ih.resume sup world o

end SafeIR.Target
