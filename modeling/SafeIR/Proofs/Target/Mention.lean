import SafeIR.Proofs.Target.Machine

/-!
# The variables that code mentions

`Function.Closed`: every variable that a function mentions is a parameter or declared, once, and no
parameter is declared again. Code that is given as text may mention anything.
-/

namespace SafeIR.Target

/-- The variable stands in the expression; of a text, it may. -/
def Expr.Mentions (x : Var) : Expr → Prop
  | .var v | .clone v | .take v => x = v
  | .text _ => True
  | .paren e | .cast e _ | .not e | .neg e | .wrappingNeg e | .isNan e | .toBits e | .ofBits _ e =>
    e.Mentions x
  | .binary _ l r | .wrapping _ l r => l.Mentions x ∨ r.Mentions x
  | .ifElse cond yes no => cond.Mentions x ∨ yes.Mentions x ∨ no.Mentions x
  | .global _ | .int _ _ | .float _ _ | .zero _ | .bool _ | .number _ _ | .numeral _ | .resultValue
  | .outcomeValue | .none => False

/-- One of several expressions mentions a variable. -/
def anyMentions (x : Var) (es : List Expr) : Prop := ∃ e ∈ es, e.Mentions x

/-- The step reads the variable or assigns to it. -/
def Step.Mentions (x : Var) : Step → Prop
  | .assign d a => x = d ∨ anyMentions x a.operands
  | .run a => anyMentions x a.operands
  | .copies pairs => x ∈ pairs.map Prod.fst ∨ anyMentions x (pairs.map Prod.snd)
  | .hold => x = .exception
  | .goto _ => False
  | .text _ => True

/-- One of several steps mentions a variable. -/
def stepsMention (x : Var) (steps : List Step) : Prop := ∃ s ∈ steps, s.Mentions x

/-- The variable stands in the statement. -/
def Stmt.Mentions (x : Var) : Stmt → Prop
  | .step s => s.Mentions x
  | .attempt _ args => anyMentions x args
  | .ifRaised raised normal => stepsMention x raised ∨ stepsMention x normal
  | .matchOutcome c normal raised =>
    anyMentions x c.args ∨ stepsMention x normal ∨ stepsMention x raised
  | .ifElse cond yes no => cond.Mentions x ∨ stepsMention x yes ∨ stepsMention x no
  | .switch v cases default =>
    v.Mentions x ∨ anyMentions x (cases.map Prod.fst) ∨
      (∃ c ∈ cases, stepsMention x c.2) ∨ stepsMention x default
  | .ret (some e) | .resume e => e.Mentions x
  | .propagate | .next | .ret none | .unreachable => False

/-- One of several statements mentions a variable. -/
def stmtsMention (x : Var) (stmts : List Stmt) : Prop := ∃ s ∈ stmts, s.Mentions x

/-- The variable stands in some block. -/
def Function.Mentions (f : Function) (x : Var) : Prop := ∃ stmts ∈ f.blocks, stmtsMention x stmts

/-- The variable that is declared. -/
def Local.var : Local → Var
  | .scalar id _ => .value id
  | .exception v => v
  | .text name _ _ => .named name

/-- What is mentioned is declared, once. -/
structure Function.Closed (f : Function) : Prop where
  declared : ∀ x, f.Mentions x →
    x ∈ f.params.map Prod.fst ∨ (f.locals.map Local.var).count x = 1
  params : ∀ x ∈ f.params.map Prod.fst, x ∉ f.locals.map Local.var

/-! ## Parts of code -/

section

variable {x : Var}

@[simp] theorem anyMentions_nil : ¬ anyMentions x [] := by simp [anyMentions]

@[simp] theorem anyMentions_cons {e : Expr} {es : List Expr} :
    anyMentions x (e :: es) ↔ e.Mentions x ∨ anyMentions x es := by simp [anyMentions]

theorem anyMentions_append {es es' : List Expr} :
    anyMentions x (es ++ es') ↔ anyMentions x es ∨ anyMentions x es' := by
  simp [anyMentions, or_and_right, exists_or]

@[simp] theorem stepsMention_nil : ¬ stepsMention x [] := by simp [stepsMention]

@[simp] theorem stepsMention_cons {s : Step} {steps : List Step} :
    stepsMention x (s :: steps) ↔ s.Mentions x ∨ stepsMention x steps := by simp [stepsMention]

@[simp] theorem stepsMention_append {steps steps' : List Step} :
    stepsMention x (steps ++ steps') ↔ stepsMention x steps ∨ stepsMention x steps' := by
  simp [stepsMention, or_and_right, exists_or]

@[simp] theorem stmtsMention_nil : ¬ stmtsMention x [] := by simp [stmtsMention]

@[simp] theorem stmtsMention_cons {s : Stmt} {stmts : List Stmt} :
    stmtsMention x (s :: stmts) ↔ s.Mentions x ∨ stmtsMention x stmts := by simp [stmtsMention]

@[simp] theorem stmtsMention_append {stmts stmts' : List Stmt} :
    stmtsMention x (stmts ++ stmts') ↔ stmtsMention x stmts ∨ stmtsMention x stmts' := by
  simp [stmtsMention, or_and_right, exists_or]

@[simp] theorem stmtsMention_steps {steps : List Step} :
    stmtsMention x (steps.map .step) ↔ stepsMention x steps := by
  simp [stmtsMention, stepsMention, Stmt.Mentions]

end

end SafeIR.Target
