import Mathlib.Data.List.Perm.Basic
import SafeIR.Proofs.Lower.Code
import SafeIR.Proofs.Reader.Producer
import SafeIR.Proofs.Target.Path

/-!
# The control-flow graph of generated code

The blocks of generated code go where the blocks they were made from go. Every path through the
code of a block leaves the function, or assigns the phis of one successor at once, switches to it
and goes on (`Settled`). A call with a handler that cannot raise has no path to the handler; every
other successor has one.

The code of a block is straight up to its last fork. Along a straight part no path switches or sets
a phi, so it is enough to look at the arms of the fork. No phi is set there because no value is made
in two places: what the instructions of a block compute is no phi of any block.
-/

namespace SafeIR.Lower

open IR (Block BlockId CallSite Operand Phi ValueId)
open Target (Action Ending Env Expr Flow Path Step Stmt Stretch Support Through Var)

variable {steps : List Step} {stmts : List Stmt} {target : BlockId} {dest : Option Var}

/-! ## Phis and other values -/

/-- What an instruction that is no phi makes. -/
def computed? (i : IR.Instruction) : Option ValueId := if i.phi?.isSome then none else i.result

/-- The values that a block makes otherwise than by phis. -/
def computed (b : Block) : List ValueId :=
  b.instructions.filterMap computed? ++ b.terminator.result?.toList

/-- What instructions make is made by the phis among them and by the others. -/
theorem perm_results (is : List IR.Instruction) :
    (is.filterMap IR.Instruction.result).Perm
      ((is.filterMap IR.Instruction.phi?).map Phi.dest ++ is.filterMap computed?) := by
  induction is with
  | nil => exact .nil
  | cons i is ih =>
    cases hphi : i.phi? with
    | some p =>
      simp only [List.filterMap_cons, computed?, hphi, (IR.Instruction.eq_of_phi? hphi).2,
        Option.isSome_some, if_true, List.map_cons, List.cons_append]
      exact ih.cons _
    | none =>
      simp only [List.filterMap_cons, computed?, hphi, Option.isSome_none, Bool.false_eq_true,
        if_false]
      cases i.result with
      | none => exact ih
      | some v => exact (ih.cons v).trans List.perm_middle.symm

/-- Where no value is made in two places, a phi is not computed by any block. -/
theorem phi_not_computed {f : IR.Function} (h : f.made.Nodup) {b b' : Block} (hb : b ∈ f.blocks)
    (hb' : b' ∈ f.blocks) {p : Phi} (hp : p ∈ b'.phis) : p.dest ∉ computed b := by
  have hperm : f.made.Perm
      ((f.blocks.flatMap fun b => b.phis.map Phi.dest) ++ f.blocks.flatMap computed) := by
    refine .trans (.flatMap_left _ fun b _ => ?_) (List.flatMap_append_perm ..).symm
    rw [IR.Block.made, computed, ← List.append_assoc]
    exact (perm_results b.instructions).append_right _
  have hapart := (List.nodup_append.mp (hperm.nodup_iff.mp h)).2.2
  intro hmem
  refine hapart p.dest (List.mem_flatMap.mpr ⟨b', hb', List.mem_map_of_mem hp⟩) p.dest ?_ rfl
  exact List.mem_flatMap.mpr ⟨b, hb, hmem⟩

/-! ## Straight code -/

/-- No step switches blocks. -/
def Stays (steps : List Step) : Prop := ∀ s ∈ steps, s.switch? = none

theorem stays_nil : Stays [] := by simp [Stays]

theorem stays_append {steps' : List Step} :
    Stays (steps ++ steps') ↔ Stays steps ∧ Stays steps' := List.forall_mem_append

namespace Frame

variable {fr : Frame}

/-- The variable is no phi of the function. -/
def Free (fr : Frame) (x : Var) : Prop :=
  ∀ b ∈ fr.function.blocks, ∀ p ∈ b.phis, x ≠ .value p.dest

/-- No step switches blocks or sets a phi. -/
def Spares (fr : Frame) (steps : List Step) : Prop :=
  ∀ s ∈ steps, s.switch? = none ∧ ∀ x, s.Sets x → fr.Free x

theorem spares_nil : fr.Spares [] := by simp [Spares]

theorem spares_append {steps' : List Step} :
    fr.Spares (steps ++ steps') ↔ fr.Spares steps ∧ fr.Spares steps' := List.forall_mem_append

theorem Spares.stays (h : fr.Spares steps) : Stays steps := fun s hs => (h s hs).1

theorem free_exception : fr.Free .exception := fun _ _ _ _ h => nomatch h

theorem spares_assign {dest : Var} (h : fr.Free dest) (a : Action) :
    fr.Spares [.assign dest a] := by
  intro s hs
  obtain rfl := List.mem_singleton.mp hs
  exact ⟨rfl, fun x hx => hx ▸ h⟩

theorem spares_run (a : Action) : fr.Spares [.run a] := by
  intro s hs
  obtain rfl := List.mem_singleton.mp hs
  exact ⟨rfl, fun x hx => hx.elim⟩

theorem spares_hold : fr.Spares [.hold] := by
  intro s hs
  obtain rfl := List.mem_singleton.mp hs
  exact ⟨rfl, fun x hx => hx ▸ free_exception⟩

/-- The statement has one way through it, which sets no phi. It may leave the function. -/
def Straight (fr : Frame) (s : Stmt) : Prop :=
  s.exit? = none ∧ ∃ arm, s.arms = [arm] ∧ fr.Spares arm

theorem straight_step {s : Step} (h : fr.Spares [s]) : fr.Straight (.step s) := ⟨rfl, [s], rfl, h⟩

theorem straight_map_step (h : fr.Spares steps) : ∀ s ∈ steps.map Stmt.step, fr.Straight s := by
  intro s hs
  obtain ⟨step, hstep, rfl⟩ := List.mem_map.mp hs
  exact straight_step fun x hx => h x (List.mem_singleton.mp hx ▸ hstep)

/-- A path through straight code leaves the function or falls off the end, and sets no phi. -/
theorem path_straight (hstraight : ∀ s ∈ stmts, fr.Straight s) {e : Ending}
    (h : Path stmts steps e) : fr.Spares steps ∧ e ≠ .continues := by
  induction h with
  | falls => exact ⟨spares_nil, by decide⟩
  | exit he =>
    rw [(hstraight _ List.mem_cons_self).1] at he
    cases he
  | leave => exact ⟨spares_nil, by decide⟩
  | through harm _ ih =>
    obtain ⟨-, arm, harms, hspares⟩ := hstraight _ List.mem_cons_self
    obtain rfl : _ = arm := List.mem_singleton.mp (harms ▸ harm)
    obtain ⟨hrest, he⟩ := ih fun s hs => hstraight s (List.mem_cons_of_mem _ hs)
    exact ⟨spares_append.mpr ⟨hspares, hrest⟩, he⟩
  | fail harm =>
    obtain ⟨-, arm, harms, hspares⟩ := hstraight _ List.mem_cons_self
    obtain rfl : _ = arm := List.mem_singleton.mp (harms ▸ harm)
    exact ⟨(spares_append.mp hspares).1, by decide⟩

/-- There is a path through straight code to its end. -/
theorem exists_path_straight (h : ∀ s ∈ stmts, fr.Straight s) :
    ∃ steps, Path stmts steps .falls := by
  induction stmts with
  | nil => exact ⟨[], .falls⟩
  | cons s stmts ih =>
    obtain ⟨steps, hsteps⟩ := ih fun s hs => h s (List.mem_cons_of_mem _ hs)
    obtain ⟨-, arm, harms, -⟩ := h s List.mem_cons_self
    exact ⟨arm ++ steps, .through (harms ▸ List.mem_singleton_self arm) hsteps⟩

/-! ## Arriving at a block -/

/-- The code for a phi when control comes from a block: its first entry for that block. A value
that holds an exception is copied as it is, and has none where the entry is no value. -/
def Carries (fr : Frame) (source : Block) (p : Phi) (x : Var × Expr) : Prop :=
  x.1 = .value p.dest ∧ ∃ o, p.incoming.find? (·.2 = source.id) = some (o, source.id) ∧
    if p.dest ∈ fr.exceptions then
      x.2 = match o with
        | .value v => .clone (.value v)
        | _ => .none
    else fr.operand ⟨source, "phi"⟩ p.ty o = .ok x.2

/-- The steps that assign to variables at once: none for no variable, an assignment for one, and
for several one step that sets all of them. -/
inductive AtOnce : List (Var × Expr) → List Step → Prop
  | none : AtOnce [] []
  | one {dest : Var} {e : Expr} : AtOnce [(dest, e)] [.assign dest (.pure e)]
  | several {x y : Var × Expr} {pairs : List (Var × Expr)} :
      AtOnce (x :: y :: pairs) [.copies (x :: y :: pairs)]

theorem atOnce_copies (pairs : List (Var × Expr)) : AtOnce pairs (copies pairs) := by
  match pairs with
  | [] => exact .none
  | [(_, _)] => exact .one
  | _ :: _ :: _ => exact .several

theorem AtOnce.stays {pairs : List (Var × Expr)} (h : AtOnce pairs steps) : Stays steps := by
  cases h <;> simp [Stays, Step.switch?]

/-- Steps that end with the switch to a block, right behind one assignment at once to all phis of
that block, and to nothing else; without phis there is no assignment. The steps in front of it set
no phi and do not switch. -/
def Lands (fr : Frame) (source : Block) (target : BlockId) (steps : List Step) : Prop :=
  ∃ before assigned block pairs, steps = before ++ assigned ++ [.goto target] ∧
    fr.Spares before ∧ AtOnce pairs assigned ∧
    fr.function.blocks[target.index]? = some block ∧
    List.Forall₂ (fr.Carries source) block.phis pairs

variable {source : Block}

theorem carries_of_arrival {target : Block} {p : Phi} {x : Var × Expr}
    (h : fr.arrival source target p.dest p.ty p.incoming = .ok x) : fr.Carries source p x := by
  unfold arrival at h
  split at h
  next => cases h
  next o id hfind =>
    have hid : id = source.id := by simpa using List.find?_some hfind
    subst hid
    split at h
    next hexception =>
      split at h <;> cases h <;> exact ⟨rfl, _, hfind, by simp [hexception]⟩
    next hexception =>
      obtain ⟨e, he, h⟩ := bind_eq_ok.mp h
      cases h
      exact ⟨rfl, o, hfind, by rwa [if_neg hexception]⟩

/-- The code of an edge lands at its target. -/
theorem lands_of_edge (h : fr.edge source target = .ok steps) : fr.Lands source target steps := by
  obtain ⟨block, pairs, hblock, hpairs, rfl⟩ := edge_eq_ok.mp h
  rw [arrivals_eq_mapM, mapM_eq_ok] at hpairs
  exact ⟨[], _, block, pairs, rfl, spares_nil, atOnce_copies pairs, hblock,
    hpairs.imp fun _ _ => carries_of_arrival⟩

theorem Lands.prepend {before : List Step} (hbefore : fr.Spares before)
    (h : fr.Lands source target steps) : fr.Lands source target (before ++ steps) := by
  obtain ⟨before', assigned, block, pairs, rfl, hbefore', hassigned, hblock, hpairs⟩ := h
  exact ⟨before ++ before', assigned, block, pairs, by simp, spares_append.mpr ⟨hbefore, hbefore'⟩,
    hassigned, hblock, hpairs⟩

/-- The switch comes last, so nothing before it switches. -/
theorem Lands.stays_init (h : fr.Lands source target steps) :
    ∃ init, steps = init ++ [.goto target] ∧ Stays init := by
  obtain ⟨before, assigned, block, pairs, rfl, hbefore, hassigned, -, -⟩ := h
  exact ⟨before ++ assigned, rfl, stays_append.mpr ⟨hbefore.stays, hassigned.stays⟩⟩

/-- A path that ends before the last step has not switched. -/
theorem Lands.stays_before {done left : List Step} {x : Step}
    (h : fr.Lands source target (done ++ x :: left)) : Stays done := by
  obtain ⟨init, heq, hinit⟩ := h.stays_init
  rcases List.append_eq_append_iff.mp heq with ⟨mid, rfl, -⟩ | ⟨mid, rfl, hmid⟩
  · exact (stays_append.mp hinit).1
  · cases mid with
    | nil =>
      rw [List.append_nil]
      exact hinit
    | cons y mid => cases mid <;> cases hmid

/-! ## Settled code -/

/-- Every path leaves the function without a switch, or lands at one of the targets and goes on;
and every target is landed at. -/
structure Settled (fr : Frame) (source : Block) (targets : List BlockId) (stmts : List Stmt) :
    Prop where
  ends : ∀ steps e, Path stmts steps e → (e = .leaves ∧ Stays steps) ∨
    (e = .continues ∧ ∃ target ∈ targets, fr.Lands source target steps)
  lands : ∀ target ∈ targets, ∃ steps, fr.Lands source target steps ∧ Path stmts steps .continues

namespace Settled

variable {targets : List BlockId}

/-- A statement that leaves the function settles code. -/
theorem of_exit {s : Stmt} (h : s.exit? = some .leaves) : fr.Settled source [] [s] := by
  refine ⟨fun steps e hpath => ?_, by simp⟩
  cases s with
  | ret _ | resume _ | unreachable =>
    rw [Path.cons_iff] at hpath
    simp only [Stmt.exit?, Stmt.mayLeave, Stmt.arms, Option.some.injEq, Bool.false_eq_true,
      and_false, List.not_mem_nil, false_and, exists_false, or_false] at hpath
    obtain ⟨rfl, rfl⟩ := hpath
    exact .inl ⟨rfl, stays_nil⟩
  | step _ | attempt _ _ | propagate | ifRaised _ _ | matchOutcome _ _ _ | ifElse _ _ _
  | switch _ _ _ | next => cases h

/-- Behind an arm there is only the order to go on. -/
theorem through_next_iff {arm : List Step} {e : Ending} :
    Through arm [.next] steps e ↔ (e = .continues ∧ steps = arm) ∨
      (e = .leaves ∧ ∃ x left, arm = steps ++ x :: left ∧ x.mayFail = true) := by
  have hnext : ∀ {tail}, Path [.next] tail e ↔ e = .continues ∧ tail = [] := by
    intro tail
    rw [Path.cons_iff]
    simp [Stmt.exit?, Stmt.mayLeave, Stmt.arms, eq_comm, and_comm]
  simp only [Through, hnext]
  constructor
  · rintro (⟨tail, rfl, rfl, rfl⟩ | h)
    · exact .inl ⟨rfl, List.append_nil arm⟩
    · exact .inr h
  · rintro (⟨rfl, rfl⟩ | h)
    · exact .inl ⟨[], (List.append_nil steps).symm, rfl, rfl⟩
    · exact .inr h

/-- Steps that land at a block settle code, with the order to go on behind them. -/
theorem of_steps {arm : List Step} (h : fr.Lands source target arm) :
    fr.Settled source [target] (arm.map .step ++ [.next]) := by
  constructor
  · intro steps e hpath
    rcases through_next_iff.mp (Path.steps_iff.mp hpath) with ⟨rfl, rfl⟩ | ⟨rfl, x, left, rfl, -⟩
    · exact .inr ⟨rfl, target, List.mem_singleton_self target, h⟩
    · exact .inl ⟨rfl, h.stays_before⟩
  · intro target' htarget
    rw [List.mem_singleton.mp htarget]
    exact ⟨arm, h, Path.steps_iff.mpr (through_next_iff.mpr (.inl ⟨rfl, rfl⟩))⟩

/-- A fork whose arms land at the targets settles code, with the order to go on behind it. -/
theorem of_arms {s : Stmt} (hexit : s.exit? = none)
    (hlands : ∀ arm ∈ s.arms, ∃ target ∈ targets, fr.Lands source target arm)
    (hall : ∀ target ∈ targets, ∃ arm ∈ s.arms, fr.Lands source target arm) :
    fr.Settled source targets [s, .next] := by
  constructor
  · intro steps e hpath
    rcases Path.cons_iff.mp hpath with ⟨-, he⟩ | ⟨rfl, rfl, -⟩ | ⟨arm, harm, hthrough⟩
    · rw [hexit] at he
      cases he
    · exact .inl ⟨rfl, stays_nil⟩
    · obtain ⟨target, htarget, hland⟩ := hlands arm harm
      rcases through_next_iff.mp hthrough with ⟨rfl, rfl⟩ | ⟨rfl, x, left, rfl, -⟩
      · exact .inr ⟨rfl, target, htarget, hland⟩
      · exact .inl ⟨rfl, hland.stays_before⟩
  · intro target htarget
    obtain ⟨arm, harm, hland⟩ := hall target htarget
    exact ⟨arm, hland, .of_through harm (through_next_iff.mpr (.inl ⟨rfl, rfl⟩))⟩

/-- Straight code before settled code. -/
theorem prepend (before : List Stmt) (hbefore : ∀ s ∈ before, fr.Straight s)
    (h : fr.Settled source targets stmts) : fr.Settled source targets (before ++ stmts) := by
  refine ⟨fun steps e hpath => ?_, fun target htarget => ?_⟩
  · rcases Path.append_iff.mp hpath with ⟨he, hpath⟩ | ⟨done, tail, rfl, hdone, htail⟩
    · obtain ⟨hspares, he'⟩ := path_straight hbefore hpath
      cases e with
      | leaves => exact .inl ⟨rfl, hspares.stays⟩
      | continues => exact absurd rfl he'
      | falls => exact absurd rfl he
    · obtain ⟨hspares, -⟩ := path_straight hbefore hdone
      rcases h.ends tail e htail with ⟨rfl, hrest⟩ | ⟨rfl, target, htarget, hland⟩
      · exact .inl ⟨rfl, stays_append.mpr ⟨hspares.stays, hrest⟩⟩
      · exact .inr ⟨rfl, target, htarget, hland.prepend hspares⟩
  · obtain ⟨done, hdone⟩ := exists_path_straight hbefore
    obtain ⟨steps, hland, hpath⟩ := h.lands target htarget
    exact ⟨done ++ steps, hland.prepend (path_straight hbefore hdone).1,
      Path.append_iff.mpr (.inr ⟨done, steps, rfl, hdone, hpath⟩)⟩

end Settled

/-! ## Instructions -/

theorem dest?_eq {result : Option ValueId} {d : Var} (h : fr.dest? result = some d) :
    ∃ v, result = some v ∧ d = .value v := by
  unfold dest? at h
  obtain ⟨v, hv, rfl⟩ := Option.map_eq_some_iff.mp h
  exact ⟨v, (Option.filter_eq_some_iff.mp hv).1, rfl⟩

/-- What a block computes is no phi. -/
theorem free_of_computed (hmade : fr.function.made.Nodup) (hsource : source ∈ fr.function.blocks)
    {v : ValueId} (hv : v ∈ computed source) : fr.Free (.value v) := by
  intro b hb p hp heq
  obtain rfl := Var.value.inj heq
  exact phi_not_computed hmade hsource hb hp hv

/-- The steps of an arithmetic operation set its result and switch nowhere. -/
theorem spares_of_binary {dest : Var} (hdest : fr.Free dest) {op : BinaryOp} {s : Layout.Scalar}
    {l r : Expr} {flags : WrapFlags} {overflow : Overflow}
    (h : binary dest op s l r flags overflow = .ok steps) : fr.Spares steps := by
  cases binaryCode_of_binary h with
  | pure _ | checked => exact spares_assign hdest _
  | both => exact spares_append.mpr ⟨spares_run _, spares_assign hdest _⟩

theorem straight_into (hdest : ∀ d, dest = some d → fr.Free d) (a : Action) :
    fr.Straight (.step (into dest a)) := by
  cases dest with
  | none => exact straight_step (spares_run a)
  | some d => exact straight_step (spares_assign (hdest d rfl) a)

theorem straight_attempt (path : String) (args : List Expr) : fr.Straight (.attempt path args) :=
  ⟨rfl, [], rfl, spares_nil⟩

/-- Taking the value of a call sets its result. -/
theorem spares_takeValue {c : Throwing} (hdest : ∀ d, c.dest = some d → fr.Free d) :
    fr.Spares c.takeValue := by
  unfold Throwing.takeValue
  cases hd : c.dest with
  | none => exact spares_nil
  | some d => exact spares_assign (hdest d hd) _

theorem straight_propagating {c : Throwing} (hdest : ∀ d, c.dest = some d → fr.Free d)
    (elide : Bool) : ∀ s ∈ c.lower elide .propagate, fr.Straight s := by
  have hvalue := straight_map_step (spares_takeValue hdest)
  intro s hs
  rcases List.mem_cons.mp hs with rfl | hs
  · exact straight_attempt _ _
  · split at hs
    next => exact hvalue s hs
    next =>
      rcases List.mem_append.mp hs with hs | hs
      · exact hvalue s hs
      · rw [List.mem_singleton.mp hs]
        exact ⟨rfl, [], rfl, spares_nil⟩

/-- A call without a handler is straight. -/
theorem straight_of_call {s : Site} {site : CallSite} (hdest : ∀ d, dest = some d → fr.Free d)
    (h : fr.call s site dest none = .ok stmts) : ∀ s ∈ stmts, fr.Straight s := by
  cases callCode_of_call h with
  | waits _ _ => simpa using straight_into hdest _
  | skips _ _ htail =>
    cases htail
    simp
  | acts _ _ _ _ _ htail =>
    cases htail
    simpa using straight_into hdest _
  | raises _ _ _ _ hraising =>
    cases hraising
    exact straight_propagating hdest _

/-- The code of an instruction is straight. -/
theorem straight_of_instruction (hmade : fr.function.made.Nodup)
    (hsource : source ∈ fr.function.blocks) {i : IR.Instruction} (hi : i ∈ source.instructions)
    (h : fr.instruction source i = .ok stmts) : ∀ s ∈ stmts, fr.Straight s := by
  -- a phi has no code of its own, and what another instruction makes is computed
  have hfree : i.phi? = none → ∀ d, fr.dest? i.result = some d → fr.Free d := by
    intro hphi d hd
    obtain ⟨v, hv, rfl⟩ := dest?_eq hd
    refine free_of_computed hmade hsource (List.mem_append_left _ ?_)
    exact List.mem_filterMap.mpr ⟨i, hi, by simp [computed?, hphi, hv]⟩
  obtain ⟨result, op⟩ := i
  have hassign : (⟨result, op⟩ : IR.Instruction).phi? = none → ∀ {d : Var},
      fr.dest? result = some d → ∀ a, ∀ s ∈ [Stmt.step (.assign d a)], fr.Straight s := by
    intro hphi d hd a s hs
    rw [List.mem_singleton.mp hs]
    exact straight_step (spares_assign (hfree hphi d hd) a)
  cases code_of_instruction h with
  | binary _ _ _ hd hsteps => exact straight_map_step (spares_of_binary (hfree rfl _ hd) hsteps)
  | store _ _ _ => simpa using straight_step (spares_run _)
  | phi => simp
  | call hcall => exact straight_of_call (hfree rfl) hcall
  | icmp _ _ _ hd | fcmp _ _ _ hd | fneg _ _ hd | select _ _ _ _ hd | cast _ _ _ hd _ | alloca _ hd
  | load _ _ hd | gep _ _ hd | landingpad hd => exact hassign rfl hd _

/-! ## Terminators -/

/-- The check behind a call of an entry of the catalog is left out. -/
def elides (fr : Frame) (s : Site) (entry : Intrinsic.Entry) (site : CallSite) : Bool :=
  match fr.overload s entry (site.args.take entry.arity), entry.proof with
  | .ok (some scalar), some proof => fr.setting.profile.elideProvenChecks &&
    proof.holds ((site.args.take entry.arity).map fun a => a.2.asInt?) scalar.bits
  | _, _ => false

/-- The call is to an entry of the catalog that does not raise, or whose check is left out. -/
def cannotRaise (fr : Frame) (s : Site) (site : CallSite) : Bool :=
  match fr.catalogued? site with
  | some entry => ! entry.mayThrow || fr.elides s entry site
  | none => false

/-- Where the code of a block goes: to all its successors, but to no handler of a call that cannot
raise. -/
def targets (fr : Frame) (b : Block) : List BlockId :=
  match b.terminator with
  | .invoke _ site normal unwind =>
    if fr.cannotRaise ⟨b, b.terminator.opcode⟩ site then [normal] else [normal, unwind]
  | t => t.successors

theorem canElide_eq_elides {s : Site} {entry : Intrinsic.Entry} {site : CallSite} {path : String}
    {args : List Expr} {scalar : Option Layout.Scalar}
    (h : fr.overload s entry (site.args.take entry.arity) = .ok scalar) :
    Throwing.canElide fr.setting.profile.elideProvenChecks
      { entry, path, args, constants := (site.args.take entry.arity).map fun a => a.2.asInt?
        bits := scalar.map Layout.Scalar.bits, dest } = fr.elides s entry site := by
  unfold Throwing.canElide elides
  rw [h]
  cases scalar with
  | none => cases entry.proof <;> rfl
  | some scalar => cases entry.proof <;> rfl

/-- A call with a handler goes to its two successors, or to the normal one alone. -/
theorem settled_of_call {s : Site} {site : CallSite} {normal unwind : BlockId}
    (hdest : ∀ d, dest = some d → fr.Free d)
    (h : fr.call s site dest (some ⟨normal, unwind⟩) = .ok stmts) :
    fr.Settled s.block (if fr.cannotRaise s site then [normal] else [normal, unwind])
      (stmts ++ [.next]) := by
  have hkeep : fr.Spares ((dest.map fun d => Step.assign d (.pure .outcomeValue)).toList) := by
    cases dest with
    | none => exact spares_nil
    | some d => exact spares_assign (hdest d rfl) _
  -- the way out of a call that does not raise
  have hexit : ∀ {tail}, fr.exitOf s.block (some ⟨normal, unwind⟩) = .ok tail →
      fr.Settled s.block [normal] (tail ++ [.next]) := by
    intro tail htail
    obtain ⟨steps, hsteps, htail⟩ := bind_eq_ok.mp htail
    cases htail
    exact .of_steps (lands_of_edge hsteps)
  cases callCode_of_call h with
  | chooses hentry _ hnormal hunwind =>
    rw [cannotRaise, hentry]
    have hleft := (lands_of_edge hnormal).prepend hkeep
    have hright := (lands_of_edge hunwind).prepend spares_hold
    refine .of_arms rfl ?_ ?_
    · simpa [Stmt.arms] using ⟨.inl hleft, .inr hright⟩
    · simpa [Stmt.arms] using ⟨.inl hleft, .inr hright⟩
  | skips hentry hnone htail =>
    rw [cannotRaise, hentry]
    simpa [Intrinsic.Entry.mayThrow, hnone] using hexit htail
  | acts hentry hthrow _ _ _ htail =>
    rw [cannotRaise, hentry]
    simp only [hthrow, Bool.not_false, Bool.true_or, if_true]
    exact .prepend [_] (by simpa using straight_into hdest _) (hexit htail)
  | @raises entry path args scalar _ _ hentry hthrow _ hscalar hraising =>
    obtain ⟨normal', unwind', hnormal, hunwind, rfl⟩ := hraising
    have hleft := (lands_of_edge hnormal).prepend (spares_takeValue (c :=
      { entry, path, args, constants := (site.args.take entry.arity).map fun a => a.2.asInt?
        bits := scalar.map Layout.Scalar.bits, dest }) hdest)
    have hright := (lands_of_edge hunwind).prepend spares_hold
    rw [cannotRaise, hentry, Throwing.lower, canElide_eq_elides hscalar]
    simp only [hthrow, Bool.not_true, Bool.false_or]
    refine .prepend [.attempt path args] (by simpa using straight_attempt path args) ?_
    cases fr.elides s entry site with
    | true => exact .of_steps hleft
    | false =>
      refine .of_arms rfl ?_ ?_
      · simpa [Stmt.arms] using ⟨.inr hright, .inl hleft⟩
      · simpa [Stmt.arms] using ⟨.inr hleft, .inl hright⟩

/-- The code of a terminator goes where it should. -/
theorem settled_of_terminator (hmade : fr.function.made.Nodup)
    (hsource : source ∈ fr.function.blocks) (h : fr.terminator source = .ok stmts) :
    fr.Settled source (fr.targets source) stmts := by
  have hcode := exitCode_of_terminator h
  unfold targets
  cases hterm : source.terminator with
  | ret v =>
    rw [hterm] at hcode
    cases hcode <;> exact .of_exit rfl
  | br target =>
    rw [hterm] at hcode
    cases hcode with
    | br hsteps => exact .of_steps (lands_of_edge hsteps)
  | condBr cond yes no =>
    rw [hterm] at hcode
    cases hcode with
    | condBr _ hyes hno =>
      have hleft := lands_of_edge hyes
      have hright := lands_of_edge hno
      refine .of_arms rfl ?_ ?_
      · simpa [IR.Terminator.successors, Stmt.arms] using ⟨.inl hleft, .inr hright⟩
      · simpa [IR.Terminator.successors, Stmt.arms] using ⟨.inl hleft, .inr hright⟩
  | switch ty v default cases =>
    rw [hterm] at hcode
    cases hcode with
    | @switch _ _ _ _ _ _ cases' default' _ _ hcases hdefault =>
      have hlast := lands_of_edge hdefault
      refine .of_arms rfl (fun arm harm => ?_) (fun target htarget => ?_)
      · rcases List.mem_append.mp harm with harm | harm
        · obtain ⟨c', hc', rfl⟩ := List.mem_map.mp harm
          obtain ⟨c, hc, -, hedge⟩ := exists_of_mem_forall₂ hcases hc'
          exact ⟨c.2, List.mem_cons_of_mem _ (List.mem_map_of_mem hc), lands_of_edge hedge⟩
        · rw [List.mem_singleton.mp harm]
          exact ⟨default, List.mem_cons_self, hlast⟩
      · rcases List.mem_cons.mp htarget with rfl | htarget
        · exact ⟨default', List.mem_append_right _ (List.mem_singleton_self _), hlast⟩
        · obtain ⟨c, hc, rfl⟩ := List.mem_map.mp htarget
          obtain ⟨c', hc', -, hedge⟩ := exists_of_mem_forall₂ hcases.flip hc
          exact ⟨c'.2, List.mem_append_left _ (List.mem_map_of_mem hc'), lands_of_edge hedge⟩
  -- The result is computed by this block, so it is the variable of no phi.
  | invoke result site normal unwind =>
    rw [hterm] at hcode
    cases hcode with
    | invoke hcall =>
      refine settled_of_call (fun d hd => ?_) hcall
      obtain ⟨v, rfl, rfl⟩ := dest?_eq hd
      refine free_of_computed hmade hsource (List.mem_append_right _ ?_)
      simp [hterm, IR.Terminator.result?]
  | resume o =>
    rw [hterm] at hcode
    cases hcode <;> exact .of_exit rfl
  | unreachable =>
    rw [hterm] at hcode
    cases hcode
    exact .of_exit rfl

/-- The code of a block goes where it should. -/
theorem settled_of_block (hmade : fr.function.made.Nodup) (hsource : source ∈ fr.function.blocks)
    (h : fr.block source = .ok stmts) : fr.Settled source (fr.targets source) stmts := by
  obtain ⟨body, exit, hbody, hexit, rfl⟩ := block_eq_ok h
  refine .prepend _ (fun s hs => ?_) (settled_of_terminator hmade hsource hexit)
  obtain ⟨code, hcode, hs⟩ := List.mem_flatten.mp hs
  obtain ⟨i, hi, hcode⟩ := exists_of_mem_forall₂ hbody hcode
  exact straight_of_instruction hmade hsource hi hcode s hs

/-- Without successors a block ends with a statement that leaves the function. -/
theorem exit_of_no_successors (h : fr.terminator source = .ok stmts)
    (hsuccessors : source.terminator.successors = []) :
    ∃ s, stmts = [s] ∧ s.exit? = some .leaves := by
  have hcode := exitCode_of_terminator h
  generalize source.terminator = t at hcode hsuccessors
  cases hcode with
  | retNone | ret _ | resume | resumeNone _ | unreachable => exact ⟨_, rfl, rfl⟩
  | br _ | condBr _ _ _ | switch _ _ _ _ | invoke _ => cases hsuccessors

/-! ## Functions -/

/-- Settled code never runs off its end, and goes on to one of its targets. -/
theorem Settled.stretch {targets : List BlockId} {σ : Type} {sup : Support σ} {e : Env σ}
    {flow : Flow σ} (h : fr.Settled source targets stmts) (hflow : Stretch sup stmts e flow) :
    (∀ e', flow ≠ .fell e') ∧ ∀ e', flow = .again e' → e'.block ∈ targets := by
  have hruns := hflow.runs
  constructor
  · rintro e' rfl
    obtain ⟨steps, hpath, -⟩ := hruns
    rcases h.ends steps _ hpath with ⟨he, -⟩ | ⟨he, -⟩ <;> cases he
  · rintro e' rfl
    obtain ⟨steps, hpath, hblock⟩ := hruns
    rcases h.ends steps _ hpath with ⟨he, -⟩ | ⟨-, target, htarget, hland⟩
    · cases he
    · -- the last step of the path is the switch to the target
      obtain ⟨init, rfl, -⟩ := hland.stays_init
      rw [hblock, Target.landing_append]
      exact htarget

end Frame

/-- **Blocks go where they should.** The code of a function that was read has its blocks, in their
order. Every path through a block leaves the function, or assigns the phis of one of the block's
targets at once, switches there and goes on; and there is a path to each target. No phi is set in
front of that assignment. So a block that runs, whatever the variables hold and its calls give back,
never runs off its end. Code that is marked flat neither switches nor goes on. -/
theorem blocks_follow_graph [Demangler] {bytes : List UInt8} {m : IR.Module} {setting : Setting}
    {f : IR.Function} {t : Target.Function} (hread : IR.Module.read bytes = .ok m)
    (hf : f ∈ m.functions) (h : function setting f = .ok t) :
    t.blocks.length = f.blocks.length ∧
    (∀ (i : Nat) b stmts, f.blocks[i]? = some b → t.blocks[i]? = some stmts →
      (frameOf setting f).Settled b ((frameOf setting f).targets b) stmts ∧
      ∀ (σ : Type) (sup : Support σ) (e : Env σ) (flow : Flow σ), Stretch sup stmts e flow →
        (∀ e', flow ≠ .fell e') ∧
        ∀ e', flow = .again e' → e'.block ∈ (frameOf setting f).targets b) ∧
    (t.flat = true → ∀ stmts ∈ t.blocks, ∀ s ∈ stmts, s ≠ .next ∧ ∀ arm ∈ s.arms, Stays arm) := by
  have hlowered := lowered_of_function h
  have hmade : (frameOf setting f).function.made.Nodup := IR.Module.nodup_made hread hf
  refine ⟨length_of_mapM hlowered.blocks, fun i b stmts hb hstmts => ?_, fun hflat => ?_⟩
  · obtain ⟨b', hb', hblock⟩ := getElem?_of_mapM hlowered.blocks hstmts
    cases hb.symm.trans hb'
    have hsettled := Frame.settled_of_block hmade (List.mem_of_getElem? hb) hblock
    exact ⟨hsettled, fun σ sup e flow hflow => hsettled.stretch hflow⟩
  · intro stmts hstmts s hs
    obtain ⟨b, hb, hblock⟩ := exists_of_mem_mapM hlowered.blocks hstmts
    -- A flat function has no terminator with a successor.
    have hsuccessors : b.terminator.successors = [] := by
      by_contra hne
      obtain ⟨target, htarget⟩ := List.exists_mem_of_ne_nil _ hne
      rw [hlowered.flat_eq_false hb htarget] at hflat
      cases hflat
    obtain ⟨body, exit, hbody, hexit, rfl⟩ := Frame.block_eq_ok hblock
    rcases List.mem_append.mp hs with hs | hs
    · obtain ⟨code, hcode, hs⟩ := List.mem_flatten.mp hs
      obtain ⟨i, hi, hcode⟩ := exists_of_mem_forall₂ hbody hcode
      obtain ⟨hnone, arm, harms, hspares⟩ :=
        Frame.straight_of_instruction hmade hb hi hcode s hs
      refine ⟨?_, fun arm' harm' => ?_⟩
      · rintro rfl
        cases hnone
      · rw [harms] at harm'
        rw [List.mem_singleton.mp harm']
        exact hspares.stays
    · obtain ⟨last, rfl, hleaves⟩ := Frame.exit_of_no_successors hexit hsuccessors
      obtain rfl := List.mem_singleton.mp hs
      cases s with
      | ret _ | resume _ | unreachable => simp [Stmt.arms]
      | step _ | attempt _ _ | propagate | ifRaised _ _ | matchOutcome _ _ _ | ifElse _ _ _
      | switch _ _ _ | next => cases hleaves

/-- Two divisions with a handler: the first by a parameter, the second by two, in a loop. -/
def quotientText : List UInt8 :=
  "declare i8 @checked_div(i8, i8)
define void @g(i8 %n) \x7b
a:
  %q = invoke i8 @checked_div(i8 7, i8 %n) to label %b unwind label %c
b:
  %p = phi i8 [%q, %a], [%r, %b]
  %r = invoke i8 @checked_div(i8 %p, i8 2) to label %b unwind label %c
c:
  %x = landingpad ptr cleanup
  resume ptr %x
\x7d
".toUTF8.toList

/-- The setting of a module that leaves out checks proven to hold. -/
def elidingSetting (m : IR.Module) : Setting :=
  { module := m, profile := { elideProvenChecks := true }, globals := [], names := ["d", "g"] }

/-- The first division may raise and goes to the handler; the second cannot, and only loops. -/
theorem blocks_follow_graph_quotient :
    ∃ m f t a first loop, IR.Module.read quotientText = .ok m ∧ f ∈ m.functions ∧
      function (elidingSetting m) f = .ok t ∧ f.blocks[0]? = some a ∧
      t.blocks[0]? = some first ∧ t.blocks[1]? = some loop ∧
      (∃ steps, (frameOf (elidingSetting m) f).Lands a ⟨2⟩ steps ∧ Path first steps .continues) ∧
      ∀ (sup : Support Unit) (e e' : Env Unit), Stretch sup loop e (.again e') →
        e'.block = ⟨1⟩ := by
  have htest : okAnd (IR.Module.read quotientText) (fun m => m.functions.any fun f =>
      okAnd (function (elidingSetting m) f) (fun t => t.blocks.length == 3) &&
      f.blocks.map (frameOf (elidingSetting m) f).targets == [[⟨1⟩, ⟨2⟩], [⟨1⟩], []]) = true := by
    decide +kernel
  obtain ⟨m, hm, hany⟩ := exists_of_okAnd htest
  obtain ⟨f, hf, hboth⟩ := List.any_eq_true.mp hany
  obtain ⟨hcode, htargets⟩ := Bool.and_eq_true_iff.mp hboth
  obtain ⟨t, ht, hlength⟩ := exists_of_okAnd hcode
  rw [beq_iff_eq] at hlength htargets
  obtain ⟨hblocks, hsettled, -⟩ := blocks_follow_graph hm hf ht
  obtain ⟨a, b, c, hf'⟩ := List.length_eq_three.mp (hblocks.symm.trans hlength)
  obtain ⟨first, loop, last, ht'⟩ := List.length_eq_three.mp hlength
  rw [hf', ht'] at hsettled
  simp only [hf', List.map_cons, List.cons.injEq] at htargets
  refine ⟨m, f, t, a, first, loop, hm, hf, ht, by simp [hf'], by simp [ht'], by simp [ht'],
    (hsettled 0 a first rfl rfl).1.lands ⟨2⟩ (by simp [htargets.1]), ?_⟩
  intro sup e e' hflow
  have hmem := ((hsettled 1 b loop rfl rfl).2 Unit sup e _ hflow).2 e' rfl
  rw [htargets.2.1] at hmem
  exact List.mem_singleton.mp hmem

end SafeIR.Lower
