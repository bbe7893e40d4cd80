import Mathlib.Data.Bool.AllAny
import SafeIR.Proofs.Artifact.Summary
import SafeIR.Proofs.Artifact.Word
import SafeIR.Proofs.Lower.Closed

/-!
# Names of functions and of variables

Generated functions call each other by name, and a name that a function binds itself hides the
function of that name. The names that generated code binds are the context, variables `v0`, `v1` and
so on, and names with two underscores in front. No function has one of the latter, or that of the
context, but nothing keeps a function from being called like a variable: `names_captured_iff` says
which symbols do that.
-/

namespace SafeIR

/-! ## What code binds and calls -/

namespace Target

/-- The names that the text of a statement binds. -/
def Stmt.binders : Stmt → List String
  | .attempt .. => ["__r"]
  | .propagate | .ifRaised .. => ["__e"]
  | .matchOutcome .. => ["__v", "__e", "__f"]
  | _ => []

/-- The names that the text of a function binds. -/
def Function.binders (f : Function) : List String :=
  "ctx" :: f.params.map (fun p => p.1.text) ++ f.locals.map Local.name
    ++ (if f.flat then [] else ["__current_block"]) ++ f.blocks.flatten.flatMap Stmt.binders
    ++ (if f.usesFrame then ["__frame", "__result"] else [])

def Var.value? : Var → Option IR.ValueId
  | .value id => some id
  | _ => none

/-- The values that a function has variables for. -/
def Function.variables (f : Function) : List IR.ValueId :=
  (f.params.map Prod.fst ++ f.locals.map Local.var).filterMap Var.value?

/-- The function that a step calls by name. -/
def Step.callee? : Step → Option String
  | .assign _ (.call c) | .run (.call c) => c.name?
  | _ => none

/-- The functions that a statement calls by name. -/
def Stmt.callees : Stmt → List String
  | .step s => s.callee?.toList
  | .ifRaised raised normal => (raised ++ normal).filterMap Step.callee?
  | .matchOutcome c normal raised => c.name?.toList ++ (normal ++ raised).filterMap Step.callee?
  | .ifElse _ yes no => (yes ++ no).filterMap Step.callee?
  | .switch _ cases default => (cases.flatMap Prod.snd ++ default).filterMap Step.callee?
  | .attempt .. | .propagate | .next | .ret _ | .resume _ | .unreachable => []

/-- The functions that a function calls by name. -/
def Function.callees (f : Function) : List String := f.blocks.flatten.flatMap Stmt.callees

theorem Stmt.head?_of_binders {s : Stmt} {name : String} (h : name ∈ s.binders) :
    name.toList.head? = some '_' := by
  have hall : ∀ name ∈ ["__r", "__v", "__e", "__f"], name.toList.head? = some '_' := by decide
  refine hall name ?_
  cases s <;> simp [Stmt.binders] at h ⊢ <;> tauto

theorem Local.name_eq_text (l : Local) : l.name = l.var.text := by
  cases l <;> rfl

end Target

/-! ## Calls -/

namespace Lower

open IR (Block BlockId CallSite)
open Target (Call Expr Step Stmt Var)

variable {steps : List Step} {stmts : List Stmt} {b : Block} {setting : Setting} {f : IR.Function}
  {t : Target.Function}

/-- The steps call no function by name. -/
def Quiet (steps : List Step) : Prop := ∀ s ∈ steps, s.callee? = none

theorem Quiet.filterMap_eq (h : Quiet steps) :
    steps.filterMap Step.callee? = [] := List.filterMap_eq_nil_iff.mpr h

theorem quiet_append {steps' : List Step} :
    Quiet (steps ++ steps') ↔ Quiet steps ∧ Quiet steps' := List.forall_mem_append

theorem quiet_copies (pairs : List (Var × Expr)) : Quiet (copies pairs) := by
  match pairs with
  | [] => simp [copies, Quiet]
  | [(_, _)] | _ :: _ :: _ => simp [copies, Quiet, Step.callee?]

theorem quiet_of_binary {dest : Var} {op : BinaryOp} {s : Layout.Scalar} {l r : Expr}
    {flags : WrapFlags} {overflow : Overflow}
    (h : binary dest op s l r flags overflow = .ok steps) : Quiet steps := by
  cases binaryCode_of_binary h <;> simp [Quiet, Step.callee?]

theorem quiet_cast {op : CastOp} {source target : Layout.Scalar} {e : Expr} {a : Target.Action}
    {d : Var} (h : cast? op source target e = some a) : (Step.assign d a).callee? = none := by
  unfold cast? at h
  simp only at h
  split at h <;> (try split at h) <;> cases h <;> rfl

theorem quiet_takeValue (c : Throwing) : Quiet c.takeValue := by
  unfold Throwing.takeValue
  cases c.dest <;> simp [Quiet, Step.callee?]

theorem callees_steps (h : Quiet steps) : (steps.map Stmt.step).flatMap Stmt.callees = [] := by
  rw [List.flatMap_eq_nil_iff]
  intro stmt hstmt
  obtain ⟨s, hs, rfl⟩ := List.mem_map.mp hstmt
  rw [Stmt.callees, h s hs]
  rfl

namespace Frame

variable {fr : Frame} {edges : Option Edges}

theorem quiet_of_edge {source : Block} {target : BlockId} (h : fr.edge source target = .ok steps) :
    Quiet steps := by
  obtain ⟨block, pairs, -, -, rfl⟩ := edge_eq_ok.mp h
  exact quiet_append.mpr ⟨quiet_copies pairs, by simp [Quiet, Step.callee?]⟩

theorem callees_raising {block : Block} {c : Throwing} (h : fr.IsRaising block edges c stmts) :
    stmts.flatMap Stmt.callees = [] := by
  have hkeep := quiet_takeValue c
  unfold IsRaising at h
  cases edges with
  | none =>
    subst h
    rw [Throwing.lower, List.flatMap_cons, Stmt.callees, List.nil_append]
    split
    next => exact callees_steps hkeep
    next =>
      rw [List.flatMap_append, callees_steps hkeep]
      rfl
  | some edges =>
    obtain ⟨normal, unwind, hnormal, hunwind, rfl⟩ := h
    have hquiet := quiet_append.mpr ⟨hkeep, quiet_of_edge hnormal⟩
    rw [Throwing.lower, List.flatMap_cons, Stmt.callees, List.nil_append]
    split
    next => exact callees_steps hquiet
    next =>
      have hhold : Quiet (.hold :: unwind ++ (c.takeValue ++ normal)) := by
        refine quiet_append.mpr ⟨?_, hquiet⟩
        exact List.forall_mem_cons.mpr ⟨rfl, quiet_of_edge hunwind⟩
      rw [List.flatMap_singleton, Stmt.callees, hhold.filterMap_eq]

theorem callees_exit {block : Block} {tail : List Stmt} (h : fr.exitOf block edges = .ok tail) :
    tail.flatMap Stmt.callees = [] := by
  unfold exitOf at h
  cases edges with
  | none =>
    cases h
    rfl
  | some edges =>
    obtain ⟨steps, hsteps, h⟩ := bind_eq_ok.mp h
    cases h
    exact callees_steps (quiet_of_edge hsteps)

/-- A call names a function by the name that it was given. -/
theorem callees_of_call {s : Site} {site : CallSite} {dest : Option Var}
    (h : fr.call s site dest edges = .ok stmts) :
    ∀ name ∈ stmts.flatMap Stmt.callees, name ∈ fr.setting.names := by
  cases hentry : fr.catalogued? site with
  | none =>
    obtain ⟨c, -, hnamed, hcode⟩ := call_of_no_entry hentry h
    cases edges with
    | none =>
      subst hcode
      cases dest <;> simpa [Stmt.callees, Step.callee?, into] using hnamed
    | some edges =>
      obtain ⟨normal, hnormal, hcode⟩ := bind_eq_ok.mp hcode
      obtain ⟨unwind, hunwind, hcode⟩ := bind_eq_ok.mp hcode
      cases hcode
      have hkeep : Quiet (dest.map fun d => Step.assign d (.pure .outcomeValue)).toList := by
        cases dest <;> simp [Quiet, Step.callee?]
      have hquiet : Quiet (((dest.map fun d => Step.assign d (.pure .outcomeValue)).toList
          ++ normal) ++ .hold :: unwind) := by
        refine quiet_append.mpr ⟨quiet_append.mpr ⟨hkeep, quiet_of_edge hnormal⟩, ?_⟩
        exact List.forall_mem_cons.mpr ⟨rfl, quiet_of_edge hunwind⟩
      rw [List.flatMap_singleton, Stmt.callees, hquiet.filterMap_eq, List.append_nil]
      simpa using hnamed
  | some entry =>
    have hnone : stmts.flatMap Stmt.callees = [] := by
      cases callCode_of_call h with
      | waits hno _ | chooses hno _ _ _ => simp [hentry] at hno
      | skips _ _ htail => exact callees_exit htail
      | acts _ _ _ _ _ htail =>
        rw [List.flatMap_cons, callees_exit htail]
        cases dest <;> rfl
      | raises _ _ _ _ hraising => exact callees_raising hraising
    simp [hnone]

theorem callees_of_instruction {i : IR.Instruction} (h : fr.instruction b i = .ok stmts) :
    ∀ name ∈ stmts.flatMap Stmt.callees, name ∈ fr.setting.names := by
  have hnone : ∀ {s : Step}, s.callee? = none →
      ∀ name ∈ [Stmt.step s].flatMap Stmt.callees, name ∈ fr.setting.names := by
    intro s hs
    simp [Stmt.callees, hs]
  obtain ⟨result, op⟩ := i
  cases code_of_instruction h with
  | binary _ _ _ _ hsteps => simp [callees_steps (quiet_of_binary hsteps)]
  | cast _ _ _ _ ha => exact hnone (quiet_cast ha)
  | phi => simp
  | call hcall => exact callees_of_call hcall
  | icmp _ _ _ _ | fcmp _ _ _ _ | fneg _ _ _ | select _ _ _ _ _ | alloca _ _ | load _ _ _
  | store _ _ _ | gep _ _ _ | landingpad _ => exact hnone rfl

theorem callees_of_terminator (h : fr.terminator b = .ok stmts) :
    ∀ name ∈ stmts.flatMap Stmt.callees, name ∈ fr.setting.names := by
  generalize hterm : b.terminator = t at *
  have hcode := exitCode_of_terminator h
  rw [hterm] at hcode
  cases hcode with
  | br hsteps => simp [callees_steps (quiet_of_edge hsteps), Stmt.callees]
  | condBr _ hyes hno =>
    have hquiet := quiet_append.mpr ⟨quiet_of_edge hyes, quiet_of_edge hno⟩
    simp [Stmt.callees, hquiet.filterMap_eq]
  | @switch _ _ _ _ _ _ cases' default' _ _ hcases hdefault =>
    have hquiet : Quiet (cases'.flatMap Prod.snd ++ default') := by
      refine quiet_append.mpr ⟨fun s hs => ?_, quiet_of_edge hdefault⟩
      obtain ⟨c', hc', hs⟩ := List.mem_flatMap.mp hs
      obtain ⟨c, -, -, hedge⟩ := exists_of_mem_forall₂ hcases hc'
      exact quiet_of_edge hedge s hs
    simp only [List.flatMap_cons, List.flatMap_nil, Stmt.callees, hquiet.filterMap_eq]
    simp
  | invoke hcall => simpa [Stmt.callees] using callees_of_call hcall
  | retNone | ret _ | resume | resumeNone _ | unreachable => simp [Stmt.callees]

theorem callees_of_block (h : fr.block b = .ok stmts) :
    ∀ name ∈ stmts.flatMap Stmt.callees, name ∈ fr.setting.names := by
  obtain ⟨body, exit, hbody, hexit, rfl⟩ := block_eq_ok h
  rw [List.flatMap_append, List.forall_mem_append]
  refine ⟨fun name hname => ?_, callees_of_terminator hexit⟩
  obtain ⟨stmt, hstmt, hname⟩ := List.mem_flatMap.mp hname
  obtain ⟨code, hcode, hstmt⟩ := List.mem_flatten.mp hstmt
  obtain ⟨i, -, hi⟩ := exists_of_mem_forall₂ hbody hcode
  exact callees_of_instruction hi name (List.mem_flatMap.mpr ⟨stmt, hstmt, hname⟩)

end Frame

theorem Lowered.callees (h : Lowered setting f t) : ∀ name ∈ t.callees, name ∈ setting.names := by
  intro name hname
  obtain ⟨stmt, hstmt, hname⟩ := List.mem_flatMap.mp hname
  obtain ⟨stmts, hstmts, hstmt⟩ := List.mem_flatten.mp hstmt
  obtain ⟨b, -, hb⟩ := exists_of_mem_mapM h.blocks hstmts
  exact Frame.callees_of_block hb name (List.mem_flatMap.mpr ⟨stmt, hstmt, hname⟩)

/-! ## Bound names -/

theorem Lowered.variables (h : Lowered setting f t) :
    ∀ x ∈ t.params.map Prod.fst ++ t.locals.map Target.Local.var,
      x = .exception ∨ ∃ v ∈ t.variables, x = .value v := by
  intro x hx
  have hvalue : ∀ v, x = .value v → ∃ v ∈ t.variables, x = .value v := by
    rintro v rfl
    exact ⟨v, List.mem_filterMap.mpr ⟨_, hx, rfl⟩, rfl⟩
  rcases List.mem_append.mp hx with hx | hx
  · rw [h.params_eq] at hx
    obtain ⟨v, -, rfl⟩ := List.mem_map.mp hx
    exact .inr (hvalue v rfl)
  · rw [h.locals, Frame.map_var_locals] at hx
    rcases List.mem_append.mp hx with hx | hx
    · obtain ⟨⟨info, i⟩, -, hx⟩ := List.mem_filterMap.mp hx
      split at hx
      next =>
        cases hx
        exact .inr (hvalue _ rfl)
      next => cases hx
    · split at hx
      next => exact .inl (List.mem_singleton.mp hx)
      next => cases hx

/-- A name that a function binds is that of the context or of a variable, or has underscores in
front. -/
theorem Lowered.binders (h : Lowered setting f t) {name : String} (hname : name ∈ t.binders) :
    name = "ctx" ∨ (∃ v ∈ t.variables, name = v.text) ∨ name.toList.head? = some '_' := by
  have hvars : ∀ x ∈ t.params.map Prod.fst ++ t.locals.map Target.Local.var,
      (∃ v ∈ t.variables, x.text = v.text) ∨ x.text.toList.head? = some '_' := by
    intro x hx
    rcases h.variables x hx with rfl | ⟨v, hv, rfl⟩
    · exact .inr rfl
    · exact .inl ⟨v, hv, rfl⟩
  simp only [Target.Function.binders, List.mem_append, List.mem_cons] at hname
  rcases hname with ((((rfl | hname) | hname) | hname) | hname) | hname
  · exact .inl rfl
  · obtain ⟨p, hp, rfl⟩ := List.mem_map.mp hname
    exact .inr (hvars p.1 (List.mem_append_left _ (List.mem_map.mpr ⟨p, hp, rfl⟩)))
  · obtain ⟨l, hl, rfl⟩ := List.mem_map.mp hname
    rw [l.name_eq_text]
    exact .inr (hvars l.var (List.mem_append_right _ (List.mem_map.mpr ⟨l, hl, rfl⟩)))
  · split at hname
    next => cases hname
    next =>
      rw [List.mem_singleton.mp hname]
      exact .inr (.inr rfl)
  · obtain ⟨stmt, -, hname⟩ := List.mem_flatMap.mp hname
    exact .inr (.inr (Target.Stmt.head?_of_binders hname))
  · split at hname
    next =>
      rcases List.mem_pair.mp hname with rfl | rfl
      · exact .inr (.inr rfl)
      · exact .inr (.inr rfl)
    next => cases hname

theorem text_mem_binders {v : IR.ValueId} (h : v ∈ t.variables) : v.text ∈ t.binders := by
  obtain ⟨x, hx, hv⟩ := List.mem_filterMap.mp h
  obtain rfl : x = .value v := by
    unfold Target.Var.value? at hv
    split at hv
    next => rw [Option.some.inj hv]
    next => cases hv
  simp only [Target.Function.binders, List.mem_append, List.mem_cons]
  rcases List.mem_append.mp hx with hx | hx
  · obtain ⟨p, hp, hvar⟩ := List.mem_map.mp hx
    refine .inl (.inl (.inl (.inl (.inr (List.mem_map.mpr ⟨p, hp, ?_⟩)))))
    rw [hvar]
    rfl
  · obtain ⟨l, hl, hvar⟩ := List.mem_map.mp hx
    refine .inl (.inl (.inl (.inr (List.mem_map.mpr ⟨l, hl, ?_⟩))))
    rw [l.name_eq_text, hvar]
    rfl

end Lower

namespace Artifact

open Decimal (isDigit_of_mem_toString)
open IR (ValueId)
open Text (eq_or_eq_toUpper not_letter_of_isDigit toNat_toLower toNat_toUpper)

/-! ## Functions that are called like variables -/

/-- Digits do not divide a word. -/
theorem wordsFrom_digits {ds : List Char} (hds : ∀ d ∈ ds, d.isDigit = true) (mode : Mode)
    (word : List Char) (c : Char) : wordsFrom mode word (c :: ds) = [word.reverse ++ c :: ds] := by
  induction ds generalizing mode word c with
  | nil => simp [wordsFrom]
  | cons d ds ih =>
    obtain ⟨hd, hds⟩ := List.forall_mem_cons.mp hds
    obtain ⟨hupper, hlower⟩ := not_letter_of_isDigit hd
    simp [wordsFrom, hupper, hlower, ih hds]

/-- The digits of the name of a variable. -/
def digits (v : ValueId) : List Char := (toString v.index).toList

theorem isDigit_of_mem_digits {v : ValueId} {c : Char} (h : c ∈ digits v) : c.isDigit = true :=
  isDigit_of_mem_toString h

theorem toList_text (v : ValueId) : v.text.toList = 'v' :: digits v := by
  rw [ValueId.text, String.toList_append]
  rfl

theorem underscore_not_mem_text (v : ValueId) : '_' ∉ v.text.toList := by
  rw [toList_text, List.mem_cons, not_or]
  refine ⟨by decide, fun h => ?_⟩
  have hdigit := isDigit_of_mem_digits h
  revert hdigit
  decide

theorem eq_of_toLower_digit {c d : Char} (h : c.toLower = d) (hd : d.isDigit = true) : c = d := by
  rcases eq_or_eq_toUpper h with rfl | rfl
  · rfl
  · rw [← Char.toNat_inj, toNat_toUpper, (not_letter_of_isDigit hd).2, if_neg (by simp)]

theorem eq_of_map_toLower {cs ds : List Char} (h : cs.map Char.toLower = ds)
    (hds : ∀ d ∈ ds, d.isDigit = true) : cs = ds := by
  subst h
  refine (List.map_id cs).symm.trans (List.map_congr_left fun c hc => ?_)
  exact eq_of_toLower_digit rfl (hds _ (List.mem_map_of_mem hc))

theorem map_toLower_digits (v : ValueId) : (digits v).map Char.toLower = digits v := by
  refine (List.map_congr_left fun d hd => ?_).trans (List.map_id _)
  rw [id, ← Char.toNat_inj, toNat_toLower, (not_letter_of_isDigit (isDigit_of_mem_digits hd)).1,
    if_neg (by simp)]

/-- The spellings of a symbol that make its identifier the name of a variable. -/
def variableSpellings (v : ValueId) : List (List Char) := ['v' :: digits v, 'V' :: digits v]

theorem joined_eq_variable {symbol : List Char} {v : ValueId} :
    joined Char.toLower (words symbol) = v.text ↔ trimmed symbol ∈ variableSpellings v := by
  constructor
  · intro h
    have hne : v.text ≠ "" := by
      rw [Ne, ← String.toList_inj, toList_text]
      simp
    obtain ⟨w, hwords, hlower⟩ := eq_singleton_of_joined h hne (underscore_not_mem_text v)
    obtain ⟨htrimmed, -⟩ := words_eq_singleton.mp hwords
    rw [toList_text] at hlower
    obtain ⟨c, cs, rfl, hc, hcs⟩ := List.map_eq_cons_iff.mp hlower
    have hdigits := eq_of_map_toLower hcs fun d => isDigit_of_mem_digits
    rw [htrimmed, hdigits]
    rcases eq_or_eq_toUpper hc with rfl | rfl
    · exact List.mem_cons_self
    · exact List.mem_cons_of_mem _ List.mem_cons_self
  · intro h
    have hspelling : ∀ c ∈ ['v', 'V'], c.isAlphanum = true ∧ c.toLower = 'v' :=
      List.all_iff_forall_prop.mp (by decide)
    obtain ⟨c, hc, htrimmed⟩ : ∃ c ∈ ['v', 'V'], trimmed symbol = c :: digits v := by
      simpa [variableSpellings] using h
    obtain ⟨halphanum, hlower⟩ := hspelling c hc
    have hwords : words symbol = [c :: digits v] := by
      refine words_eq_singleton.mpr
        ⟨htrimmed, by simp, List.forall_mem_cons.mpr ⟨halphanum, ?_⟩, ?_⟩
      · intro d hd
        simp [Char.isAlphanum, isDigit_of_mem_digits hd]
      · exact wordsFrom_digits (fun d => isDigit_of_mem_digits) .none [] c
    rw [hwords, ← String.toList_inj, joined_singleton, toList_text, List.map_cons, hlower,
      map_toLower_digits]

/-- What a function is called after: its symbol, or what it says, without the parameters. -/
def calledAfter (f : IR.Function) : List Char :=
  (f.demangled.getD f.name).toList.takeWhile (· != '(')

theorem text_not_mem_keywords (v : ValueId) : v.text ∉ keywords := by
  have hnone : ∀ word ∈ keywords, (word.toList.all fun c => c.isDigit = false) = true := by
    decide +kernel
  intro h
  obtain ⟨d, ds, hds⟩ : ∃ d ds, digits v = d :: ds := by
    refine List.exists_cons_of_ne_nil ?_
    simp [digits]
  have hd : d ∈ digits v := hds ▸ List.mem_cons_self
  have hmem : d ∈ v.text.toList := by
    rw [toList_text]
    exact List.mem_cons_of_mem _ hd
  have hdigit := isDigit_of_mem_digits hd
  rw [List.all_iff_forall_prop.mp (hnone v.text h) d hmem] at hdigit
  cases hdigit

/-- A function is named like a variable by a few spellings only. -/
theorem functionIdent_eq_variable (f : IR.Function) (v : ValueId) :
    functionIdent f.id.index f.name f.demangled = v.text ↔
      trimmed (calledAfter f) ∈ variableSpellings v := by
  rw [← joined_eq_variable, calledAfter]
  unfold functionIdent
  extract_lets source plain ident safe
  have hmark : ∀ {s : String}, '_' ∈ s.toList → s ≠ v.text := by
    rintro s hs rfl
    exact underscore_not_mem_text v hs
  show _ ↔ plain = v.text
  constructor
  · -- whatever is done to a name puts an underscore into it
    intro h
    split at h
    next => exact absurd h (hmark (by simp [String.toList_append]))
    next =>
      unfold safe at h
      split at h
      next => exact absurd h (hmark (by simp [String.toList_append]))
      next =>
        unfold ident at h
        split at h
        next => exact absurd h (hmark (by simp [String.toList_append]))
        next => exact h
  · intro h
    have hident : ident = v.text := by
      unfold ident
      rw [if_neg, h]
      rw [h, String.isEmpty_iff, ← String.toList_inj, toList_text]
      simp
    have hsafe : safe = v.text := by
      unfold safe
      rw [if_neg, hident]
      rw [hident, toList_text]
      show ¬ 'v'.isDigit = true
      decide
    rw [hsafe, if_neg]
    rw [List.contains_iff_mem]
    exact text_not_mem_keywords v

/-! ## Modules -/

variable {m : IR.Module}

/-- The names are those that the functions are given in the order in which they choose. -/
theorem functionNames_perm
    (hids : ∀ (i : Nat) (f : IR.Function), m.functions[i]? = some f → f.id = ⟨i⟩) :
    (functionNames m).Perm (freshAll reserved
      ((namingOrder m).map fun f => functionIdent f.id.index f.name f.demangled)) := by
  have hsubset : functionNames m ⊆ freshAll reserved
      ((namingOrder m).map fun f => functionIdent f.id.index f.name f.demangled) := by
    intro name hname
    rw [functionNames_eq] at hname
    obtain ⟨f, hf, rfl⟩ := List.mem_map.mp hname
    obtain ⟨name, hname, hmem⟩ := exists_lookup hf
    rw [hname]
    exact (List.of_mem_zip hmem).2
  -- different names, among as many as there are functions
  refine (List.subperm_of_subset (functionNames_nodup hids) hsubset).perm_of_length_le ?_
  have hsplit := m.functions.length_eq_length_filter_add (·.isDeclaration)
  rw [length_freshAll, List.length_map, namingOrder, List.length_append, IR.Module.defined,
    functionNames_eq, List.length_map]
  omega

/-- A function is called like a variable if one has a symbol that says so. -/
theorem text_mem_functionNames
    (hids : ∀ (i : Nat) (f : IR.Function), m.functions[i]? = some f → f.id = ⟨i⟩) (v : ValueId) :
    v.text ∈ functionNames m ↔
      ∃ f ∈ m.functions, trimmed (calledAfter f) ∈ variableSpellings v := by
  rw [(functionNames_perm hids).mem_iff]
  constructor
  · intro h
    rcases of_mem_freshAll h with h | ⟨base, n, h⟩
    · obtain ⟨f, hf, hident⟩ := List.mem_map.mp h
      exact ⟨f, mem_namingOrder.mp hf, (functionIdent_eq_variable f v).mp hident⟩
    · -- a numbered name has an underscore
      refine absurd ?_ (underscore_not_mem_text v)
      rw [h]
      simp [String.toList_append]
  · rintro ⟨f, hf, hspelling⟩
    have hbase := List.mem_map_of_mem (f := fun f : IR.Function =>
      functionIdent f.id.index f.name f.demangled) (mem_namingOrder.mpr hf)
    rw [(functionIdent_eq_variable f v).mpr hspelling] at hbase
    -- the first to ask for the name gets it, since it is not set aside
    refine (mem_freshAll hbase).resolve_left fun hreserved => ?_
    have hnone : ∀ word ∈ reserved, word.toList.head? ≠ some 'v' := by decide
    exact hnone v.text hreserved (by rw [toList_text]; rfl)

/-- What the functions of a module are lowered in, when its globals are laid out. -/
def settingOf (options : Options) (m : IR.Module) (globals : Layout.Image) : Lower.Setting :=
  { module := m, profile := options.profile, globals := globals.entries, names := functionNames m }

/-- The functions that an artifact is written from, in their order. -/
structure WrittenFrom (options : Options) (m : IR.Module) (a : Artifact)
    (ts : List Target.Function) : Prop where
  lowered : m.defined.mapM (Lower.function (settingOf options m a.globals)) = .ok ts
  emitted : List.Forall₂ (fun t e => ∃ skipped,
    written t options.profile.maxStatements = .ok (e, skipped)) ts a.functions

theorem exists_writtenFrom {options : Options} {cancelled : Bool} {a : Artifact}
    (h : ofModule options cancelled m = .ok a) : ∃ ts, WrittenFrom options m a ts := by
  obtain ⟨globals, -, h⟩ := bind_eq_ok.mp h
  obtain ⟨functions, hfunctions, h⟩ := bind_eq_ok.mp h
  cases h
  have hwritten : List.Forall₂ (fun f w => ∃ t,
      Lower.function (settingOf options m globals) f = .ok t ∧
        written t options.profile.maxStatements = .ok w) m.defined functions :=
    (mapM_eq_ok.mp hfunctions).imp fun f w hw => bind_eq_ok.mp (ite_error_eq_ok.mp hw).2
  obtain ⟨ts, hlowered, hemitted⟩ := exists_of_forall₂ hwritten
  refine ⟨ts, mapM_eq_ok.mpr hlowered, List.forall₂_map_right_iff.mpr ?_⟩
  exact hemitted.imp fun t w hw => ⟨w.2, hw⟩

/-- **Only variables hide functions.** Every call in generated code names a function by the name
that it was given. No function that is generated binds such a name itself, exactly if no symbol
says, in small letters or with a capital, the name of a variable that one of them has, and nothing
else. -/
theorem names_captured_iff {options : Options} {cancelled : Bool} {m : IR.Module} {a : Artifact}
    (hids : ∀ (i : Nat) (f : IR.Function), m.functions[i]? = some f → f.id = ⟨i⟩)
    (h : ofModule options cancelled m = .ok a) :
    ∃ ts, WrittenFrom options m a ts ∧
      (∀ t ∈ ts, ∀ name ∈ t.callees, name ∈ functionNames m) ∧
      ((∀ name ∈ functionNames m, ∀ t ∈ ts, name ∉ t.binders) ↔
        ∀ f ∈ m.functions, ∀ t ∈ ts, ∀ v ∈ t.variables,
          trimmed (calledAfter f) ∉ variableSpellings v) := by
  obtain ⟨ts, hts⟩ := exists_writtenFrom h
  have hlowered : ∀ t ∈ ts, ∃ f, Lower.Lowered (settingOf options m a.globals) f t := by
    intro t ht
    obtain ⟨f, -, hf⟩ := exists_of_mem_mapM hts.lowered ht
    exact ⟨f, Lower.lowered_of_function hf⟩
  refine ⟨ts, hts, fun t ht => ?_, ?_, ?_⟩
  · obtain ⟨f, hf⟩ := hlowered t ht
    exact hf.callees
  · intro hfree f hf t ht v hv hspelling
    refine hfree v.text ?_ t ht (Lower.text_mem_binders hv)
    exact (text_mem_functionNames hids v).mpr ⟨f, hf, hspelling⟩
  · intro hspellings name hname t ht hbound
    obtain ⟨hidentifier, hreserved⟩ := functionNames_identifier m name hname
    obtain ⟨g, hg⟩ := hlowered t ht
    rcases hg.binders hbound with rfl | ⟨v, hv, rfl⟩ | hmark
    · exact hreserved (by decide)
    · obtain ⟨f, hf, hspelling⟩ := (text_mem_functionNames hids v).mp hname
      exact hspellings f hf t ht v hv hspelling
    · -- a function starts with a letter
      obtain ⟨c, cs, hcs, hc⟩ := hidentifier.starts
      rw [hcs] at hmark
      cases hmark
      cases hc

/-- A call of a function that is named like a variable, but like none that is there. -/
def laterVariable : List UInt8 :=
  ("define i32 @v2(i32 %x) \x7b\n  ret i32 %x\n\x7d\ndefine i32 @f(i32 %x) \x7b\n"
    ++ "  %r = call i32 @v2(i32 %x)\n  ret i32 %r\n\x7d").toUTF8.toList

/-- No function has that variable, so the call means the function. -/
theorem names_captured_iff_later_variable :
    ∃ m a ts, IR.Module.read laterVariable = .ok m ∧ ofModule {} false m = .ok a ∧
      WrittenFrom {} m a ts ∧ ts.map Target.Function.callees = [[], ["v2"]] ∧
      functionNames m = ["v2", "f"] ∧ ∀ name ∈ functionNames m, ∀ t ∈ ts, name ∉ t.binders := by
  have htest : okAnd (IR.Module.read laterVariable) (fun m =>
      decide (functionNames m = ["v2", "f"]) && okAnd (ofModule {} false m) fun a =>
      okAnd (m.defined.mapM (Lower.function (settingOf {} m a.globals))) fun ts =>
      decide (ts.map Target.Function.callees = [[], ["v2"]]) &&
      decide (∀ f ∈ m.functions, ∀ t ∈ ts, ∀ v ∈ t.variables,
        trimmed (calledAfter f) ∉ variableSpellings v)) = true := by decide +kernel
  obtain ⟨m, hm, htest⟩ := exists_of_okAnd htest
  obtain ⟨hnames, hartifact⟩ := Bool.and_eq_true_iff.mp htest
  obtain ⟨a, ha, hlowered⟩ := exists_of_okAnd hartifact
  obtain ⟨ts, hts, htest⟩ := exists_of_okAnd hlowered
  obtain ⟨hcallees, hspellings⟩ := Bool.and_eq_true_iff.mp htest
  have hids := (IR.Module.wellFormed_of_read hm).functionIds
  obtain ⟨ts', hwritten, -, hiff⟩ := names_captured_iff hids ha
  cases Except.ok.inj (hwritten.lowered.symm.trans hts)
  exact ⟨m, a, ts, hm, ha, hwritten, of_decide_eq_true hcallees, of_decide_eq_true hnames,
    hiff.mpr (of_decide_eq_true hspellings)⟩

/-- A call of a function that is named like the parameter it is called with. -/
def firstVariable : List UInt8 :=
  ("define i32 @v0(i32 %x) \x7b\n  ret i32 %x\n\x7d\ndefine i32 @f(i32 %x) \x7b\n"
    ++ "  %r = call i32 @v0(i32 %x)\n  ret i32 %r\n\x7d").toUTF8.toList

/-- The name that the second function calls is the name that it gives its parameter. -/
theorem parameter_called :
    ∃ m a ts, IR.Module.read firstVariable = .ok m ∧ ofModule {} false m = .ok a ∧
      WrittenFrom {} m a ts ∧ functionNames m = ["v0", "f"] ∧
      ∃ t ∈ ts, "v0" ∈ t.callees ∧ "v0" ∈ t.binders := by
  have htest : okAnd (IR.Module.read firstVariable) (fun m =>
      decide (functionNames m = ["v0", "f"]) && okAnd (ofModule {} false m) fun a =>
      okAnd (m.defined.mapM (Lower.function (settingOf {} m a.globals))) fun ts =>
      decide (∃ t ∈ ts, "v0" ∈ t.callees ∧ "v0" ∈ t.binders)) = true := by decide +kernel
  obtain ⟨m, hm, htest⟩ := exists_of_okAnd htest
  obtain ⟨hnames, hartifact⟩ := Bool.and_eq_true_iff.mp htest
  obtain ⟨a, ha, hlowered⟩ := exists_of_okAnd hartifact
  obtain ⟨ts, hts, hcaptured⟩ := exists_of_okAnd hlowered
  obtain ⟨ts', hwritten⟩ := exists_writtenFrom ha
  cases Except.ok.inj (hwritten.lowered.symm.trans hts)
  exact ⟨m, a, ts, hm, ha, hwritten, of_decide_eq_true hnames, of_decide_eq_true hcaptured⟩

end Artifact

end SafeIR
