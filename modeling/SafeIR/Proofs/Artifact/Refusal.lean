import SafeIR.Proofs.Artifact.Limit
import SafeIR.Proofs.Layout.Refusal
import SafeIR.Proofs.Lower.Refusal

/-!
# Modules without code

`failure_documented` lists the reasons for which no code is generated for a module that was read.
The failures for positions that are out of range are not among them, nor is a function that is too
large, which is replaced. One thing is left over that the list does not have: a truth value as the
constant of a type without bytes, which nothing rules out before the image is written.
-/

namespace SafeIR.Artifact

open Layout.Image (Bodiless)

/-- The reasons for which there is no code for a module. -/
inductive Documented (options : Options) (m : IR.Module) : Failure → Prop
  | global {g : IR.Global} (hg : g ∈ m.globals) {t : UnsupportedType}
      (ht : Layout.ofType options.profile.maxIntWidth g.ty = .error t) :
      Documented options m (.unsupportedType t)
  | initializer {g : IR.Global} (hg : g ∈ m.globals) {what : Construct}
      (hwhat : ∀ id, what ≠ .strayReference id) :
      Documented options m (.unsupportedConstruct what (.initializer g.name))
  | function {f : IR.Function} (hf : f ∈ m.defined) {e : Failure}
      (h : Lower.Refuses m options.profile f e) : Documented options m e

/-- A function that is too large is replaced, and nothing else can be wrong with its text. -/
theorem exists_written (f : Target.Function) (limit : Nat) : ∃ w, written f limit = .ok w :=
  ⟨_, written_eq f limit⟩

/-- The image of the globals of a module. -/
def imageOf (options : Options) (m : IR.Module) : Except Failure Layout.Image :=
  Layout.Image.ofGlobals options.profile.maxIntWidth (fun id =>
    ((globalNames m)[id.index]?).getD ("GLOBAL_" ++ toString id.index)) m.globals

/-- The code of one function. It does not depend on the code of others, so that functions may be
translated side by side. -/
def codeOf (options : Options) (m : IR.Module) (globals : Layout.Image) (f : IR.Function) :
    Except Failure (Emitted × Option Skipped) := do
  written (← Lower.function (settingOf options m globals) f) options.profile.maxStatements

theorem settingOf_complete {options : Options} {m : IR.Module} (hm : m.WellFormed)
    {globals : Layout.Image} (h : imageOf options m = .ok globals) :
    (settingOf options m globals).Complete where
  module := hm
  names := List.length_map _
  globals id hid := by
    obtain ⟨⟨entries, stop⟩, hplace, h⟩ := bind_eq_ok.mp h
    obtain ⟨bytes, -, h⟩ := bind_eq_ok.mp h
    cases h
    exact Layout.Image.finds_of_place hm.globalIds hplace hid

/-- A function without code is refused. -/
theorem codeOf_fails {options : Options} {m : IR.Module} (hm : m.WellFormed)
    {globals : Layout.Image} (hglobals : imageOf options m = .ok globals) {f : IR.Function}
    (hf : f ∈ m.defined) : FailsWith (Documented options m) (codeOf options m globals f) := by
  have hset : (settingOf options m globals).Complete := settingOf_complete hm hglobals
  have hmem : f ∈ m.functions := List.mem_of_mem_filter hf
  refine .bind ((Lower.function_fails hset hmem).imp fun e he => .function hf he) fun t _ => ?_
  obtain ⟨w, hw⟩ := exists_written t options.profile.maxStatements
  rw [hw]
  exact .ok _

/-- **Code generation fails for documented reasons only.** If there is no code for a module that was
read, then a global has a type without a layout or an initializer that does not fit, or a function
is refused, unless a truth value has no byte to go to. Where several functions are refused, each is
for a documented reason, so that it does not matter whose failure is reported. -/
theorem failure_documented [Demangler] {bytes : List UInt8} {m : IR.Module} {options : Options}
    (hread : IR.Module.read bytes = .ok m) :
    (∀ e, ofModule options false m = .error e →
      Documented options m e ∨ ∃ g ∈ m.globals, e = .noByte g.name ∧
        ∃ value, g.initializer = some value ∧
          Bodiless options.profile.maxIntWidth g.ty value) ∧
    ∀ globals, imageOf options m = .ok globals → ∀ f ∈ m.defined, ∀ e,
      codeOf options m globals f = .error e → Documented options m e := by
  have hm := IR.Module.wellFormed_of_read hread
  refine ⟨?_, fun globals hglobals f hf e => codeOf_fails hm hglobals hf e⟩
  show FailsWith (fun e => _) (ofModule options false m)
  refine .bind ?_ fun globals hglobals => ?_
  · refine (Layout.Image.ofGlobals_fails hm.globalIds hm.initializers).imp fun e he => ?_
    cases he with
    | type hg ht => exact .inl (.global hg ht)
    | construct hg hwhat => exact .inl (.initializer hg hwhat)
    | noByte hg hvalue h => exact .inr ⟨_, hg, rfl, _, hvalue, h⟩
  · refine .bind (.mapM fun f hf => ?_) fun functions _ => .ok _
    exact (codeOf_fails hm hglobals hf).imp fun e he => .inl he

/-- A phi without an entry for one of the two blocks that branch to it. -/
def gapText : List UInt8 :=
  ("define void @f(i1 %c) \x7b\na:\n  br i1 %c, label %b, label %d\nb:\n  br label %d\n"
    ++ "d:\n  %x = phi i32 [ 0, %a ]\n  ret void\n\x7d").toUTF8.toList

/-- Whether a computation ends with the failure for such a phi. -/
def noIncoming? {α : Type} (target source : String) : Except Failure α → Bool
  | .error (.malformed (.noIncoming t s)) => t = target ∧ s = source
  | _ => false

theorem eq_error_of_noIncoming? {α : Type} {target source : String} {x : Except Failure α}
    (h : noIncoming? target source x = true) :
    x = .error (.malformed (.noIncoming target source)) := by
  unfold noIncoming? at h
  split at h
  next t s =>
    obtain ⟨rfl, rfl⟩ := of_decide_eq_true h
    rfl
  next => cases h

/-- A phi without an entry for a block that branches to it. -/
theorem failure_documented_gap :
    ∃ m, IR.Module.read gapText = .ok m ∧
      ofModule {} false m = .error (.malformed (.noIncoming "d" "b")) ∧
      Documented {} m (.malformed (.noIncoming "d" "b")) := by
  have htest : okAnd (IR.Module.read gapText) (fun m =>
      noIncoming? "d" "b" (ofModule {} false m)) = true := by decide +kernel
  obtain ⟨m, hm, hfails⟩ := exists_of_okAnd htest
  have herror := eq_error_of_noIncoming? hfails
  refine ⟨m, hm, herror, ?_⟩
  rcases (failure_documented hm).1 _ herror with hdocumented | ⟨g, -, hbyte, -⟩
  · exact hdocumented
  · cases hbyte

end SafeIR.Artifact
