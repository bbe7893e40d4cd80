import SafeIR.Proofs.Artifact.Capture

/-!
# The limit on the size of functions

A function with more statements than the limit is replaced by a stub. The limit decides that for
each function alone and has no part in anything else: lowering does not look at it
(`function_limited`) and writing a function cannot fail (`written_eq`). So what a module is made of
is computed without a limit, and the limit only chooses between two texts of each function
(`ofModule_limited`).

The main statement is `limit_isolates_functions`, which compares the artifacts of one module under
two limits.
-/

namespace SafeIR

/-- The profile with another limit. -/
def Profile.limited (p : Profile) (limit : Nat) : Profile := { p with maxStatements := limit }

def Options.limited (o : Options) (limit : Nat) : Options :=
  { o with profile := o.profile.limited limit }

/-! ## Lowering -/

namespace Lower

open IR (Typed)
open Layout (Scalar)

def Setting.limited (s : Setting) (limit : Nat) : Setting :=
  { s with profile := s.profile.limited limit }

namespace Frame

def limited (fr : Frame) (limit : Nat) : Frame := { fr with setting := fr.setting.limited limit }

variable (fr : Frame) (limit : Nat)

theorem innerOffsets_limited (s : Site) (layout : Layout) (start : Int) (indices : List Typed) :
    (fr.limited limit).innerOffsets s layout start indices
      = fr.innerOffsets s layout start indices := by
  induction indices generalizing layout start with
  | nil => rfl
  | cons index indices ih =>
    unfold innerOffsets
    simp only [ih]
    rfl

theorem checkOverload_limited (s : Site) (name : String) (scalar : Scalar) (ret : IR.Ty)
    (args : List Typed) :
    (fr.limited limit).checkOverload s name scalar ret args
      = fr.checkOverload s name scalar ret args := by
  induction args with
  | nil => rfl
  | cons arg args ih =>
    unfold checkOverload
    rw [ih]
    rfl

-- What does not recur reads the profile field by field, so the two sides unfold to one term once
-- the recursive parts are out of the way.

theorem offsets_limited : (fr.limited limit).offsets = fr.offsets := by
  funext s source indices
  unfold offsets
  simp only [innerOffsets_limited]
  rfl

theorem intrinsic_limited : (fr.limited limit).intrinsic = fr.intrinsic := by
  funext s entry name site dest edges
  unfold intrinsic
  simp only [checkOverload_limited]
  rfl

theorem call_limited : (fr.limited limit).call = fr.call := by
  funext s site dest edges
  unfold call
  rw [intrinsic_limited]
  rfl

theorem block_limited : (fr.limited limit).block = fr.block := by
  have hinstruction : (fr.limited limit).instruction = fr.instruction := by
    funext block i
    unfold instruction
    rw [offsets_limited, call_limited]
    rfl
  have hterminator : (fr.limited limit).terminator = fr.terminator := by
    funext block
    unfold terminator
    rw [call_limited]
    rfl
  funext b
  unfold block
  rw [hinstruction, hterminator]

end Frame

/-- The code of a function does not depend on the limit. -/
theorem function_limited (setting : Setting) (limit : Nat) (f : IR.Function) :
    function (setting.limited limit) f = function setting f := by
  have hblock : Frame.block ⟨setting.limited limit, f, exceptionValues f⟩
      = Frame.block ⟨setting, f, exceptionValues f⟩ := Frame.block_limited (frameOf setting f) limit
  simp only [function, hblock]
  rfl

end Lower

/-! ## Writing -/

namespace Artifact

/-- What stands in an artifact for a function. -/
def entry (limit : Nat) (t : Target.Function) : Emitted :=
  ⟨t.name, t.sourceName, t.blocks.length, if limit < t.statementCount then stub t else code t⟩

/-- The function in the list of those that were replaced, if it is one. -/
def skip? (limit : Nat) (t : Target.Function) : Option Skipped :=
  if limit < t.statementCount then
    some ⟨t.sourceName,
      (Failure.tooManyStatements t.sourceName t.statementCount limit).message⟩
  else none

/-- Writing a function cannot fail. -/
theorem written_eq (t : Target.Function) (limit : Nat) :
    written t limit = .ok (entry limit t, skip? limit t) := by
  unfold written emit entry skip?
  by_cases h : limit < t.statementCount
  · simp only [if_pos h]
    rfl
  · simp only [if_neg h]
    rfl

/-- What an artifact is made of: the places of the globals and the functions that the module
defines, lowered, in the order of the source. -/
def parts (options : Options) (cancelled : Bool) (m : IR.Module) :
    Except Failure (Layout.Image × List Target.Function) := do
  let globals ← Layout.Image.ofGlobals options.profile.maxIntWidth (fun id =>
    ((globalNames m)[id.index]?).getD ("GLOBAL_" ++ toString id.index)) m.globals
  let ts ← m.defined.mapM fun f =>
    if cancelled then .error .cancelled else Lower.function (settingOf options m globals) f
  return (globals, ts)

/-- The artifact made of an image and the code of all functions. -/
def assembled (m : IR.Module) (limit : Nat) (p : Layout.Image × List Target.Function) : Artifact :=
  { sourceFilename := m.sourceFilename, globals := p.1, functions := p.2.map (entry limit)
    skipped := p.2.filterMap (skip? limit) }

/-- The limit acts on what an artifact is made of, and nowhere else. -/
theorem ofModule_limited (options : Options) (limit : Nat) (cancelled : Bool) (m : IR.Module) :
    ofModule (options.limited limit) cancelled m
      = (parts options cancelled m).map (assembled m limit) := by
  unfold ofModule parts
  show (Layout.Image.ofGlobals options.profile.maxIntWidth _ m.globals >>= _) = _
  cases Layout.Image.ofGlobals options.profile.maxIntWidth (fun id =>
    ((globalNames m)[id.index]?).getD ("GLOBAL_" ++ toString id.index)) m.globals with
  | error e => rfl
  | ok globals =>
    let lower (f : IR.Function) : Except Failure Target.Function :=
      if cancelled then .error .cancelled else Lower.function (settingOf options m globals) f
    have hwritten : (fun f => do
        if cancelled then .error .cancelled
        else written (← Lower.function ((settingOf options m globals).limited limit) f) limit)
        = fun f => (lower f).map fun t => (entry limit t, skip? limit t) := by
      funext f
      rw [Lower.function_limited]
      cases cancelled with
      | true => rfl
      | false =>
        show (Lower.function (settingOf options m globals) f >>= _)
          = (Lower.function (settingOf options m globals) f).map _
        cases Lower.function (settingOf options m globals) f with
        | error e => rfl
        | ok t => exact written_eq t limit
    show (m.defined.mapM (fun f => do
        if cancelled then .error .cancelled
        else written (← Lower.function ((settingOf options m globals).limited limit) f) limit)
      >>= _) = Except.map _ (m.defined.mapM lower >>= _)
    rw [hwritten, mapM_map]
    cases m.defined.mapM lower with
    | error e => rfl
    | ok ts =>
      show Except.ok (_ : Artifact) = .ok _
      simp [assembled, List.filterMap_map, Function.comp_def]

/-! ## Signatures -/

/-- The text declares the function to callers, with its name, parameters and result, and goes on
with `rest`. Whether a parameter may be assigned to is no matter of the signature. -/
def Declares (t : Target.Function) (text rest : String) : Prop :=
  ∃ before mutability, (mutability = "" ∨ mutability = "mut ") ∧
    text = before ++ "pub fn " ++ t.name ++ "(" ++ params t mutability ++ ") -> " ++ returns t
      ++ " \x7b\n" ++ rest

/-- The body of a function that was replaced. -/
def untranslated : String := "    Err(Trap::Untranslated.into())\n\x7d\n"

theorem declares_stub (t : Target.Function) : Declares t (stub t) untranslated := by
  refine ⟨markerLine t ++ "#[allow(unused_variables)]\n", "", .inl rfl, ?_⟩
  have hstart : "#[allow(unused_variables)]\npub fn "
      = "#[allow(unused_variables)]\n" ++ "pub fn " := rfl
  have hend : " \x7b\n    Err(Trap::Untranslated.into())\n\x7d\n" = " \x7b\n" ++ untranslated := rfl
  unfold stub
  rw [hstart, hend]
  simp only [String.append_assoc]

theorem exists_declares_code (t : Target.Function) : ∃ rest, Declares t (code t) rest := by
  unfold code
  by_cases hframe : t.usesFrame = true
  · -- callers see the outer function, whose parameters are passed on as they are
    obtain ⟨inner, hinner⟩ : ∃ inner, framed t = "pub fn " ++ t.name ++ "(" ++ params t ""
        ++ ") -> " ++ returns t ++ " \x7b\n" ++ inner := by
      unfold framed
      simp only [String.append_assoc]
      exact ⟨_, rfl⟩
    rw [if_pos hframe, hinner]
    refine ⟨inner ++ "(" ++ params t "mut " ++ ") -> " ++ returns t ++ " \x7b\n" ++ body t
      ++ "\x7d\n", markerLine t, "", .inl rfl, ?_⟩
    simp only [String.append_assoc]
  · rw [if_neg hframe]
    refine ⟨body t ++ "\x7d\n", markerLine t ++ allowances, "mut ", .inr rfl, ?_⟩
    simp only [String.append_assoc]

/-! ## Two limits -/

/-- How a function stands in the artifacts under a lower and a higher limit. -/
structure Stands (low high : Nat) (t : Target.Function) (e e' : Emitted) : Prop where
  name : e.name = e'.name
  sourceName : e.sourceName = e'.sourceName
  blocks : e.blocks = e'.blocks
  /-- Only a size between the limits makes a difference. -/
  same : ¬ (low < t.statementCount ∧ t.statementCount ≤ high) → e.code = e'.code
  replaced : low < t.statementCount → e.code = stub t
  full : t.statementCount ≤ high → e'.code = code t

theorem stands_entry {low high : Nat} (hle : low ≤ high) (t : Target.Function) :
    Stands low high t (entry low t) (entry high t) where
  name := rfl
  sourceName := rfl
  blocks := rfl
  same hout := by
    show (if low < t.statementCount then stub t else code t)
      = if high < t.statementCount then stub t else code t
    by_cases hlow : low < t.statementCount
    · have hhigh : high < t.statementCount := Nat.lt_of_not_le fun hfits => hout ⟨hlow, hfits⟩
      rw [if_pos hlow, if_pos hhigh]
    · rw [if_neg hlow, if_neg (by omega)]
  replaced hlow := if_pos hlow
  full hfits := if_neg (Nat.not_lt.mpr hfits)

theorem map_name_filterMap_skip? (limit : Nat) (ts : List Target.Function) :
    (ts.filterMap (skip? limit)).map Skipped.name
      = (ts.filter fun t => limit < t.statementCount).map Target.Function.sourceName := by
  induction ts with
  | nil => rfl
  | cons t ts ih =>
    by_cases h : limit < t.statementCount
    · simp [skip?, h, ih]
    · simp [skip?, h, ih]

/-- The functions of an artifact are lowered in the order of the source. -/
theorem lowered_of_parts {options : Options} {cancelled : Bool} {m : IR.Module}
    {globals : Layout.Image} {ts : List Target.Function}
    (h : parts options cancelled m = .ok (globals, ts)) :
    m.defined.mapM (Lower.function (settingOf options m globals)) = .ok ts := by
  obtain ⟨globals', -, h⟩ := bind_eq_ok.mp h
  obtain ⟨ts', hts, h⟩ := bind_eq_ok.mp h
  cases h
  exact mapM_eq_ok.mpr ((mapM_eq_ok.mp hts).imp fun f t ht => (ite_error_eq_ok.mp ht).2)

/-- **The limit isolates functions.** A module has an artifact under one limit exactly if it has one
under another, and else fails for the same reason. The two artifacts have the same globals and the
same functions in the order of the source. The code of a function differs only if its size lies
between the limits: then it is a stub with the signature of the function under the lower limit, and
written in full under the higher one. Those listed as replaced are exactly the functions above the
limit, in order. -/
theorem limit_isolates_functions (options : Options) (cancelled : Bool) (m : IR.Module)
    {low high : Nat} (hle : low ≤ high) :
    ((∃ a, ofModule (options.limited low) cancelled m = .ok a) ↔
      ∃ b, ofModule (options.limited high) cancelled m = .ok b) ∧
    (∀ e, ofModule (options.limited low) cancelled m = .error e ↔
      ofModule (options.limited high) cancelled m = .error e) ∧
    ∀ a b, ofModule (options.limited low) cancelled m = .ok a →
      ofModule (options.limited high) cancelled m = .ok b →
      ∃ ts, m.defined.mapM (Lower.function (settingOf options m a.globals)) = .ok ts ∧
        b.globals = a.globals ∧
        a.functions.map Emitted.sourceName = m.defined.map IR.Function.name ∧
        a.functions.length = ts.length ∧ b.functions.length = ts.length ∧
        (∀ (i : Nat) (t : Target.Function), ts[i]? = some t →
          ∃ e e', a.functions[i]? = some e ∧ b.functions[i]? = some e' ∧ Stands low high t e e') ∧
        (∀ t ∈ ts, Declares t (stub t) untranslated ∧ ∃ rest, Declares t (code t) rest) ∧
        a.skipped.map Skipped.name
          = (ts.filter fun t => low < t.statementCount).map Target.Function.sourceName ∧
        b.skipped.map Skipped.name
          = (ts.filter fun t => high < t.statementCount).map Target.Function.sourceName := by
  -- The limit is used behind the last step that can fail.
  rw [ofModule_limited, ofModule_limited]
  cases hparts : parts options cancelled m with
  | error e => simp [Except.map]
  | ok p =>
    obtain ⟨globals, ts⟩ := p
    refine ⟨⟨fun _ => ⟨_, rfl⟩, fun _ => ⟨_, rfl⟩⟩, fun e => by simp [Except.map], ?_⟩
    rintro a b ⟨⟩ ⟨⟩
    have hlowered := lowered_of_parts hparts
    refine ⟨ts, hlowered, rfl, ?_, List.length_map _, List.length_map _, ?_, ?_,
      map_name_filterMap_skip? low ts, map_name_filterMap_skip? high ts⟩
    · show (ts.map (entry low)).map Emitted.sourceName = _
      rw [List.map_map]
      exact map_of_mapM hlowered fun f t ht => (names_of_function ht).2
    · intro i t ht
      refine ⟨entry low t, entry high t, ?_, ?_, stands_entry hle t⟩
      · show (ts.map (entry low))[i]? = _
        rw [List.getElem?_map, ht]
        rfl
      · show (ts.map (entry high))[i]? = _
        rw [List.getElem?_map, ht]
        rfl
    · exact fun t _ => ⟨declares_stub t, exists_declares_code t⟩

/-- A function that adds so many times and returns nothing. -/
def adding (id : Nat) (name : String) (count : Nat) : IR.Function :=
  { id := ⟨id⟩, name, demangled := none, params := [], ret := .void, varargs := false
    isDeclaration := false, values := List.replicate count ⟨"", .int 32⟩
    blocks := [{ id := ⟨0⟩, label := "entry", terminator := .ret none
                 instructions := (List.range count).map fun v =>
                  ⟨some ⟨v⟩, .binary .add {} (.int 32) (.const (.int 1)) (.const (.int 2))⟩ }] }

/-- Functions of one, three and five statements. -/
def threeSizes : IR.Module := { functions := [adding 0 "f" 0, adding 1 "g" 1, adding 2 "h" 2] }

/-- The function of three statements is written out from the limit 3 on. -/
theorem limit_isolates_middle_size :
    ∃ a b, ofModule (Options.limited {} 1) false threeSizes = .ok a ∧
      ofModule (Options.limited {} 3) false threeSizes = .ok b ∧
      a.functions.map Emitted.sourceName = ["f", "g", "h"] ∧
      a.skipped.map Skipped.name = ["g", "h"] ∧ b.skipped.map Skipped.name = ["h"] ∧
      ∃ t e e', t.statementCount = 3 ∧ a.functions[1]? = some e ∧ b.functions[1]? = some e' ∧
        e.code = stub t ∧ e'.code = code t := by
  have htest : okAnd (ofModule (Options.limited {} 1) false threeSizes) (fun a =>
      okAnd (ofModule (Options.limited {} 3) false threeSizes) fun _ =>
      okAnd (threeSizes.defined.mapM (Lower.function (settingOf {} threeSizes a.globals)))
        fun ts => decide (ts[1]?.map Target.Function.statementCount = some 3 ∧
          (ts.filter fun t => 1 < t.statementCount).map Target.Function.sourceName = ["g", "h"] ∧
          (ts.filter fun t => 3 < t.statementCount).map Target.Function.sourceName = ["h"]))
      = true := by decide +kernel
  obtain ⟨a, ha, htest⟩ := exists_of_okAnd htest
  obtain ⟨b, hb, htest⟩ := exists_of_okAnd htest
  obtain ⟨ts, hts, htest⟩ := exists_of_okAnd htest
  obtain ⟨hsize, hlow, hhigh⟩ := of_decide_eq_true htest
  obtain ⟨ts', hts', -, hsources, -, -, hstands, -, hskipped, hskipped'⟩ :=
    (limit_isolates_functions {} false threeSizes (by decide : 1 ≤ 3)).2.2 a b ha hb
  cases Except.ok.inj (hts'.symm.trans hts)
  obtain ⟨t, ht, hsize⟩ := Option.map_eq_some_iff.mp hsize
  obtain ⟨e, e', he, he', h⟩ := hstands 1 t ht
  refine ⟨a, b, ha, hb, hsources, hskipped.trans hlow, hskipped'.trans hhigh,
    t, e, e', hsize, he, he', h.replaced ?_, h.full ?_⟩
  · rw [hsize]
    decide
  · rw [hsize]

end Artifact

end SafeIR
