import SafeIR.Artifact.Generate
import SafeIR.Proofs.Artifact.Identifier
import SafeIR.Proofs.Artifact.Marker
import SafeIR.Proofs.Lower.Edge

/-!
# Summaries of artifacts

An artifact is read back from its own text. Every statement is indented, every name that is made is
an identifier, and so the only lines that begin with a slash are the heading, the lines that mark
functions, and a line of documentation. The name of the source file and the names of functions are
the only text of a module that is written as it stands: a summary gives the functions of the module
exactly when neither divides a line or makes up one that marks a function.
-/

namespace SafeIR.Artifact

open Lower (Frame Lowered frameOf lowered_of_function)
open Text (Spans Unbroken spans_join spans_ofList unbroken_append unbroken_intercalate unbroken_nat
  unbroken_ofList)

variable {setting : Lower.Setting} {t : Target.Function} {limit : Nat}

/-! ## Code -/

theorem commas_unbroken {xs : List String} (h : ∀ x ∈ xs, Unbroken x) :
    Unbroken (Target.commas xs) :=
  unbroken_intercalate (by decide) h

theorem indented_spans (depth : Nat) (code : String) :
    Spans true true (Target.indented (depth + 1) code) := by
  refine spans_join fun s hs => ?_
  obtain ⟨line, hline, rfl⟩ := List.mem_map.mp hs
  have hfirst : Spans true false "    " := spans_ofList rfl
  have hmore : Spans false false (String.join (List.replicate depth "    ")) := by
    refine spans_join fun t ht => ?_
    rw [List.eq_of_mem_replicate ht]
    exact spans_ofList rfl
  have hindent : Spans true false (String.join (List.replicate (depth + 1) "    ")) := by
    rw [List.replicate_succ, String.join_cons]
    exact hfirst.append hmore
  have hend : Spans false true "\n" := spans_ofList rfl
  exact (hindent.append (Text.unbroken_of_mem_lines hline).spans).append hend

theorem printStmts_spans (depth : Nat) (stmts : List Target.Stmt) :
    Spans true true (printStmts (depth + 1) stmts) := by
  refine spans_join fun s hs => ?_
  obtain ⟨stmt, -, rfl⟩ := List.mem_map.mp hs
  exact indented_spans depth stmt.print

theorem stateMachine_spans (blocks : List (List Target.Stmt)) :
    Spans true true (stateMachine blocks) := by
  have hnames : Unbroken (Target.commas ((List.range blocks.length).map
      fun i => "B" ++ toString i)) := by
    refine commas_unbroken fun x hx => ?_
    obtain ⟨i, -, rfl⟩ := List.mem_map.mp hx
    exact unbroken_append.mpr ⟨by decide, unbroken_nat i⟩
  have harms : Spans true true (String.join (blocks.zipIdx.map fun b =>
      "            Block::B" ++ toString b.2 ++ " => \x7b\n" ++ printStmts 4 b.1
        ++ "            \x7d\n")) := by
    refine spans_join fun s hs => ?_
    obtain ⟨⟨stmts, i⟩, -, rfl⟩ := List.mem_map.mp hs
    have hstart : Spans true false "            Block::B" := spans_ofList rfl
    have hopen : Spans false true " => \x7b\n" := spans_ofList rfl
    have hclose : Spans true true "            \x7d\n" := spans_ofList rfl
    exact (((hstart.append (unbroken_nat i).spans).append hopen).append
      (printStmts_spans 3 stmts)).append hclose
  have hderive : Spans true false
      "    #[derive(Clone, Copy)]\n    #[allow(dead_code)]\n    enum Block \x7b " :=
    spans_ofList rfl
  have hclose : Spans false true " \x7d\n" := spans_ofList rfl
  have hloop : Spans true true "    let mut __current_block = Block::B0;\n    loop \x7b\n" :=
    spans_ofList rfl
  have hmatch : Spans true true "        match __current_block \x7b\n" := spans_ofList rfl
  have hend : Spans true true "        \x7d\n    \x7d\n" := spans_ofList rfl
  exact (((((hderive.append hnames.spans).append hclose).append hloop).append hmatch).append
    harms).append hend

/-- What is written of a function beside its statements stays on its line. -/
structure Inline (f : Target.Function) : Prop where
  identifier : Unbroken f.name
  parameters : ∀ p ∈ f.params, Unbroken p.1.text ∧ Unbroken p.2.text
  result : Unbroken f.ret.text
  declared : ∀ l ∈ f.locals, Unbroken l.print

namespace Inline

variable {f : Target.Function}

theorem params_unbroken (h : Inline f) {mutability : String} (hm : Unbroken mutability) :
    Unbroken (params f mutability) := by
  refine commas_unbroken (List.forall_mem_cons.mpr ⟨by decide, fun x hx => ?_⟩)
  obtain ⟨p, hp, rfl⟩ := List.mem_map.mp hx
  obtain ⟨hvar, hty⟩ := h.parameters p hp
  simp only [unbroken_append]
  exact ⟨⟨⟨hm, hvar⟩, by decide⟩, hty⟩

theorem returns_unbroken (h : Inline f) : Unbroken (returns f) := by
  unfold returns
  simp only [unbroken_append]
  exact ⟨⟨unbroken_ofList (by decide), h.result⟩, unbroken_ofList (by decide)⟩

theorem signature_unbroken (h : Inline f) {mutability : String} (hm : Unbroken mutability) :
    Unbroken ("(" ++ params f mutability ++ ") -> " ++ returns f) := by
  simp only [unbroken_append]
  exact ⟨⟨⟨unbroken_ofList (by decide), h.params_unbroken hm⟩, unbroken_ofList (by decide)⟩,
    h.returns_unbroken⟩

theorem body_spans (h : Inline f) : Spans true true (body f) := by
  have hlocals : Spans true true
      (String.join (f.locals.map fun l => "    " ++ l.print ++ "\n")) := by
    refine spans_join fun s hs => ?_
    obtain ⟨l, hl, rfl⟩ := List.mem_map.mp hs
    have hindent : Spans true false "    " := spans_ofList rfl
    have hend : Spans false true "\n" := spans_ofList rfl
    exact (hindent.append (h.declared l hl).spans).append hend
  refine hlocals.append ?_
  split
  · exact printStmts_spans 0 f.blocks.flatten
  · exact stateMachine_spans f.blocks

theorem allowances_spans : Spans true true allowances :=
  .append (b := false) (.append (b := false) (.append (b := false) (spans_ofList rfl)
    (spans_ofList rfl)) (spans_ofList rfl)) (spans_ofList rfl)

/-- No line of the text around a body begins with a slash. -/
theorem framed_spans (h : Inline f) : Spans true false (framed f) := by
  unfold framed
  extract_lets inner
  have hfn : Spans true false "pub fn " := spans_ofList rfl
  have hsignature : Unbroken ("(" ++ params f "" ++ ") -> " ++ returns f) :=
    h.signature_unbroken (by decide)
  have hbegin : Spans false true " \x7b\n" := spans_ofList rfl
  have henter : Spans true true "    let __frame = ctx.memory.enter_frame();\n" := spans_ofList rfl
  have hresult : Spans true false "    let __result = " := spans_ofList rfl
  have hinner : Unbroken inner := by
    simp only [inner, bodyName, unbroken_append]
    exact ⟨⟨unbroken_ofList (by decide), h.identifier⟩, unbroken_ofList (by decide)⟩
  have hargs : Unbroken (Target.commas ("ctx" :: f.params.map fun p => p.1.text)) := by
    refine commas_unbroken (List.forall_mem_cons.mpr ⟨by decide, fun x hx => ?_⟩)
    obtain ⟨p, hp, rfl⟩ := List.mem_map.mp hx
    exact (h.parameters p hp).1
  have hopen : Spans false false "(" := spans_ofList rfl
  have hclose : Spans false true ");\n" := spans_ofList rfl
  have hleave : Spans true true
      "    ctx.memory.leave_frame(__frame);\n    __result\n\x7d\n\n" := spans_ofList rfl
  have hprivate : Spans true false "fn " := spans_ofList rfl
  have houter := ((hfn.append h.identifier.spans).append hsignature.spans).append hbegin
  have hcall := ((((houter.append henter).append hresult).append hinner.spans).append hopen).append
    hargs.spans
  have hall := ((((hcall.append hclose).append hleave).append allowances_spans).append
    hprivate).append hinner.spans
  simpa only [String.append_assoc] using hall

/-- Behind the line that marks it, the code of a function is whole lines without a slash before
them. -/
theorem exists_code_eq (h : Inline f) :
    ∃ rest, code f = markerLine f ++ rest ∧ Spans true true rest := by
  refine ⟨(if f.usesFrame then framed f else allowances ++ "pub fn " ++ f.name)
    ++ ("(" ++ params f "mut " ++ ") -> " ++ returns f) ++ " \x7b\n" ++ body f ++ "\x7d\n", ?_, ?_⟩
  · unfold code
    simp only [String.append_assoc]
  · have hname : Spans true false
        (if f.usesFrame then framed f else allowances ++ "pub fn " ++ f.name) := by
      split
      · exact h.framed_spans
      · have hfn : Spans true false "pub fn " := spans_ofList rfl
        exact (allowances_spans.append hfn).append h.identifier.spans
    have hopen : Spans false true " \x7b\n" := spans_ofList rfl
    have hend : Spans true true "\x7d\n" := spans_ofList rfl
    exact (((hname.append (h.signature_unbroken (by decide)).spans).append hopen).append
      h.body_spans).append hend

theorem exists_stub_eq (h : Inline f) :
    ∃ rest, stub f = markerLine f ++ rest ∧ Spans true true rest := by
  refine ⟨"#[allow(unused_variables)]\npub fn " ++ f.name
    ++ ("(" ++ params f "" ++ ") -> " ++ returns f)
    ++ " \x7b\n    Err(Trap::Untranslated.into())\n\x7d\n", ?_, ?_⟩
  · unfold stub
    simp only [String.append_assoc]
  · have hstart : Spans true false "#[allow(unused_variables)]\npub fn " := spans_ofList rfl
    have hend : Spans false true " \x7b\n    Err(Trap::Untranslated.into())\n\x7d\n" :=
      spans_ofList rfl
    exact ((hstart.append h.identifier.spans).append
      (h.signature_unbroken (by decide)).spans).append hend

end Inline

/-! ## Functions of a module -/

theorem scalar_ty_unbroken (s : Layout.Scalar) : Unbroken s.ty.text := by
  cases s with
  | int bits => exact unbroken_append.mpr ⟨by decide, unbroken_nat _⟩
  | _ => decide

theorem zeroLiteral_unbroken (s : Layout.Scalar) : Unbroken s.zeroLiteral := by
  cases s with
  | int bits => exact unbroken_append.mpr ⟨by decide, scalar_ty_unbroken _⟩
  | _ => decide

theorem valueId_unbroken (v : IR.ValueId) : Unbroken v.text :=
  unbroken_append.mpr ⟨by decide, unbroken_nat v.index⟩

theorem declare_unbroken {name ty init : String} (hname : Unbroken name) (hty : Unbroken ty)
    (hinit : Unbroken init) : Unbroken (Target.Local.print.declare name ty init) := by
  unfold Target.Local.print.declare
  simp only [unbroken_append]
  exact ⟨⟨⟨⟨⟨⟨unbroken_ofList (by decide), hname⟩, unbroken_ofList (by decide)⟩, hty⟩,
    unbroken_ofList (by decide)⟩, hinit⟩, unbroken_ofList (by decide)⟩

/-- A type at the boundary of a function is that of a scalar, or there is no value. -/
theorem boundaryType_unbroken {fr : Frame} {ty : IR.Ty} {what : String} {t : Target.Ty}
    (h : fr.boundaryType ty what = .ok t) : Unbroken t.text := by
  obtain ⟨layout, -, h⟩ := bind_eq_ok.mp h
  split at h
  next =>
    cases h
    decide
  next =>
    split at h
    next scalar _ =>
      cases h
      exact scalar_ty_unbroken scalar
    next => cases h

theorem signature_unbroken {fr : Frame} {params : List (Target.Var × Target.Ty)} {ret : Target.Ty}
    (h : fr.signature = .ok (params, ret)) :
    (∀ p ∈ params, Unbroken p.1.text ∧ Unbroken p.2.text) ∧ Unbroken ret.text := by
  unfold Frame.signature at h
  obtain ⟨-, h⟩ := ite_error_eq_ok.mp h
  obtain ⟨ret', hret, h⟩ := bind_eq_ok.mp h
  obtain ⟨params', hparams, h⟩ := bind_eq_ok.mp h
  cases h
  refine ⟨fun p hp => ?_, boundaryType_unbroken hret⟩
  obtain ⟨v, -, hv⟩ := exists_of_mem_mapM hparams hp
  obtain ⟨ty, hty, hv⟩ := bind_eq_ok.mp hv
  cases hv
  exact ⟨valueId_unbroken v, boundaryType_unbroken hty⟩

theorem locals_unbroken (fr : Frame) : ∀ l ∈ fr.locals, Unbroken l.print := by
  intro l hl
  rcases List.mem_append.mp hl with hl | hl
  · obtain ⟨⟨info, i⟩, -, hl⟩ := List.mem_filterMap.mp hl
    have hl : fr.localOf? ⟨i⟩ info.ty = some l := hl
    unfold Frame.localOf? at hl
    split at hl
    next =>
      cases hl
      exact declare_unbroken (valueId_unbroken _) (unbroken_ofList (by decide))
        (unbroken_ofList (by decide))
    next =>
      split at hl
      next =>
        obtain ⟨s, -, rfl⟩ := Option.map_eq_some_iff.mp hl
        exact declare_unbroken (valueId_unbroken _) (scalar_ty_unbroken s) (zeroLiteral_unbroken s)
      next => cases hl
  · split at hl
    · obtain rfl := List.mem_singleton.mp hl
      exact declare_unbroken (unbroken_ofList (by decide)) (unbroken_ofList (by decide))
        (unbroken_ofList (by decide))
    · cases hl

theorem names_of_function {f : IR.Function} (h : Lower.function setting f = .ok t) :
    t.name ∈ setting.names ∧ t.sourceName = f.name := by
  unfold Lower.function at h
  simp only at h
  split at h
  next => cases h
  next name hname =>
    obtain ⟨⟨params, ret⟩, -, h⟩ := bind_eq_ok.mp h
    obtain ⟨blocks, -, h⟩ := bind_eq_ok.mp h
    cases h
    exact ⟨List.mem_of_getElem? hname, rfl⟩

theorem inline_of_function {f : IR.Function} (hnames : ∀ name ∈ setting.names, Unbroken name)
    (h : Lower.function setting f = .ok t) : Inline t := by
  have hlowered := lowered_of_function h
  obtain ⟨hparams, hret⟩ := signature_unbroken hlowered.signature
  refine ⟨hnames t.name (names_of_function h).1, hparams, hret, ?_⟩
  rw [hlowered.locals]
  exact locals_unbroken _

/-- What is written for a function, be it code or a stub, marks it and nothing else. -/
theorem summary_written {f : IR.Function} {written' : Emitted × Option Skipped}
    (hnames : ∀ name ∈ setting.names, Unbroken name) (h : Lower.function setting f = .ok t)
    (hwritten : written t limit = .ok written') (hname : Unbroken f.name)
    (hblocks : f.blocks.length < twoPow 64) (text : String) :
    (summary ("\n" ++ written'.1.code ++ text)).functions
      = (f.name, f.blocks.length) :: (summary text).functions := by
  have hinline := inline_of_function hnames h
  have hsource := (names_of_function h).2
  have hlength : t.blocks.length = f.blocks.length := length_of_mapM (lowered_of_function h).blocks
  obtain ⟨rest, hcode, hrest⟩ :
      ∃ rest, written'.1.code = markerLine t ++ rest ∧ Spans true true rest := by
    unfold written at hwritten
    split at hwritten
    next code' hemit =>
      cases hwritten
      obtain ⟨-, hcode⟩ := ite_error_eq_ok.mp hemit
      cases hcode
      exact hinline.exists_code_eq
    next e hemit =>
      split at hwritten
      next =>
        cases hwritten
        exact hinline.exists_stub_eq
      next => cases hwritten
  have hnewline : Spans true true "\n" := spans_ofList rfl
  rw [hcode, String.append_assoc, String.append_assoc, summary_append_of_spans hnewline,
    summary_markerLine_append (hsource ▸ hname) (hlength ▸ hblocks), summary_append_of_spans hrest,
    hsource, hlength]

/-! ## Modules -/

/-- The parts of the artifact of a module. -/
theorem ofModule_eq_ok {options : Options} {cancelled : Bool} {m : IR.Module} {a : Artifact}
    (h : ofModule options cancelled m = .ok a) :
    ∃ (setting : Lower.Setting) (functions : List (Emitted × Option Skipped)),
      setting.names = functionNames m ∧
      Layout.Image.ofGlobals options.profile.maxIntWidth (fun id =>
        ((globalNames m)[id.index]?).getD ("GLOBAL_" ++ toString id.index)) m.globals
        = .ok a.globals ∧
      List.Forall₂ (fun f w => ∃ t, Lower.function setting f = .ok t ∧
        written t options.profile.maxStatements = .ok w) m.defined functions ∧
      a.functions = functions.map Prod.fst ∧ a.sourceFilename = m.sourceFilename := by
  obtain ⟨globals, hglobals, h⟩ := bind_eq_ok.mp h
  obtain ⟨functions, hfunctions, h⟩ := bind_eq_ok.mp h
  cases h
  refine ⟨{ module := m, profile := options.profile, globals := globals.entries
            names := functionNames m }, functions, rfl, hglobals, ?_, rfl, rfl⟩
  refine (mapM_eq_ok.mp hfunctions).imp fun f w hw => ?_
  obtain ⟨-, hw⟩ := ite_error_eq_ok.mp hw
  exact bind_eq_ok.mp hw

/-- The functions of a module, one after the other, are read back in their order. -/
theorem summary_functions {fs : List IR.Function} {ws : List (Emitted × Option Skipped)}
    (hnames : ∀ name ∈ setting.names, Unbroken name)
    (h : List.Forall₂ (fun f w => ∃ t, Lower.function setting f = .ok t ∧
      written t limit = .ok w) fs ws)
    (hfs : ∀ f ∈ fs, Unbroken f.name ∧ f.blocks.length < twoPow 64) :
    (summary (String.join ((ws.map Prod.fst).map fun e => "\n" ++ e.code))).functions
      = fs.map fun f => (f.name, f.blocks.length) := by
  induction h with
  | nil => rfl
  | cons hw _ ih =>
    obtain ⟨t, ht, hwritten⟩ := hw
    obtain ⟨⟨hname, hblocks⟩, hrest⟩ := List.forall_mem_cons.mp hfs
    rw [List.map_cons, List.map_cons, String.join_cons,
      summary_written hnames ht hwritten hname hblocks, ih hrest, List.map_cons]

theorem constName_of_mem_place {constName : IR.GlobalId → String} {cursor stop : Nat}
    {globals : List IR.Global} {entries : List Layout.Entry}
    (h : Layout.Image.place limit constName cursor globals = .ok (entries, stop)) :
    ∀ e ∈ entries, e.constName = constName e.id := by
  induction globals generalizing cursor entries with
  | nil =>
    cases h
    simp
  | cons g gs ih =>
    rw [Layout.Image.place] at h
    split at h
    next => cases h
    next layout hlayout =>
      obtain ⟨⟨entries', stop'⟩, hrest, h⟩ := bind_eq_ok.mp h
      cases h
      exact List.forall_mem_cons.mpr ⟨rfl, ih hrest⟩

theorem constName_unbroken {m : IR.Module} {image : Layout.Image}
    (h : Layout.Image.ofGlobals limit (fun id =>
      ((globalNames m)[id.index]?).getD ("GLOBAL_" ++ toString id.index)) m.globals = .ok image) :
    ∀ e ∈ image.entries, Unbroken e.constName := by
  obtain ⟨⟨entries, stop⟩, hplace, h⟩ := bind_eq_ok.mp h
  obtain ⟨bytes, -, h⟩ := bind_eq_ok.mp h
  cases h
  intro e he
  rw [constName_of_mem_place hplace e he]
  cases hname : (globalNames m)[e.id.index]? with
  | none => exact unbroken_append.mpr ⟨by decide, unbroken_nat _⟩
  | some name => exact globalNames_unbroken m name (List.mem_of_getElem? hname)

theorem printImage_spans (bytes : List UInt8) : Spans true true (printImage bytes) := by
  have hstart : Spans true false "static GLOBAL_IMAGE: &[u8] = &[" := spans_ofList rfl
  have hend (start : Bool) : Spans start true "];\n\n" := by
    cases start <;> exact spans_ofList rfl
  have hrows : Spans true true (String.join ((rows bytes.length bytes).map fun r =>
      "    " ++ Target.commas (r.map fun b => toString b.toNat) ++ ",\n")) := by
    refine spans_join fun s hs => ?_
    obtain ⟨r, -, rfl⟩ := List.mem_map.mp hs
    have hindent : Spans true false "    " := spans_ofList rfl
    have hnewline : Spans false true ",\n" := spans_ofList rfl
    have hbytes : Unbroken (Target.commas (r.map fun b => toString b.toNat)) := by
      refine commas_unbroken fun x hx => ?_
      obtain ⟨b, -, rfl⟩ := List.mem_map.mp hx
      exact unbroken_nat _
    exact (hindent.append hbytes.spans).append hnewline
  unfold printImage
  extract_lets row
  cases bytes with
  | nil =>
    have hempty : Spans false false (if ([] : List UInt8).isEmpty then "" else "\n") :=
      spans_ofList rfl
    exact ((hstart.append hempty).append (spans_join (by simp [rows]))).append (hend false)
  | cons b bytes =>
    have hbreak : Spans false true (if (b :: bytes).isEmpty then "" else "\n") := spans_ofList rfl
    exact ((hstart.append hbreak).append hrows).append (hend true)

/-! ## Artifacts -/

/-- The first line of an artifact, if the name of the source is one line. -/
def heading : Option String → String
  | some source => "// Generated by irbridge from " ++ source ++ ". Do not edit.\n"
  | none => "// Generated by irbridge. Do not edit.\n"

/-- The heading marks what the lines behind its first mark. -/
theorem summary_heading (source : Option String) :
    (summary (heading source)).functions = [] ↔
      ∀ s ∈ source, ∀ line ∈ (Text.lines (s ++ ". Do not edit.\n")).tail, marked? line = none := by
  cases source with
  | none =>
    have hunbroken : Unbroken "// Generated by irbridge. Do not edit." :=
      unbroken_ofList (by decide)
    have hlines := Text.lines_line hunbroken (by simp)
    have hfirst : marked? "// Generated by irbridge. Do not edit." = none :=
      marked?_eq_none (i := 3) (by simp [marker]) (by simp [marker])
    have htext : heading none = "// Generated by irbridge. Do not edit." ++ "\n" := rfl
    rw [htext, summary, hlines, List.filterMap_cons, hfirst]
    simp
  | some s =>
    have hunbroken : Unbroken "// Generated by irbridge from " := unbroken_ofList (by decide)
    obtain ⟨rest, hlines⟩ :=
      Text.exists_lines_append hunbroken (by simp) (by simp) (s ++ ". Do not edit.\n")
    have hfirst : marked? ("// Generated by irbridge from " ++ rest) = none :=
      marked?_eq_none (i := 3) (by simp [marker]) (by simp [marker])
    have htext : heading (some s) = "// Generated by irbridge from " ++ (s ++ ". Do not edit.\n") :=
      String.append_assoc
    rw [htext, summary, hlines, List.filterMap_cons, hfirst]
    simp only [List.filterMap_eq_nil_iff, Option.mem_some_iff, forall_eq']

theorem summary_heading_append (source : Option String) (t : String) :
    (summary (heading source ++ t)).functions
      = (summary (heading source)).functions ++ (summary t).functions := by
  obtain ⟨line, hline⟩ : ∃ line, heading source = line ++ "\n" := by
    cases source with
    | none => exact ⟨"// Generated by irbridge. Do not edit.", rfl⟩
    | some s =>
      have hend : ". Do not edit.\n" = ". Do not edit." ++ "\n" := rfl
      refine ⟨"// Generated by irbridge from " ++ s ++ ". Do not edit.", ?_⟩
      rw [String.append_assoc, ← hend]
      rfl
  rw [hline, summary_line_append]

/-- The line of documentation begins with a slash, but it is no marker. -/
theorem summary_documentation_append (t : String) :
    summary ("/// Execution context with this module's globals installed.\n" ++ t) = summary t := by
  have htext : "/// Execution context with this module's globals installed.\n"
      = "/// Execution context with this module's globals installed." ++ "\n" := rfl
  have hunbroken : Unbroken "/// Execution context with this module's globals installed." :=
    unbroken_ofList (by decide)
  have hmark : marked? "/// Execution context with this module's globals installed." = none :=
    marked?_eq_none (i := 2) (by simp [marker]) (by simp [marker])
  rw [htext, summary, Text.lines_line_append, Text.lines_line hunbroken (by simp),
    List.singleton_append, List.filterMap_cons, hmark]
  rfl

/-- What stands between the heading and the functions marks nothing. -/
theorem summary_print {a : Artifact} (h : ∀ e ∈ a.globals.entries, Unbroken e.constName) :
    (summary a.print).functions = (summary (heading a.sourceFilename)).functions
      ++ (summary (String.join (a.functions.map fun f => "\n" ++ f.code))).functions := by
  have huse : Spans true true "use irbridge_runtime::*;\n\n" := spans_ofList rfl
  have hconstants : Spans true true (String.join (a.globals.entries.map fun e =>
      "pub const " ++ e.constName ++ ": u64 = " ++ toString e.address ++ ";\n")) := by
    refine spans_join fun s hs => ?_
    obtain ⟨e, he, rfl⟩ := List.mem_map.mp hs
    have hconst : Spans true false "pub const " := spans_ofList rfl
    have htype : Spans false false ": u64 = " := spans_ofList rfl
    have hend : Spans false true ";\n" := spans_ofList rfl
    exact (((hconst.append (h e he).spans).append htype).append (unbroken_nat _).spans).append hend
  have hblank : Spans true true (if a.globals.entries.isEmpty then "" else "\n") := by
    split <;> exact spans_ofList rfl
  have hcontext : Spans true true "pub fn new_context() -> Context \x7b\n" := spans_ofList rfl
  have hnew : Spans true true "    Context::new(Memory::with_globals(GLOBAL_IMAGE))\n\x7d\n" :=
    spans_ofList rfl
  have hprint : a.print = heading a.sourceFilename ++ ("use irbridge_runtime::*;\n\n"
      ++ (String.join (a.globals.entries.map fun e =>
        "pub const " ++ e.constName ++ ": u64 = " ++ toString e.address ++ ";\n")
      ++ ((if a.globals.entries.isEmpty then "" else "\n") ++ (printImage a.globals.bytes
      ++ ("/// Execution context with this module's globals installed.\n"
      ++ ("pub fn new_context() -> Context \x7b\n"
      ++ ("    Context::new(Memory::with_globals(GLOBAL_IMAGE))\n\x7d\n"
      ++ String.join (a.functions.map fun f => "\n" ++ f.code)))))))) := by
    unfold print heading
    cases a.sourceFilename <;> simp only [String.append_assoc]
  rw [hprint, summary_heading_append, summary_append_of_spans huse,
    summary_append_of_spans hconstants, summary_append_of_spans hblank,
    summary_append_of_spans (printImage_spans _), summary_documentation_append,
    summary_append_of_spans hcontext, summary_append_of_spans hnew]

/-- The artifact of a module is read back as the names of its functions, in their order, with their
numbers of blocks. That is so exactly when no name divides the line that marks its function, no
number is too large to be read, and no line within the name of the source file marks a function. -/
theorem summary_print_iff {options : Options} {cancelled : Bool} {m : IR.Module} {a : Artifact}
    (h : ofModule options cancelled m = .ok a) :
    summary a.print = ⟨m.defined.map fun f => (f.name, f.blocks.length)⟩ ↔
      (∀ f ∈ m.defined, Unbroken f.name ∧ f.blocks.length < twoPow 64) ∧
      ∀ source ∈ m.sourceFilename,
        ∀ line ∈ (Text.lines (source ++ ". Do not edit.\n")).tail, marked? line = none := by
  obtain ⟨setting, functions, hnames, hglobals, hfunctions, hemitted, hsource⟩ := ofModule_eq_ok h
  have hprint := summary_print (constName_unbroken hglobals)
  have hunbroken : ∀ name ∈ setting.names, Unbroken name := by
    rw [hnames]
    exact functionNames_unbroken m
  rw [hemitted, hsource] at hprint
  constructor
  · intro hsummary
    -- A name that is read is unbroken, so only such names can be read back.
    have hsound : ∀ f ∈ m.defined, Unbroken f.name ∧ f.blocks.length < twoPow 64 := by
      intro f hf
      have hmem : (f.name, f.blocks.length) ∈ (summary a.print).functions := by
        rw [hsummary]
        exact List.mem_map.mpr ⟨f, hf, rfl⟩
      exact sound_of_mem_summary hmem
    refine ⟨hsound, (summary_heading m.sourceFilename).mp ?_⟩
    rw [summary_functions hunbroken hfunctions hsound, hsummary] at hprint
    exact List.self_eq_append_left.mp hprint
  · rintro ⟨hfs, hlines⟩
    rw [summary_functions hunbroken hfunctions hfs, (summary_heading _).mpr hlines,
      List.nil_append] at hprint
    cases hsummary : summary a.print with
    | mk read =>
      rw [hsummary] at hprint
      exact congrArg Summary.mk hprint

/-- A function whose name ends like a line that marks one. -/
def oddNameText : List UInt8 :=
  "define void @\"g blocks=9\"() \x7b\n ret void\n\x7d\ndeclare void @h()".toUTF8.toList

/-- A function whose name is two lines. -/
def brokenNameText : List UInt8 :=
  "define void @\"a\nb\"() \x7b\n ret void\n\x7d".toUTF8.toList

/-- The number that is read is the one behind the name. -/
theorem summary_print_odd_name :
    ∃ m a, IR.Module.read oddNameText = .ok m ∧ ofModule {} false m = .ok a ∧
      summary a.print = ⟨[("g blocks=9", 1)]⟩ := by
  have htest : okAnd (IR.Module.read oddNameText) (fun m =>
      decide (m.defined.map (fun f => (f.name, f.blocks.length)) = [("g blocks=9", 1)] ∧
        m.sourceFilename = none) &&
      okAnd (ofModule {} false m) fun _ => true) = true := by decide +kernel
  obtain ⟨m, hm, htest⟩ := exists_of_okAnd htest
  obtain ⟨hmodule, hartifact⟩ := Bool.and_eq_true_iff.mp htest
  obtain ⟨hdefined, hsource⟩ := of_decide_eq_true hmodule
  obtain ⟨a, ha, -⟩ := exists_of_okAnd hartifact
  refine ⟨m, a, hm, ha, ?_⟩
  rw [← hdefined]
  refine (summary_print_iff ha).mpr ⟨fun f hf => ?_, by simp [hsource]⟩
  have hmem : (f.name, f.blocks.length) ∈ [("g blocks=9", 1)] :=
    hdefined ▸ List.mem_map.mpr ⟨f, hf, rfl⟩
  obtain ⟨hname, hblocks⟩ := Prod.mk.inj (List.mem_singleton.mp hmem)
  rw [hname, hblocks]
  exact ⟨by simp [Unbroken], by decide⟩

/-- A name of two lines is not read back. -/
theorem broken_name_lost :
    ∃ m a, IR.Module.read brokenNameText = .ok m ∧ ofModule {} false m = .ok a ∧
      m.defined.map (fun f => (f.name, f.blocks.length)) = [("a\nb", 1)] ∧
      ("a\nb", 1) ∉ (summary a.print).functions := by
  have htest : okAnd (IR.Module.read brokenNameText) (fun m =>
      decide (m.defined.map (fun f => (f.name, f.blocks.length)) = [("a\nb", 1)]) &&
      okAnd (ofModule {} false m) fun _ => true) = true := by decide +kernel
  obtain ⟨m, hm, htest⟩ := exists_of_okAnd htest
  obtain ⟨hmodule, hartifact⟩ := Bool.and_eq_true_iff.mp htest
  obtain ⟨a, ha, -⟩ := exists_of_okAnd hartifact
  refine ⟨m, a, hm, ha, of_decide_eq_true hmodule, fun hmem => ?_⟩
  exact absurd (sound_of_mem_summary hmem).1 (by simp [Unbroken])

end SafeIR.Artifact
