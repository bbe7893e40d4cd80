import Mathlib.Data.List.Nodup
import SafeIR.Proofs.Reader.Body
import SafeIR.Proofs.Reader.Reference

/-!
# Well-formed modules

Everything behind the reader looks things up by position and checks nothing. `Module.WellFormed`
says what it relies on: numbers agree with positions, every position that occurs anywhere is in
range, names are unique, and functions have the blocks they should have.

The main statement is `Module.read_wellFormed`: a module that was read from bytes, whichever, is
well formed. Names are resolved in two passes, so the proof first says what the passes over labels
and values leave behind, and then hands the scope they make to `Scope.block_known`.
-/

namespace SafeIR

/-- The opcodes that a function spells, block by block; a declaration has no blocks. -/
def Source.Function.opcodes (f : Source.Function) : List (List String) :=
  if f.isDeclaration then [] else f.blocks.map fun b => b.instructions.map fun i => i.op.opcode

namespace IR

variable {values' values : List ValueInfo} {place : Place} {types : TypeTable} {m : Module}
  {functions globals : List String} {index : Nat} {label : String}

/-- The opcodes that end a block. -/
def terminatorOpcodes : List String := ["ret", "br", "switch", "invoke", "resume", "unreachable"]

/-- The opcodes of a block, in order. -/
def Block.opcodes (b : Block) : List String :=
  b.instructions.map (fun i => i.op.opcode) ++ [b.terminator.opcode]

/-- Every position that the function mentions exists. -/
structure Function.WellFormed (m : Module) (f : Function) : Prop where
  blockIds : ∀ (i : Nat) (b : Block), f.blocks[i]? = some b → b.id = ⟨i⟩
  references : ∀ r ∈ f.references,
    r.Within m.globals.length m.functions.length f.values.length f.blocks.length
  labels : (f.blocks.map Block.label).Nodup
  valueNames : (f.values.map ValueInfo.name).Nodup
  /-- The parameters are the first values, in order. -/
  params : f.params = (List.range f.params.length).map ValueId.mk
  /-- A block ends where its last opcode stands and not before. -/
  ends : ∀ b ∈ f.blocks, b.terminator.opcode ∈ terminatorOpcodes ∧
    ∀ i ∈ b.instructions, i.op.opcode ∉ terminatorOpcodes
  /-- A function has blocks exactly if it is defined here. -/
  blocks : f.blocks = [] ↔ f.isDeclaration = true

theorem Function.WellFormed.mem_params {f : Function} (h : f.WellFormed m) {v : ValueId} :
    v ∈ f.params ↔ v.index < f.params.length := by
  rw [h.params, List.mem_map, List.length_map, List.length_range]
  constructor
  · rintro ⟨i, hi, rfl⟩
    exact List.mem_range.mp hi
  · exact fun hv => ⟨v.index, List.mem_range.mpr hv, rfl⟩

/-- Every position that the module mentions exists. -/
structure Module.WellFormed (m : Module) : Prop where
  functionIds : ∀ (i : Nat) (f : Function), m.functions[i]? = some f → f.id = ⟨i⟩
  globalIds : ∀ (i : Nat) (g : Global), m.globals[i]? = some g → g.id = ⟨i⟩
  /-- Globals and functions have names of their own. -/
  symbols : (m.globals.map Global.name ++ m.functions.map Function.name).Nodup
  /-- Constant data stands outside of functions: it refers to no values and no blocks. -/
  initializers : ∀ g ∈ m.globals, ∀ c, g.initializer = some c →
    ∀ r ∈ c.references, r.Within m.globals.length m.functions.length 0 0
  functions : ∀ f ∈ m.functions, f.WellFormed m

/-! ## Names are unique -/

/-- Symbols that pass the check differ from each other and from those seen before. -/
theorem nodup_of_checkSymbols {seen names : List String} {u : Unit}
    (h : checkSymbols seen names = .ok u) : names.Nodup ∧ ∀ name ∈ names, name ∉ seen := by
  induction names generalizing seen with
  | nil => exact ⟨List.nodup_nil, fun _ hname => nomatch hname⟩
  | cons name names ih =>
    rw [checkSymbols, ite_error_eq_ok, List.contains_iff_mem] at h
    obtain ⟨hnot, hrest⟩ := h
    obtain ⟨hnodup, hnew⟩ := ih hrest
    refine ⟨List.nodup_cons.mpr ⟨fun hmem => hnew name hmem List.mem_cons_self, hnodup⟩, ?_⟩
    rintro name' hname'
    rcases List.mem_cons.mp hname' with rfl | hname'
    · exact hnot
    · exact fun hseen => hnew name' hname' (List.mem_cons_of_mem name hseen)

/-- The pass over the labels collects them in order and leaves them different. -/
theorem labels_spec {seen ls : List String} {bs : List Source.Block}
    (h : labels place seen bs = .ok ls) :
    ls = seen ++ bs.map Source.Block.label ∧ (seen.Nodup → ls.Nodup) := by
  induction bs generalizing seen with
  | nil =>
    cases h
    exact ⟨(List.append_nil _).symm, id⟩
  | cons b bs ih =>
    rw [labels, ite_error_eq_ok, List.contains_iff_mem] at h
    obtain ⟨hnot, hrest⟩ := h
    obtain ⟨rfl, hnodup⟩ := ih hrest
    refine ⟨by simp, fun hseen => hnodup ?_⟩
    rw [List.nodup_append]
    refine ⟨hseen, List.nodup_singleton _, fun x hx y hy => ?_⟩
    rw [List.mem_singleton] at hy
    exact fun hxy => hnot (hy ▸ hxy ▸ hx)

/-- One more value is defined behind the others, under a new name. -/
theorem define_spec {name : String} {ty : Ty} (h : define place values name ty = .ok values') :
    values' = values ++ [⟨name, ty⟩] ∧ name ∉ values.map ValueInfo.name := by
  rw [define, ite_error_eq_ok, pure_eq_ok] at h
  obtain ⟨hnot, rfl⟩ := h
  refine ⟨rfl, fun hmem => hnot ?_⟩
  obtain ⟨v, hv, hname⟩ := List.mem_map.mp hmem
  exact List.any_eq_true.mpr ⟨v, hv, by simp [hname]⟩

/-- The values have different names, and the first of them are those given. -/
structure Defines (first : List ValueInfo) (values : List ValueInfo) : Prop where
  names : (values.map ValueInfo.name).Nodup
  isPrefix : first <+: values

theorem Defines.define {first : List ValueInfo} {name : String} {ty : Ty}
    (hv : Defines first values) (h : define place values name ty = .ok values') :
    Defines first values' := by
  obtain ⟨rfl, hnew⟩ := define_spec h
  refine ⟨?_, hv.isPrefix.trans (List.prefix_append _ _)⟩
  rw [List.map_append, List.nodup_append]
  refine ⟨hv.names, List.nodup_singleton _, fun x hx y hy => ?_⟩
  obtain rfl : y = name := List.mem_singleton.mp hy
  exact fun hxy => hnew (hxy ▸ hx)

theorem Defines.result {first : List ValueInfo} {i : Source.Instruction} (hv : Defines first values)
    (h : defineResult types place label values i = .ok values') : Defines first values' := by
  unfold defineResult at h
  split at h
  next => cases h
  next =>
    split at h
    next =>
      cases h
      exact hv
    next name _ =>
      split at h
      next => cases h
      next ty _ =>
        obtain ⟨ty', -, h⟩ := bind_eq_ok.mp h
        exact hv.define h

/-- The pass over the parameters makes one value of each. -/
theorem params_spec {params : List Source.Param}
    (h : params.foldlM (fun values (p : Source.Param) => do
      define place values p.name (← types.resolve place p.ty)) values = .ok values') :
    values'.length = values.length + params.length := by
  induction params generalizing values with
  | nil =>
    cases h
    rfl
  | cons p params ih =>
    rw [List.foldlM_cons] at h
    obtain ⟨values₁, hp, hrest⟩ := bind_eq_ok.mp h
    obtain ⟨ty, -, hp⟩ := bind_eq_ok.mp hp
    obtain ⟨rfl, -⟩ := define_spec hp
    rw [ih hrest, List.length_append, List.length_singleton, List.length_cons]
    omega

/-! ## Opcodes -/

theorem Op.opcode_not_terminator (o : Op) : o.opcode ∉ terminatorOpcodes := by
  cases o with
  | binary op _ _ _ _ | cast op _ _ _ =>
    show op.word ∉ terminatorOpcodes
    cases op <;> decide
  | icmp _ _ _ _ | fcmp _ _ _ _ | fneg _ _ | select _ _ _ _ | alloca _ _ _ | load _ _
  | store _ _ _ | gep _ _ _ | phi _ _ | call _ | landingpad _ _ _ =>
    simp [Op.opcode, terminatorOpcodes]

theorem Terminator.opcode_terminator (t : Terminator) : t.opcode ∈ terminatorOpcodes := by
  cases t <;> simp [Terminator.opcode, terminatorOpcodes]

namespace Scope

variable {s : Scope}

theorem op_opcode {o : Source.Op} {o' : Op} (h : s.op label o = .ok o') : o'.opcode = o.opcode := by
  cases o <;> simp only [op, unsupported, bind_eq_ok, pure_eq_ok, reduceCtorEq] at h <;>
    grind [Op.opcode, Source.Op.opcode]

theorem terminator_opcode {i : Source.Instruction} {t : Terminator}
    (h : s.terminator label i = .ok t) : t.opcode = i.op.opcode := by
  unfold terminator at h
  cases hop : i.op <;>
    simp only [hop, unsupported, bind_eq_ok, pure_eq_ok, reduceCtorEq] at h <;>
    grind [Terminator.opcode, Source.Op.opcode]

/-- A resolved block has the opcodes that its lines spell. -/
theorem block_opcodes {b : Source.Block} {b' : Block} (h : s.block index b = .ok b') :
    b'.opcodes = b.instructions.map fun i => i.op.opcode := by
  obtain ⟨last, instructions, t, hlast, hinstructions, ht, rfl⟩ := block_eq_ok h
  have hinner : instructions.map (fun i => i.op.opcode)
      = b.instructions.dropLast.map fun i => i.op.opcode := by
    refine map_of_mapM hinstructions fun i i' hi => ?_
    rw [instruction, ite_error_eq_ok] at hi
    simp only [bind_eq_ok, pure_eq_ok] at hi
    obtain ⟨-, result, -, op', hop, rfl⟩ := hi
    exact op_opcode hop
  rw [Block.opcodes, hinner, terminator_opcode ht, ← List.dropLast_append_getLast? last hlast]
  simp

end Scope

/-! ## Functions -/

/-- What reading a function gives. Positions are those of the symbols of the module and of the
function's own values and blocks. -/
structure Function.Read (globals functions : List String) (index : Nat) (f : Source.Function)
    (f' : Function) : Prop where
  id : f'.id = ⟨index⟩
  name : f'.name = f.name
  isDeclaration : f'.isDeclaration = f.isDeclaration
  params : f'.params = (List.range f.params.length).map ValueId.mk
  paramValues : f.params.length ≤ f'.values.length
  valueNames : (f'.values.map ValueInfo.name).Nodup
  labels : (f'.blocks.map Block.label).Nodup
  blockIds : ∀ (i : Nat) (b : Block), f'.blocks[i]? = some b → b.id = ⟨i⟩
  opcodes : f'.blocks.map Block.opcodes = f.opcodes
  references : ∀ b ∈ f'.blocks, ∀ r ∈ b.references,
    r.Within globals.length functions.length f'.values.length f'.blocks.length

/-- What reading makes of each part of a function. -/
theorem Function.read_of_ofSource [Demangler] {f : Source.Function} {f' : Function}
    (h : Function.ofSource types globals functions index f = .ok f') :
    Function.Read globals functions index f f' := by
  unfold Function.ofSource at h
  obtain ⟨ret, -, h⟩ := bind_eq_ok.mp h
  obtain ⟨params, hparams, h⟩ := bind_eq_ok.mp h
  have hlen : params.length = f.params.length := by
    simpa using params_spec hparams
  have hdefines : Defines params params := by
    refine ⟨?_, List.prefix_refl _⟩
    refine (foldlM_invariant (P := Defines []) hparams ⟨List.nodup_nil, List.nil_prefix⟩ ?_).names
    intro p _ a b ha hb
    obtain ⟨ty, -, hb⟩ := bind_eq_ok.mp hb
    exact ha.define hb
  cases hdecl : f.isDeclaration with
  | true =>
    simp only [hdecl, if_true, pure_eq_ok] at h
    subst h
    refine { id := rfl, name := rfl, isDeclaration := hdecl.symm, params := rfl,
             paramValues := Nat.le_of_eq hlen.symm, valueNames := hdefines.names,
             labels := List.nodup_nil, blockIds := fun _ _ hb => ?_, opcodes := ?_,
             references := fun _ hb => absurd hb List.not_mem_nil }
    · cases hb
    · rw [Source.Function.opcodes, hdecl]
      rfl
  | false =>
    simp only [hdecl, Bool.false_eq_true, if_false] at h
    obtain ⟨ls, hls, h⟩ := bind_eq_ok.mp h
    obtain ⟨values, hvalues, h⟩ := bind_eq_ok.mp h
    obtain ⟨blocks, hblocks, h⟩ := bind_eq_ok.mp h
    rw [pure_eq_ok] at h
    subst h
    -- the second pass only adds values behind the parameters
    have hall : Defines params values := by
      refine foldlM_invariant hvalues hdefines fun b _ a a' ha ha' => ?_
      exact foldlM_invariant ha' ha fun i _ a a' ha ha' => ha.result ha'
    obtain ⟨hlabels, hnodup⟩ := labels_spec hls
    have hblockLabels : blocks.map Block.label = ls := by
      rw [hlabels, List.nil_append]
      exact map_of_mapM_zipIdx hblocks fun b i b' hb => (Scope.block_known hb).2.2
    have hopcodes : blocks.map Block.opcodes = f.opcodes := by
      rw [Source.Function.opcodes, hdecl]
      exact map_of_mapM_zipIdx hblocks fun b i b' hb => Scope.block_opcodes hb
    refine { id := rfl, name := rfl, isDeclaration := hdecl.symm, params := rfl,
             paramValues := hlen ▸ hall.isPrefix.length_le, valueNames := hall.names,
             labels := hblockLabels ▸ hnodup List.nodup_nil, blockIds := fun i b hb => ?_,
             opcodes := hopcodes, references := fun b hb r hr => ?_ }
    · obtain ⟨b₀, -, hread⟩ := getElem?_of_mapM_zipIdx hblocks hb
      exact (Scope.block_known hread).2.1
    · obtain ⟨⟨b₀, i⟩, -, hread⟩ := exists_of_mem_mapM hblocks hb
      have hhas := (Scope.block_known hread).1 r hr
      rw [Scope.Has, ← hblockLabels, List.length_map, List.length_map] at hhas
      exact hhas

/-- A function that was read from bodied text is well formed in the module it was read for. -/
theorem Function.Read.wellFormed {f : Source.Function} {f' : Function}
    (h : Function.Read globals functions index f f') (hglobals : globals.length = m.globals.length)
    (hfunctions : functions.length = m.functions.length)
    (hbody : f.isDeclaration = false → f.blocks ≠ []) : f'.WellFormed m where
  blockIds := h.blockIds
  references := by
    intro r hr
    rcases List.mem_append.mp hr with hr | hr
    · rw [h.params, List.map_map] at hr
      obtain ⟨i, hi, rfl⟩ := List.mem_map.mp hr
      exact Nat.lt_of_lt_of_le (List.mem_range.mp hi) h.paramValues
    · obtain ⟨b, hb, hr⟩ := List.mem_flatMap.mp hr
      exact hglobals ▸ hfunctions ▸ h.references b hb r hr
  labels := h.labels
  valueNames := h.valueNames
  params := by rw [h.params, List.length_map, List.length_range]
  ends := fun b _ => ⟨b.terminator.opcode_terminator, fun i _ => i.op.opcode_not_terminator⟩
  blocks := by
    have hopcodes := h.opcodes
    rw [Source.Function.opcodes] at hopcodes
    rw [h.isDeclaration]
    cases hdecl : f.isDeclaration with
    | true => simpa [hdecl] using hopcodes
    | false =>
      simp only [hdecl, Bool.false_eq_true, if_false] at hopcodes
      refine iff_of_false (fun hnil => hbody hdecl ?_) nofun
      rw [hnil] at hopcodes
      exact List.map_eq_nil_iff.mp hopcodes.symm

/-! ## Modules -/

theorem Global.known_of_ofSource {g : Source.Global} {g' : Global}
    (h : Global.ofSource types globals functions index g = .ok g') :
    g'.id = ⟨index⟩ ∧ g'.name = g.name ∧ ∀ c, g'.initializer = some c →
      ∀ r ∈ c.references, r.Within globals.length functions.length 0 0 := by
  simp only [Global.ofSource, bind_eq_ok, pure_eq_ok] at h
  obtain ⟨ty, -, initializer, hinit, rfl⟩ := h
  refine ⟨rfl, rfl, fun c hc => ?_⟩
  have hrel := option_mapM_eq_ok.mp hinit
  obtain rfl : initializer = some c := hc
  generalize g.initializer = v at hrel
  cases hrel with
  | some hread => exact Scope.constant_known _ hread

/-- Resolving bodied text gives a well-formed module, with every line of the text in it. -/
theorem Module.wellFormed_of_ofSource [Demangler] {s : Source.Module} (hbody : s.Bodied)
    (h : Module.ofSource s = .ok m) :
    m.WellFormed ∧
      m.functions.map (fun f => f.blocks.map Block.opcodes)
        = s.functions.map Source.Function.opcodes := by
  simp only [Module.ofSource, bind_eq_ok, pure_eq_ok] at h
  obtain ⟨_, hsymbols, globals, hglobals, functions, hfunctions, rfl⟩ := h
  have hglobalNames : globals.map Global.name = s.globals.map Source.Global.name :=
    map_of_mapM_zipIdx hglobals fun g i g' hg => (Global.known_of_ofSource hg).2.1
  have hfunctionNames : functions.map Function.name = s.functions.map Source.Function.name :=
    map_of_mapM_zipIdx hfunctions fun f i f' hf => (Function.read_of_ofSource hf).name
  have hglobalsLen : (s.globals.map Source.Global.name).length = globals.length := by
    rw [← hglobalNames, List.length_map]
  have hfunctionsLen : (s.functions.map Source.Function.name).length = functions.length := by
    rw [← hfunctionNames, List.length_map]
  refine ⟨{ functionIds := fun i f hf => ?_, globalIds := fun i g hg => ?_, symbols := ?_,
            initializers := fun g hg c hc r hr => ?_, functions := fun f hf => ?_ }, ?_⟩
  · obtain ⟨f₀, -, hread⟩ := getElem?_of_mapM_zipIdx hfunctions hf
    exact (Function.read_of_ofSource hread).id
  · obtain ⟨g₀, -, hread⟩ := getElem?_of_mapM_zipIdx hglobals hg
    exact (Global.known_of_ofSource hread).1
  · rw [hglobalNames, hfunctionNames]
    exact (nodup_of_checkSymbols hsymbols).1
  · obtain ⟨⟨g₀, i⟩, -, hread⟩ := exists_of_mem_mapM hglobals hg
    have hwithin := (Global.known_of_ofSource hread).2.2 c hc r hr
    rwa [hglobalsLen, hfunctionsLen] at hwithin
  · obtain ⟨⟨f₀, i⟩, hmem, hread⟩ := exists_of_mem_mapM hfunctions hf
    exact (Function.read_of_ofSource hread).wellFormed hglobalsLen hfunctionsLen
      (hbody f₀ (List.fst_mem_of_mem_zipIdx hmem))
  · exact map_of_mapM_zipIdx hfunctions fun f i f' hf => (Function.read_of_ofSource hf).opcodes

theorem Module.exists_source_of_read [Demangler] {bytes : List UInt8}
    (h : Module.read bytes = .ok m) :
    ∃ s, Source.Module.parse bytes = .ok s ∧ Module.ofSource s = .ok m := by
  unfold Module.read at h
  split at h
  next s hs => exact ⟨s, hs, h⟩
  next => cases h

theorem Module.wellFormed_of_read [Demangler] {bytes : List UInt8} (h : Module.read bytes = .ok m) :
    m.WellFormed := by
  obtain ⟨s, hs, hsource⟩ := Module.exists_source_of_read h
  exact (Module.wellFormed_of_ofSource (Source.Module.parse_bodied hs) hsource).1

/-- **Modules are well formed**: whatever bytes a module was read from, all that is behind the
reader may look up every number it meets, and nothing that the text spells is missing. -/
theorem Module.read_wellFormed [Demangler] {bytes : List UInt8} {m : Module}
    (h : Module.read bytes = .ok m) :
    m.WellFormed ∧ ∃ s, Source.Module.parse bytes = .ok s ∧
      m.functions.map (fun f => f.blocks.map Block.opcodes)
        = s.functions.map Source.Function.opcodes := by
  obtain ⟨s, hs, hsource⟩ := Module.exists_source_of_read h
  obtain ⟨hwell, hopcodes⟩ := Module.wellFormed_of_ofSource (Source.Module.parse_bodied hs) hsource
  exact ⟨hwell, s, hs, hopcodes⟩

/-- A loop that calls what may raise, beside constant data that refers to itself. -/
def loopText : List UInt8 :=
  ("@g = global [1 x ptr] [ptr @g]\n" ++
   "declare i8 @f(i8)\n" ++
   "define i8 @h() \x7b\n" ++
   "a:\n br label %b\n" ++
   "b:\n %i = phi i8 [ 0, %a ], [ %j, %b ]\n" ++
   " %j = invoke i8 @f(i8 %i) to label %b unwind label %c\n" ++
   "c:\n unreachable\n\x7d").toUTF8.toList

/-- Names that are used before they are made are resolved like the others. -/
theorem Module.read_wellFormed_loop :
    ∃ m, Module.read loopText = .ok m ∧ m.globals.length = 1 ∧
      m.functions.map (fun f => f.blocks.length) = [0, 3] ∧ m.WellFormed := by
  have hread : okAnd (Module.read loopText) (fun m => decide (m.globals.length = 1 ∧
      m.functions.map (fun f => f.blocks.length) = [0, 3])) = true := by decide +kernel
  obtain ⟨m, hm, hsize⟩ := exists_of_okAnd hread
  obtain ⟨hglobals, hblocks⟩ := of_decide_eq_true hsize
  exact ⟨m, hm, hglobals, hblocks, (Module.read_wellFormed hm).1⟩

end IR

end SafeIR
