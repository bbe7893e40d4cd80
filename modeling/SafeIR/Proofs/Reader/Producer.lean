import Mathlib.Data.List.Pairwise
import SafeIR.Proofs.Reader.WellFormed

/-!
# Where values are made

Every value but the parameters should be made in one place: by one instruction, or by the call with
a handler that ends a block. The reader numbers values in one pass, from the names that lines give,
and keeps results in another. The first pass takes a name from every line, the second drops it where
the line ends its block without a call.

The main statement is `Module.made_once_iff`: no value is made twice, parameters are not made at
all, and every other value is made exactly if no line names a value that it does not make.
`returned_value_not_made` has such a line.
-/

namespace SafeIR

namespace Source

/-- Whether an operation can make a value: those that end a block do not, calls with a handler
apart. -/
def Op.makesValue : Op → Bool
  | ret _ | br _ | condBr .. | switch .. | resume _ | unreachable => false
  | _ => true

/-- The name of the value that a line makes. -/
def Instruction.made (i : Instruction) : Option String :=
  if i.op.makesValue then i.result else none

/-- The lines of a function in order; a declaration has none. -/
def Function.lines (f : Function) : List Instruction :=
  if f.isDeclaration then [] else f.blocks.flatMap Block.instructions

theorem Instruction.made_of_terminator {i : Instruction} (hop : i.op.makesValue = false) :
    i.made = none := by
  rw [made, hop]
  rfl

theorem Instruction.made_of_makesValue {i : Instruction} (hop : i.op.makesValue = true) :
    i.made = i.result := by
  rw [made, hop]
  rfl

theorem Op.makesValue_of_not_terminator {o : Op} (h : ¬ o.isTerminator = true) :
    o.makesValue = true := by
  cases o <;> first | rfl | exact absurd rfl h

/-- The names of made values are among the names that lines give, in their order. -/
theorem made_sublist (is : List Instruction) :
    (is.filterMap Instruction.made).Sublist (is.filterMap Instruction.result) := by
  induction is with
  | nil => exact List.Sublist.refl _
  | cons i is ih =>
    cases hop : i.op.makesValue with
    | true =>
      rw [List.filterMap_cons, List.filterMap_cons, Instruction.made_of_makesValue hop]
      cases i.result with
      | none => exact ih
      | some name => exact ih.cons_cons name
    | false =>
      rw [List.filterMap_cons_none (Instruction.made_of_terminator hop), List.filterMap_cons]
      cases i.result with
      | none => exact ih
      | some name => exact ih.cons name

/-- A name is made only if the line that gives it makes it. -/
theorem makesValue_of_made {is : List Instruction}
    (hgiven : (is.filterMap Instruction.result).Nodup) {i : Instruction}
    (hi : i ∈ is) {name : String} (hname : i.result = some name)
    (hmade : name ∈ is.filterMap Instruction.made) : i.op.makesValue = true := by
  obtain ⟨j, hj, hjmade⟩ := List.mem_filterMap.mp hmade
  by_contra hdrops
  have hjop : j.op.makesValue = true := by
    by_contra hjop
    rw [Instruction.made_of_terminator (Bool.eq_false_iff.mpr hjop)] at hjmade
    cases hjmade
  rw [Instruction.made_of_makesValue hjop] at hjmade
  have hne : i ≠ j := by
    rintro rfl
    exact hdrops hjop
  -- two lines that give names give different ones
  have hsymm : Std.Symm fun i j : Instruction =>
      ∀ x, i.result = some x → ∀ y, j.result = some y → x ≠ y :=
    ⟨fun _ _ hab x hx y hy hxy => hab y hy x hx hxy.symm⟩
  exact (List.pairwise_filterMap.mp hgiven).forall hi hj hne name hname name hjmade rfl

end Source

namespace IR

/-- The value that a terminator makes. -/
def Terminator.result? : Terminator → Option ValueId
  | invoke result .. => result
  | _ => none

/-- The values that a block makes, one for each place that makes one. -/
def Block.made (b : Block) : List ValueId :=
  b.instructions.filterMap Instruction.result ++ b.terminator.result?.toList

/-- The values that a function makes, one for each place that makes one. -/
def Function.made (f : Function) : List ValueId := f.blocks.flatMap Block.made

/-- Every value but the parameters is made in exactly one place. -/
def Function.MadeOnce (f : Function) : Prop :=
  ∀ v : ValueId, v.index < f.values.length → v ∉ f.params → f.made.count v = 1

/-! ## The pass over the values -/

variable {label name : String} {values values' : List ValueInfo} {i : Source.Instruction}

/-- Where every step of a pass adds the names that it is given, the pass adds all of them. -/
theorem names_of_foldlM {α : Type} {f : List ValueInfo → α → Result (List ValueInfo)}
    {g : α → List String} (hf : ∀ x values values', f values x = .ok values' →
      values'.map ValueInfo.name = values.map ValueInfo.name ++ g x) {xs : List α}
    (h : xs.foldlM f values = .ok values') :
    values'.map ValueInfo.name = values.map ValueInfo.name ++ xs.flatMap g := by
  induction xs generalizing values with
  | nil =>
    cases h
    simp
  | cons x xs ih =>
    rw [List.foldlM_cons] at h
    obtain ⟨values₁, hx, hrest⟩ := bind_eq_ok.mp h
    rw [ih hrest, hf x values values₁ hx, List.flatMap_cons, List.append_assoc]

theorem names_of_define {place : Place} {ty : Ty} (h : define place values name ty = .ok values') :
    values'.map ValueInfo.name = values.map ValueInfo.name ++ [name] := by
  rw [(define_spec h).1, List.map_append]
  rfl

theorem names_of_defineResult {types : TypeTable} {place : Place}
    (h : defineResult types place label values i = .ok values') :
    values'.map ValueInfo.name = values.map ValueInfo.name ++ i.result.toList := by
  unfold defineResult at h
  split at h
  next => cases h
  next =>
    split at h
    next hresult =>
      cases h
      rw [hresult]
      simp
    next name hresult =>
      split at h
      next => cases h
      next ty _ =>
        obtain ⟨ty', -, h⟩ := bind_eq_ok.mp h
        rw [hresult]
        exact names_of_define h

/-! ## The pass over the operations -/

namespace Scope

variable {s : Scope}

/-- A name stands for the first value of that name. -/
theorem value_eq_idxOf {v : ValueId} (h : s.value name = .ok v) : v = ⟨s.values.idxOf name⟩ := by
  unfold value at h
  split at h
  next i hi =>
    cases h
    rw [List.idxOf_eq_getD_idxOf?, hi]
    rfl
  next => cases h

theorem result_eq_map_idxOf {result : Option String} {v : Option ValueId}
    (h : result.mapM s.value = .ok v) : v = result.map fun name => ⟨s.values.idxOf name⟩ := by
  cases option_mapM_eq_ok.mp h with
  | none => rfl
  | some hvalue =>
    rw [value_eq_idxOf hvalue]
    rfl

theorem result_of_instruction {i' : Instruction} (h : s.instruction label i = .ok i') :
    i'.result = i.made.map fun name => ⟨s.values.idxOf name⟩ := by
  rw [instruction, ite_error_eq_ok] at h
  simp only [bind_eq_ok, pure_eq_ok] at h
  obtain ⟨hnot, result, hresult, op', -, rfl⟩ := h
  rw [Source.Instruction.made_of_makesValue (Source.Op.makesValue_of_not_terminator hnot)]
  exact result_eq_map_idxOf hresult

/-- A terminator makes what its line makes. -/
theorem result_of_terminator {t : Terminator} (h : s.terminator label i = .ok t) :
    t.result? = i.made.map fun name => ⟨s.values.idxOf name⟩ := by
  unfold terminator at h
  split at h
  case h_5 c normal unwind hop =>
    have hmakes : i.op.makesValue = true := by rw [hop]; rfl
    simp only [bind_eq_ok, pure_eq_ok] at h
    obtain ⟨result, hresult, _, -, _, -, _, -, rfl⟩ := h
    rw [Source.Instruction.made_of_makesValue hmakes]
    exact result_eq_map_idxOf hresult
  case h_8 => cases h
  -- the other terminators keep no result, whatever name the line gives
  all_goals
    rename_i hop
    have hdrops : i.op.makesValue = false := by rw [hop]; rfl
    rw [Source.Instruction.made_of_terminator hdrops]
    simp only [bind_eq_ok, pure_eq_ok] at h
  case h_1 | h_2 | h_6 =>
    obtain ⟨_, -, rfl⟩ := h
    rfl
  case h_3 | h_4 =>
    obtain ⟨_, -, _, -, _, -, rfl⟩ := h
    rfl
  case h_7 =>
    subst h
    rfl

theorem filterMap_of_mapM {is : List Source.Instruction} {is' : List Instruction}
    (h : is.mapM (s.instruction label) = .ok is') :
    is'.filterMap Instruction.result
      = (is.filterMap Source.Instruction.made).map fun name => ⟨s.values.idxOf name⟩ := by
  have hresults : is'.map Instruction.result
      = is.map fun i => i.made.map fun name => ⟨s.values.idxOf name⟩ :=
    map_of_mapM h fun i i' hi => result_of_instruction hi
  calc is'.filterMap Instruction.result
      = (is'.map Instruction.result).filterMap id := by rw [List.filterMap_map]; rfl
    _ = _ := by rw [hresults, List.filterMap_map, List.map_filterMap]; rfl

/-- A block makes the values of the names that its lines make. -/
theorem made_of_block {index : Nat} {b : Source.Block} {b' : Block}
    (h : s.block index b = .ok b') :
    b'.made = (b.instructions.filterMap Source.Instruction.made).map
      fun name => ⟨s.values.idxOf name⟩ := by
  obtain ⟨last, instructions, t, hlast, hinstructions, ht, rfl⟩ := block_eq_ok h
  have hend : t.result?.toList
      = ([last].filterMap Source.Instruction.made).map fun name => ⟨s.values.idxOf name⟩ := by
    rw [result_of_terminator ht]
    cases hmade : last.made <;> simp [hmade]
  rw [Block.made, filterMap_of_mapM hinstructions, hend, ← List.map_append,
    ← List.filterMap_append, List.dropLast_append_getLast? last hlast]

end Scope

/-! ## Functions -/

/-- What the two passes make of the names in a function. -/
structure Function.Made (f : Source.Function) (f' : Function) : Prop where
  params : f'.params = (List.range f.params.length).map ValueId.mk
  nodup : (f'.values.map ValueInfo.name).Nodup
  names : f'.values.map ValueInfo.name
    = f.params.map Source.Param.name ++ f.lines.filterMap Source.Instruction.result
  made : f'.made = (f.lines.filterMap Source.Instruction.made).map fun name =>
    ⟨(f'.values.map ValueInfo.name).idxOf name⟩

/-- What the two passes over a function make. -/
theorem Function.made_of_ofSource [Demangler] {types : TypeTable} {globals functions : List String}
    {index : Nat} {f : Source.Function} {f' : Function}
    (h : Function.ofSource types globals functions index f = .ok f') : Function.Made f f' := by
  have hread := Function.read_of_ofSource h
  suffices hpasses : f'.values.map ValueInfo.name
        = f.params.map Source.Param.name ++ f.lines.filterMap Source.Instruction.result ∧
      f'.made = (f.lines.filterMap Source.Instruction.made).map fun name =>
        ⟨(f'.values.map ValueInfo.name).idxOf name⟩ from
    ⟨hread.params, hread.valueNames, hpasses.1, hpasses.2⟩
  unfold Function.ofSource at h
  obtain ⟨ret, -, h⟩ := bind_eq_ok.mp h
  obtain ⟨params, hparams, h⟩ := bind_eq_ok.mp h
  have hparamNames : params.map ValueInfo.name = f.params.map Source.Param.name := by
    rw [names_of_foldlM (g := fun p : Source.Param => [p.name]) ?_ hparams, List.map_nil,
      List.nil_append, List.map_eq_flatMap]
    intro p values values' hp
    obtain ⟨ty, -, hp⟩ := bind_eq_ok.mp hp
    exact names_of_define hp
  cases hdecl : f.isDeclaration with
  | true =>
    simp only [hdecl, if_true, pure_eq_ok] at h
    subst h
    have hlines : f.lines = [] := by rw [Source.Function.lines, hdecl]; rfl
    rw [hlines]
    exact ⟨hparamNames.trans (List.append_nil _).symm, rfl⟩
  | false =>
    simp only [hdecl, Bool.false_eq_true, if_false] at h
    obtain ⟨labels, -, h⟩ := bind_eq_ok.mp h
    obtain ⟨values, hvalues, h⟩ := bind_eq_ok.mp h
    obtain ⟨blocks, hblocks, h⟩ := bind_eq_ok.mp h
    rw [pure_eq_ok] at h
    subst h
    have hlines : f.lines = f.blocks.flatMap Source.Block.instructions := by
      rw [Source.Function.lines, hdecl]
      rfl
    rw [hlines, List.filterMap_flatMap, List.filterMap_flatMap]
    -- The names come from the pass that defines results, the identifiers from the one that reads.
    constructor
    · rw [← hparamNames]
      refine names_of_foldlM (fun b _ _ hb => ?_) hvalues
      rw [List.filterMap_eq_flatMap_toList]
      exact names_of_foldlM (fun i _ _ hi => names_of_defineResult hi) hb
    · have hmade := map_of_mapM_zipIdx hblocks fun b i b' hb => Scope.made_of_block hb
      calc blocks.flatMap Block.made
          = (blocks.map Block.made).flatten := List.flatMap_def
        _ = _ := by rw [hmade, ← List.flatMap_def, List.map_flatMap]

namespace Function.Made

variable {f : Source.Function} {f' : Function}

theorem mem_params (h : Made f f') (v : ValueId) : v ∈ f'.params ↔ v.index < f.params.length := by
  obtain ⟨k⟩ := v
  simp [h.params]

theorem mem_names (h : Made f f') (hname : name ∈ f.lines.filterMap Source.Instruction.result) :
    name ∈ f'.values.map ValueInfo.name := by
  rw [h.names]
  exact List.mem_append_right _ hname

theorem nodup_given (h : Made f f') :
    (f.lines.filterMap Source.Instruction.result).Nodup := by
  have hnames := h.nodup
  rw [h.names] at hnames
  exact hnames.of_append_right

/-- The value of a name that a line gives stands behind the parameters. -/
theorem idxOf_given (h : Made f f') (hname : name ∈ f.lines.filterMap Source.Instruction.result) :
    f.params.length ≤ (f'.values.map ValueInfo.name).idxOf name
      ∧ (f'.values.map ValueInfo.name).idxOf name < f'.values.length := by
  have hlt := List.idxOf_lt_length_of_mem (h.mem_names hname)
  rw [List.length_map] at hlt
  refine ⟨?_, hlt⟩
  have hnames := h.nodup
  rw [h.names] at hnames ⊢
  have hnot : name ∉ f.params.map Source.Param.name :=
    fun hparam => (List.nodup_append.mp hnames).2.2 name hparam name hname rfl
  rw [List.idxOf_append_of_notMem hnot, List.length_map]
  omega

/-- Behind the parameters, every value has the name that some line gives. -/
theorem given_of_index (h : Made f f') {v : ValueId} (hlt : v.index < f'.values.length)
    (hparam : f.params.length ≤ v.index) :
    ∃ name ∈ f.lines.filterMap Source.Instruction.result,
      (f'.values.map ValueInfo.name)[v.index]? = some name := by
  rw [← List.length_map ValueInfo.name, h.names] at hlt
  rw [h.names, List.getElem?_eq_getElem hlt]
  refine ⟨_, ?_, rfl⟩
  rw [List.getElem_append_right (by rwa [List.length_map])]
  exact List.getElem_mem _

/-- No place makes what another makes: lines give different names. -/
theorem nodup_made (h : Made f f') : f'.made.Nodup := by
  rw [h.made]
  refine (h.nodup_given.sublist (Source.made_sublist _)).map_on fun a ha b _ hab => ?_
  have hgiven := (Source.made_sublist _).subset ha
  exact (List.idxOf_inj (h.mem_names hgiven)).mp (congrArg ValueId.index hab)

/-- A value is made if a line makes its name. -/
theorem mem_made (h : Made f f') {v : ValueId}
    (hv : (f'.values.map ValueInfo.name)[v.index]? = some name) :
    v ∈ f'.made ↔ name ∈ f.lines.filterMap Source.Instruction.made := by
  obtain ⟨hlt, rfl⟩ := List.getElem?_eq_some_iff.mp hv
  rw [h.made, List.mem_map]
  constructor
  · rintro ⟨a, ha, rfl⟩
    rwa [List.getElem_idxOf]
  · intro hmem
    exact ⟨_, hmem, by rw [h.nodup.idxOf_getElem _ hlt]⟩

theorem param_not_made (h : Made f f') {v : ValueId} (hv : v ∈ f'.params) : v ∉ f'.made := by
  intro hmade
  rw [h.made] at hmade
  obtain ⟨name, hname, rfl⟩ := List.mem_map.mp hmade
  have hbehind := (h.idxOf_given ((Source.made_sublist _).subset hname)).1
  have hlt := (h.mem_params _).mp hv
  exact absurd hlt (Nat.not_lt.mpr hbehind)

/-- Values have one producer unless a line names a result that it does not make. -/
theorem madeOnce_iff (h : Made f f') :
    f'.MadeOnce ↔ ∀ i ∈ f.lines, i.result.isSome → i.op.makesValue = true := by
  constructor
  · intro honce i hi hsome
    obtain ⟨name, hname⟩ := Option.isSome_iff_exists.mp hsome
    have hgiven : name ∈ f.lines.filterMap Source.Instruction.result :=
      List.mem_filterMap.mpr ⟨i, hi, hname⟩
    obtain ⟨hbehind, hlt⟩ := h.idxOf_given hgiven
    let v : ValueId := ⟨(f'.values.map ValueInfo.name).idxOf name⟩
    have hparam : v ∉ f'.params := by
      rw [h.mem_params]
      exact Nat.not_lt.mpr hbehind
    have hmade : v ∈ f'.made := List.count_pos_iff.mp (honce v hlt hparam ▸ Nat.one_pos)
    have hat := List.getElem?_idxOf (h.mem_names hgiven)
    exact Source.makesValue_of_made h.nodup_given hi hname ((h.mem_made hat).mp hmade)
  · intro hlines v hlt hparam
    rw [h.mem_params, Nat.not_lt] at hparam
    obtain ⟨name, hgiven, hname⟩ := h.given_of_index hlt hparam
    obtain ⟨i, hi, hresult⟩ := List.mem_filterMap.mp hgiven
    have hop := hlines i hi (Option.isSome_iff_exists.mpr ⟨name, hresult⟩)
    refine List.count_eq_one_of_mem h.nodup_made ((h.mem_made hname).mpr ?_)
    exact List.mem_filterMap.mpr ⟨i, hi, (Source.Instruction.made_of_makesValue hop).trans hresult⟩

end Function.Made

/-! ## Modules -/

/-- What is made in a function that was read is what its lines make. -/
theorem Module.exists_made [Demangler] {bytes : List UInt8} {m : Module}
    (h : Module.read bytes = .ok m) :
    ∃ s, Source.Module.parse bytes = .ok s ∧ ∀ (i : Nat) (f : Function), m.functions[i]? = some f →
      ∃ f₀, s.functions[i]? = some f₀ ∧ Function.Made f₀ f := by
  obtain ⟨s, hs, hsource⟩ := Module.exists_source_of_read h
  simp only [Module.ofSource, bind_eq_ok, pure_eq_ok] at hsource
  obtain ⟨_, -, globals, -, functions, hfunctions, rfl⟩ := hsource
  refine ⟨s, hs, fun i f hf => ?_⟩
  obtain ⟨f₀, hf₀, hread⟩ := getElem?_of_mapM_zipIdx hfunctions hf
  exact ⟨f₀, hf₀, Function.made_of_ofSource hread⟩

/-- No value of a function that was read is made in two places. -/
theorem Module.nodup_made [Demangler] {bytes : List UInt8} {m : Module}
    (h : Module.read bytes = .ok m) {f : Function} (hf : f ∈ m.functions) : f.made.Nodup := by
  obtain ⟨s, -, hmade⟩ := Module.exists_made h
  obtain ⟨i, hi⟩ := List.mem_iff_getElem?.mp hf
  obtain ⟨f₀, -, hmade⟩ := hmade i f hi
  exact hmade.nodup_made

/-- **Values are made once**: in a module that was read from bytes, whichever, no value is made in
two places and no parameter is made at all; the other values of a function are made in one place
each exactly if every line that names a value can make one. -/
theorem Module.made_once_iff [Demangler] {bytes : List UInt8} {m : Module}
    (h : Module.read bytes = .ok m) :
    ∃ s, Source.Module.parse bytes = .ok s ∧ ∀ (i : Nat) (f : Function), m.functions[i]? = some f →
      ∃ f₀, s.functions[i]? = some f₀ ∧ f.made.Nodup ∧ (∀ v ∈ f.params, v ∉ f.made) ∧
        (f.MadeOnce ↔ ∀ line ∈ f₀.lines, line.result.isSome → line.op.makesValue = true) := by
  obtain ⟨s, hs, hmade⟩ := Module.exists_made h
  refine ⟨s, hs, fun i f hf => ?_⟩
  obtain ⟨f₀, hf₀, hmade⟩ := hmade i f hf
  exact ⟨f₀, hf₀, hmade.nodup_made, fun v hv => hmade.param_not_made hv, hmade.madeOnce_iff⟩

/-- In the loop, a phi and a call with a handler make one value each. -/
theorem Module.made_once_iff_loop :
    ∃ m f, Module.read loopText = .ok m ∧ m.functions[1]? = some f ∧
      f.made = [⟨0⟩, ⟨1⟩] ∧ f.values.length = 2 ∧ f.MadeOnce := by
  -- the text is parsed once, for its lines and for the module
  have hparsed : okAnd (Source.Module.parse loopText) (fun s =>
      okAnd (Module.ofSource s) (fun m =>
          m.functions[1]?.any fun f => f.made == [⟨0⟩, ⟨1⟩] && f.values.length == 2) &&
        s.functions[1]?.all fun f => f.lines.all fun line =>
          !line.result.isSome || line.op.makesValue) = true := by
    decide +kernel
  obtain ⟨s, hs, hboth⟩ := exists_of_okAnd hparsed
  obtain ⟨hread, hlines⟩ := Bool.and_eq_true_iff.mp hboth
  obtain ⟨m, hm, hsome⟩ := exists_of_okAnd hread
  obtain ⟨f, hf, hmade⟩ := (Option.any_eq_true _ _).mp hsome
  have hm : Module.read loopText = .ok m := by
    rw [Module.read, hs]
    exact hm
  obtain ⟨s', hs', hfunctions⟩ := Module.made_once_iff hm
  obtain rfl : s = s' := Except.ok.inj (hs.symm.trans hs')
  obtain ⟨f₀, hf₀, -, -, honce⟩ := hfunctions 1 f hf
  rw [hf₀, Option.all_some, List.all_eq_true] at hlines
  rw [Bool.and_eq_true, beq_iff_eq, beq_iff_eq] at hmade
  refine ⟨m, f, hm, hf, hmade.1, hmade.2, honce.mpr fun line hline hresult => ?_⟩
  simpa [hresult] using hlines line hline

/-- A return that names a value. -/
def returnText : List UInt8 := "define i32 @f() \x7b\n  %x = ret i32 0\n\x7d".toUTF8.toList

/-- The name of a return becomes a value that nothing makes. -/
theorem returned_value_not_made :
    ∃ m f, Module.read returnText = .ok m ∧ m.functions[0]? = some f ∧
      f.values.length = 1 ∧ f.params = [] ∧ f.made = [] ∧ ¬ f.MadeOnce := by
  have hread : okAnd (Module.read returnText) (fun m =>
      m.functions[0]?.any fun f => f.values.length == 1 && f.params == [] && f.made == []) =
      true := by
    decide +kernel
  obtain ⟨m, hm, hsome⟩ := exists_of_okAnd hread
  obtain ⟨f, hf, hshape⟩ := (Option.any_eq_true _ _).mp hsome
  simp only [Bool.and_eq_true, beq_iff_eq] at hshape
  obtain ⟨⟨hvalues, hparams⟩, hmade⟩ := hshape
  refine ⟨m, f, hm, hf, hvalues, hparams, hmade, fun honce => ?_⟩
  have hcount := honce ⟨0⟩ (by rw [hvalues]; exact Nat.one_pos) (by simp [hparams])
  rw [hmade] at hcount
  cases hcount

end IR

end SafeIR
