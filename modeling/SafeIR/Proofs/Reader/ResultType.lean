import SafeIR.Proofs.Reader.WellFormed

/-!
# The types of results

A value has the type that the operation gives which makes it. The reader finds out the types of all
values in one pass and reads the operations in another; the two agree, since no two values of a
function have the same name.
-/

namespace SafeIR.IR

variable {values : List ValueInfo} {types : TypeTable} {label : String} {place : Place}

/-- The type of what an operation makes. -/
def Op.resultTy : Op → Ty
  | .binary _ _ ty _ _ | .fneg ty _ | .select ty _ _ _ | .load ty _ | .store ty _ _ | .phi ty _
  | .landingpad ty _ _ => ty
  | .icmp .. | .fcmp .. => .int 1
  | .cast _ _ target _ => target
  | .alloca .. | .gep .. => .ptr
  | .call site => site.ret

/-! ## The pass over the values -/

/-- Every step of a fold is made, and what it leaves is related to the end by whatever relates the
states around each later step. -/
theorem exists_of_mem_foldlM {ε α σ : Type} {R : σ → σ → Prop} (hrefl : ∀ s, R s s)
    (htrans : ∀ s t u, R s t → R t u → R s u) {f : σ → α → Except ε σ}
    (hf : ∀ x s t, f s x = .ok t → R s t) {xs : List α} {s t : σ} {x : α}
    (h : xs.foldlM f s = .ok t) (hx : x ∈ xs) : ∃ a b, f a x = .ok b ∧ R b t := by
  induction xs generalizing s with
  | nil => cases hx
  | cons y xs ih =>
    rw [List.foldlM_cons] at h
    obtain ⟨s', hy, hrest⟩ := bind_eq_ok.mp h
    rcases List.mem_cons.mp hx with rfl | hx
    · refine ⟨s, s', hy, ?_⟩
      exact foldlM_invariant (P := R s') hrest (hrefl s') fun z _ a b ha hb =>
        htrans s' a b ha (hf z a b hb)
    · exact ih hrest hx

theorem prefix_of_defineResult {i : Source.Instruction} {values' : List ValueInfo}
    (h : defineResult types place label values i = .ok values') : values <+: values' := by
  unfold defineResult at h
  split at h
  next => cases h
  next =>
    split at h
    next =>
      cases h
      exact List.prefix_refl _
    next =>
      split at h
      next => cases h
      next =>
        obtain ⟨ty, -, h⟩ := bind_eq_ok.mp h
        rw [(define_spec h).1]
        exact List.prefix_append _ _

theorem prefix_of_foldlM_defineResult {is : List Source.Instruction} {values' : List ValueInfo}
    (h : is.foldlM (defineResult types place label) values = .ok values') : values <+: values' :=
  foldlM_invariant (P := (values <+: ·)) h (List.prefix_refl _) fun _ _ _ _ ha hb =>
    ha.trans (prefix_of_defineResult hb)

/-- A name that a line gives is defined, with the type of what the line makes. -/
theorem exists_defined {bs : List Source.Block} {first : List ValueInfo}
    (h : bs.foldlM (fun values b => b.instructions.foldlM (defineResult types place b.label) values)
      first = .ok values) {b : Source.Block} (hb : b ∈ bs) {i : Source.Instruction}
    (hi : i ∈ b.instructions) {name : String} (hname : i.result = some name) :
    ∃ ty ty', i.op.resultType? = some ty ∧ types.resolve place ty = .ok ty' ∧
      ⟨name, ty'⟩ ∈ values := by
  obtain ⟨_, afterBlock, hblock, hend⟩ := exists_of_mem_foldlM (R := List.IsPrefix)
    List.prefix_refl (fun _ _ _ => List.IsPrefix.trans)
    (fun _ _ _ => prefix_of_foldlM_defineResult) h hb
  obtain ⟨before, after, hdefine, hgrows⟩ := exists_of_mem_foldlM (R := List.IsPrefix)
    List.prefix_refl (fun _ _ _ => List.IsPrefix.trans) (fun _ _ _ => prefix_of_defineResult)
    hblock hi
  unfold defineResult at hdefine
  split at hdefine
  next => cases hdefine
  next =>
    rw [hname] at hdefine
    simp only at hdefine
    split at hdefine
    next => cases hdefine
    next ty hty =>
      obtain ⟨ty', hty', hdefine⟩ := bind_eq_ok.mp hdefine
      refine ⟨ty, ty', hty, hty', (hgrows.trans hend).subset ?_⟩
      rw [(define_spec hdefine).1]
      exact List.mem_append_right _ (List.mem_singleton_self _)

/-! ## The pass over the operations -/

namespace Scope

variable {s : Scope}

/-- A type that counts for a result unless it is void resolves to one type. -/
theorem ty_of_filter {t ty : Source.Ty} {t' ty' : Ty}
    (hty : (some t).filter (! ·.isVoid) = some ty) (hty' : s.ty ty = .ok ty')
    (ht : s.ty t = .ok t') : ty' = t' := by
  obtain ⟨hsome, -⟩ := Option.filter_eq_some_iff.mp hty
  cases hsome
  exact Except.ok.inj (hty'.symm.trans ht)

/-- The type that an operation is spelled with resolves to the type of what it makes. -/
theorem resultTy_of_op {o : Source.Op} {o' : Op} {ty : Source.Ty} {ty' : Ty}
    (h : s.op label o = .ok o') (hty : o.resultType? = some ty) (hty' : s.ty ty = .ok ty') :
    ty' = o'.resultTy := by
  -- A comparison of vectors has a vector of truth values, but no vector is read.
  have htruth : ∀ {t : Source.Ty} {t' : Ty}, o.resultType? = some (Source.Op.truthType t) →
      s.ty t = .ok t' → ty' = .int 1 := by
    intro t t' heq ht
    have htype : Source.Op.truthType t = .int 1 := by
      cases t with
      | vector len elem => cases ht
      | void | int _ | half | float | double | x86Fp80 | fp128 | ptr | label | metadata
      | array _ _ | struct _ _ | named _ | function _ _ _ => rfl
    rw [heq, htype] at hty
    cases hty
    cases hty'
    rfl
  cases o with
  | binary op' flags t l r =>
    simp only [op, bind_eq_ok, pure_eq_ok] at h
    obtain ⟨t', ht, _, -, _, -, rfl⟩ := h
    exact ty_of_filter hty hty' ht
  | icmp pred flags t l r | fcmp pred flags t l r =>
    simp only [op, bind_eq_ok, pure_eq_ok] at h
    obtain ⟨t', ht, _, -, _, -, rfl⟩ := h
    exact htruth rfl ht
  | fneg flags v =>
    simp only [op, typed, bind_eq_ok, pure_eq_ok] at h
    obtain ⟨_, ⟨t', ht, _, -, rfl⟩, rfl⟩ := h
    exact ty_of_filter hty hty' ht
  | select cond yes no =>
    simp only [op, bind_eq_ok, pure_eq_ok] at h
    obtain ⟨t', ht, _, -, _, -, _, -, rfl⟩ := h
    exact ty_of_filter hty hty' ht
  | cast op' flags v target =>
    simp only [op, bind_eq_ok, pure_eq_ok] at h
    obtain ⟨_, -, t', ht, rfl⟩ := h
    exact ty_of_filter hty hty' ht
  | alloca t count align =>
    simp only [op, bind_eq_ok, pure_eq_ok] at h
    obtain ⟨_, -, _, -, rfl⟩ := h
    cases hty
    cases hty'
    rfl
  | load volatile t address align =>
    simp only [op, bind_eq_ok, pure_eq_ok] at h
    obtain ⟨t', ht, _, -, rfl⟩ := h
    exact ty_of_filter hty hty' ht
  | store volatile v address align =>
    simp only [op, typed, bind_eq_ok, pure_eq_ok] at h
    obtain ⟨_, ⟨t', ht, _, -, rfl⟩, _, -, rfl⟩ := h
    exact ty_of_filter hty hty' ht
  | gep inbounds t base indices =>
    simp only [op, bind_eq_ok, pure_eq_ok] at h
    obtain ⟨_, -, _, -, _, -, rfl⟩ := h
    cases hty
    cases hty'
    rfl
  | phi t incoming =>
    simp only [op, bind_eq_ok, pure_eq_ok] at h
    obtain ⟨t', ht, _, -, rfl⟩ := h
    exact ty_of_filter hty hty' ht
  | call tail c =>
    simp only [op, Scope.site, bind_eq_ok, pure_eq_ok] at h
    obtain ⟨_, ⟨_, -, t', ht, _, -, rfl⟩, rfl⟩ := h
    exact ty_of_filter hty hty' ht
  | landingpad t cleanup clauses =>
    simp only [op, bind_eq_ok, pure_eq_ok] at h
    obtain ⟨t', ht, rfl⟩ := h
    exact ty_of_filter hty hty' ht
  | ret _ | br _ | condBr _ _ _ | switch _ _ _ | unreachable | resume _ | invoke _ _ _ | other _ =>
    cases h

/-- The value of a name stands where the name does. -/
theorem value_of_defined {name : String} {ty : Ty} {v : ValueId}
    (hs : s.values = values.map ValueInfo.name) (hnames : (values.map ValueInfo.name).Nodup)
    (hdefined : ⟨name, ty⟩ ∈ values) (h : s.value name = .ok v) :
    values[v.index]? = some ⟨name, ty⟩ := by
  unfold value at h
  split at h
  next i hi =>
    cases h
    obtain ⟨j, hj⟩ := List.mem_iff_getElem?.mp hdefined
    have hjname : (values.map ValueInfo.name)[j]? = some name := by
      rw [List.getElem?_map, hj]
      rfl
    have hiname : (values.map ValueInfo.name)[i]? = some name := by
      rw [hs, List.idxOf?, List.findIdx?_eq_some_iff_getElem] at hi
      obtain ⟨hlt, hname, -⟩ := hi
      rw [List.getElem?_eq_getElem hlt, eq_of_beq hname]
    have hlt := (List.getElem?_eq_some_iff.mp hiname).1
    obtain rfl : i = j := (List.getElem?_inj hlt hnames).mp (hiname.trans hjname.symm)
    exact hj
  next => cases h

/-- Where every line of a block gives its value the type of what it makes, so does the block. -/
theorem results_of_block {typeOf : ValueId → Ty} {index : Nat} {b : Source.Block} {b' : Block}
    (hline : ∀ i ∈ b.instructions, ∀ v, i.result.mapM s.value = .ok (some v) →
      ∃ ty, i.op.resultType? = some ty ∧ s.ty ty = .ok (typeOf v))
    (h : s.block index b = .ok b') :
    (∀ i ∈ b'.instructions, ∀ v, i.result = some v → typeOf v = i.op.resultTy) ∧
    ∀ v site normal unwind, b'.terminator = .invoke (some v) site normal unwind →
      typeOf v = site.ret := by
  obtain ⟨last, instructions, t, hlast, hinstructions, ht, rfl⟩ := block_eq_ok h
  constructor
  · intro i' hi' v hv
    obtain ⟨i, hi, hi'⟩ := exists_of_mem_mapM hinstructions hi'
    rw [instruction, ite_error_eq_ok] at hi'
    simp only [bind_eq_ok, pure_eq_ok] at hi'
    obtain ⟨-, result, hresult, op', hop, rfl⟩ := hi'
    obtain rfl : result = some v := hv
    obtain ⟨ty, hty, hty'⟩ := hline i (List.dropLast_subset _ hi) v hresult
    exact resultTy_of_op hop hty hty'
  · intro v site normal unwind hterm
    obtain rfl : t = .invoke (some v) site normal unwind := hterm
    unfold terminator at ht
    split at ht
    case h_5 c _ _ hop =>
      -- a call with a handler is spelled with the type of its result, like any call
      simp only [Scope.site, bind_eq_ok, pure_eq_ok] at ht
      obtain ⟨result, hresult, _, ⟨_, -, ret, hret, _, -, rfl⟩, _, -, _, -, heq⟩ := ht
      cases heq
      obtain ⟨ty, hty, hty'⟩ := hline last (List.mem_of_getLast? hlast) v hresult
      rw [hop] at hty
      exact ty_of_filter hty hty' hret
    all_goals
      simp only [bind_eq_ok, pure_eq_ok, reduceCtorEq, and_false, exists_false, unsupported] at ht

end Scope

/-! ## Functions -/

/-- Every result has the type of what its operation makes, that of a call with a handler
included. -/
structure Function.ResultsTyped (f : Function) : Prop where
  instructions : ∀ i ∈ f.instructions, ∀ v, i.result = some v → f.typeOf v = i.op.resultTy
  invokes : ∀ b ∈ f.blocks, ∀ v site normal unwind,
    b.terminator = .invoke (some v) site normal unwind → f.typeOf v = site.ret

/-- Results have the types of their operations. -/
theorem Function.resultsTyped_of_ofSource [Demangler] {globals functions : List String}
    {index : Nat} {f : Source.Function} {f' : Function}
    (h : Function.ofSource types globals functions index f = .ok f') : f'.ResultsTyped := by
  have hnames := (Function.read_of_ofSource h).valueNames
  unfold Function.ofSource at h
  obtain ⟨ret, -, h⟩ := bind_eq_ok.mp h
  obtain ⟨params, -, h⟩ := bind_eq_ok.mp h
  cases hdecl : f.isDeclaration with
  | true =>
    simp only [hdecl, if_true, pure_eq_ok] at h
    subst h
    exact ⟨by simp [Function.instructions], by simp⟩
  | false =>
    simp only [hdecl, Bool.false_eq_true, if_false] at h
    obtain ⟨labels, -, h⟩ := bind_eq_ok.mp h
    obtain ⟨values, hvalues, h⟩ := bind_eq_ok.mp h
    obtain ⟨blocks, hblocks, h⟩ := bind_eq_ok.mp h
    rw [pure_eq_ok] at h
    subst h
    let typeOf (v : ValueId) : Ty := (values[v.index]?.map ValueInfo.ty).getD .void
    have hresults : ∀ b' ∈ blocks,
        (∀ i ∈ b'.instructions, ∀ v, i.result = some v → typeOf v = i.op.resultTy) ∧
        ∀ v site normal unwind, b'.terminator = .invoke (some v) site normal unwind →
          typeOf v = site.ret := by
      intro b' hb'
      obtain ⟨⟨b, index⟩, hb, hread⟩ := exists_of_mem_mapM hblocks hb'
      refine Scope.results_of_block (fun i hi v hv => ?_) hread
      -- the name of the line has been defined, and the value is the one of that name
      have hrel := option_mapM_eq_ok.mp hv
      cases hresult : i.result with
      | none =>
        rw [hresult] at hrel
        cases hrel
      | some name =>
        rw [hresult] at hrel
        cases hrel with
        | some hvalue =>
          obtain ⟨ty, ty', hty, hty', hmem⟩ :=
            exists_defined hvalues (List.fst_mem_of_mem_zipIdx hb) hi hresult
          have htype : typeOf v = ty' := by
            show (values[v.index]?.map ValueInfo.ty).getD .void = ty'
            rw [Scope.value_of_defined rfl hnames hmem hvalue]
            rfl
          exact ⟨ty, hty, htype ▸ hty'⟩
    constructor
    · intro i hi v hv
      obtain ⟨b', hb', hi⟩ := List.mem_flatMap.mp hi
      exact (hresults b' hb').1 i hi v hv
    · intro b' hb'
      exact (hresults b' hb').2

theorem Module.resultsTyped_of_read [Demangler] {bytes : List UInt8} {m : Module}
    (h : Module.read bytes = .ok m) {f : Function} (hf : f ∈ m.functions) : f.ResultsTyped := by
  obtain ⟨s, -, hsource⟩ := Module.exists_source_of_read h
  simp only [Module.ofSource, bind_eq_ok, pure_eq_ok] at hsource
  obtain ⟨_, -, globals, -, functions, hfunctions, rfl⟩ := hsource
  obtain ⟨⟨f₀, i⟩, -, hread⟩ := exists_of_mem_mapM hfunctions hf
  exact Function.resultsTyped_of_ofSource hread

end SafeIR.IR
