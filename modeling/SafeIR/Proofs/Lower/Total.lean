import SafeIR.Proofs.Lower.Integer

/-!
# What can be lowered

A function on integers is never refused, if the profile admits the widths of its types
(`exists_function`). Every part of the lowering that may fail asks for something that a well-typed
function has: an operand for every phi on every edge, a block behind every branch, a result for
every operation.
-/

namespace SafeIR

namespace IR

variable {ty : Ty} {b : Block}

/-- The types that an operation on integers mentions. -/
def Op.types : Op → List Ty
  | .binary _ _ ty _ _ | .icmp _ ty _ _ | .select ty _ _ _ | .phi ty _ => [ty]
  | .cast _ source target _ => [source, target]
  | _ => []

def Terminator.types : Terminator → List Ty
  | .ret (some (ty, _)) | .switch ty _ _ _ => [ty]
  | _ => []

def Block.types (b : Block) : List Ty :=
  b.instructions.flatMap (fun i => i.op.types) ++ b.terminator.types

/-- The types that a function mentions. -/
def Function.types (f : Function) : List Ty :=
  f.ret :: f.params.map f.typeOf ++ f.blocks.flatMap Block.types

theorem Ty.exists_bits (h : ty.IsInteger) : ∃ bits, ty = .int bits := by
  cases ty <;> first | exact ⟨_, rfl⟩ | exact h.elim

theorem Ty.isInteger_bit : (Ty.int 1).IsInteger := .inl rfl

theorem Ty.isInteger_of_isWord (h : ty.IsWord) : ty.IsInteger := by
  cases ty <;> first | exact .inr h | exact h.elim

theorem Op.isInteger_of_hasType {f : Function} {o : Op} (h : o.HasType f ty) : ty.IsInteger := by
  cases o with
  | binary op flags t l r =>
    obtain ⟨-, hword, rfl, -⟩ := h
    exact Ty.isInteger_of_isWord hword
  | icmp pred t l r =>
    obtain ⟨-, rfl, -⟩ := h
    exact .inl rfl
  | select t cond yes no => exact h.2.1 ▸ h.1
  | cast op source target v => exact h.2.2.2.1 ▸ h.2.1
  | phi t incoming => exact h.2.1 ▸ h.1
  | fcmp | fneg | alloca | load | store | gep | call | landingpad => exact h.elim

theorem Function.op_mem_types {f : Function} (hb : b ∈ f.blocks) {i : Instruction}
    (hi : i ∈ b.instructions) (hty : ty ∈ i.op.types) : ty ∈ f.types :=
  List.mem_append_right _ (List.mem_flatMap.mpr ⟨b, hb,
    List.mem_append_left _ (List.mem_flatMap.mpr ⟨i, hi, hty⟩)⟩)

theorem Function.terminator_mem_types {f : Function} (hb : b ∈ f.blocks)
    (hty : ty ∈ b.terminator.types) : ty ∈ f.types :=
  List.mem_append_right _ (List.mem_flatMap.mpr ⟨b, hb, List.mem_append_right _ hty⟩)

theorem Function.phi_mem_types {f : Function} (hb : b ∈ f.blocks) {p : Phi} (hp : p ∈ b.phis) :
    p.ty ∈ f.types := by
  obtain ⟨i, hi, hphi⟩ := List.mem_filterMap.mp hp
  refine op_mem_types hb hi ?_
  rw [(Instruction.eq_of_phi? hphi).1]
  exact List.mem_cons_self

end IR

namespace Lower

open IR (Block BlockId Datum Instruction Operand Phi ValueId wordWidths)
open Layout (Scalar)
open Target (Action Expr Step Stmt Var)

variable {b : Block}

/-- What a setting has to provide for a function on integers. -/
structure Admits (setting : Setting) (f : IR.Function) : Prop where
  name : ∃ name, setting.names[f.id.index]? = some name
  varargs : f.varargs = false
  ret : f.ret = .void ∨ f.ret.IsInteger
  /-- Truth values are always admitted. -/
  widths : ∀ ty ∈ f.types, ty.bits ≤ max 1 setting.profile.maxIntWidth

namespace Frame

variable (fr : Frame)

theorem layout_of_isInteger {ty : IR.Ty} (hty : ty.IsInteger)
    (hwidth : ty.bits ≤ max 1 fr.setting.profile.maxIntWidth) :
    ∃ l, fr.layout ty = .ok l ∧ l.scalar? = some (scalarOf ty.bits) := by
  obtain ⟨bits, rfl⟩ := IR.Ty.exists_bits hty
  simp only [Frame.layout, Layout.ofType, Layout.ofLeaf]
  obtain rfl | hw := hty
  · exact ⟨.bool, rfl, rfl⟩
  · have hne : bits ≠ 1 := fun h => absurd (h ▸ hw) (by decide)
    refine ⟨.int bits, ?_, (scalarOf_word hw).symm ▸ rfl⟩
    have hcommon : bits ∈ [8, 16, 32, 64, 128] := hw
    have hpos : 0 < bits := (by decide : ∀ w ∈ wordWidths, 0 < w) bits hw
    have hle : ¬ fr.setting.profile.maxIntWidth < bits := by
      have : bits ≤ max 1 fr.setting.profile.maxIntWidth := hwidth
      omega
    rw [if_neg hne, if_pos hcommon, if_neg hle]
    rfl

theorem scalar_of_isInteger {ty : IR.Ty} (hty : ty.IsInteger)
    (hwidth : ty.bits ≤ max 1 fr.setting.profile.maxIntWidth) (s : Site) :
    fr.scalar s ty = .ok (scalarOf ty.bits) := by
  obtain ⟨l, hl, hscalar⟩ := fr.layout_of_isInteger hty hwidth
  simp only [Frame.scalar, hl]
  exact bind_eq_ok.mpr ⟨l, rfl, by rw [hscalar]; rfl⟩

/-- Operands of integer types are values and numbers. -/
theorem exists_operand {ty : IR.Ty} {o : Operand} (hty : ty.IsInteger)
    (hwidth : ty.bits ≤ max 1 fr.setting.profile.maxIntWidth) (ho : o.HasType fr.function ty)
    (s : Site) :
    ∃ x, fr.operand s ty o = .ok x := by
  cases o with
  | value v => exact ⟨_, rfl⟩
  | const c =>
    obtain ⟨d, hd⟩ := Option.isSome_iff_exists.mp ho
    have hscalar := fr.scalar_of_isInteger hty hwidth s
    cases c <;> simp only [Frame.operand, hscalar] <;>
      first
        | exact ⟨_, rfl⟩
        | cases hd
  | global | function | metadata => exact ho.elim

theorem dest_of_isInteger {v : ValueId} (hv : (fr.function.typeOf v).IsInteger) (s : Site)
    (what : String) : fr.dest s (some v) what = .ok (.value v) := by
  obtain ⟨bits, hbits⟩ := IR.Ty.exists_bits hv
  have hdest : fr.dest? (some v) = some (.value v) := by
    simp [Frame.dest?, Option.filter, hbits]
  rw [Frame.dest, hdest]
  rfl

end Frame

theorem exists_binary {op : BinaryOp} (hop : op.isFloat = false) (dest : Var) (w : Nat) (l r : Expr)
    (flags : WrapFlags) (overflow : Overflow) :
    ∃ steps, binary dest op (.int w) l r flags overflow = .ok steps := by
  simp only [binary]
  cases op with
  | add | sub | mul | shl | sdiv | udiv | srem | urem | and | or | xor => exact ⟨_, rfl⟩
  | lshr | ashr =>
    simp only [intBinary]
    split <;> exact ⟨_, rfl⟩
  | fadd | fsub | fmul | fdiv | frem => cases hop

theorem exists_cast {source target : Nat} (hsource : (IR.Ty.int source).IsInteger)
    (htarget : (IR.Ty.int target).IsInteger) {op : CastOp} (hfits : IR.CastFits source target op)
    (v : Expr) : ∃ action, cast? op (scalarOf source) (scalarOf target) v = some action := by
  cases op with
  | trunc =>
    have hs := word_of_lt htarget hsource hfits
    rw [scalarOf_word hs]
    obtain rfl | ht := htarget
    · exact ⟨_, rfl⟩
    · rw [scalarOf_word ht, cast?, if_pos (Nat.le_of_lt hfits)]
      exact ⟨_, rfl⟩
  | zext | sext =>
    have ht := word_of_lt hsource htarget hfits
    rw [scalarOf_word ht]
    obtain rfl | hs := hsource
    · exact ⟨_, rfl⟩
    · rw [scalarOf_word hs, cast?, if_pos (Nat.le_of_lt hfits)]
      exact ⟨_, rfl⟩
  | fptrunc | fpext | fptoui | fptosi | uitofp | sitofp | ptrtoint | inttoptr | bitcast
  | addrspacecast =>
    exact hfits.elim

/-- A typed instruction that fits has code. -/
theorem Frame.exists_instruction (fr : Frame) {i : Instruction}
    (htyped : ∃ v ∈ i.result, i.op.HasType fr.function (fr.function.typeOf v))
    (hwidths : ∀ ty ∈ i.op.types, ty.bits ≤ max 1 fr.setting.profile.maxIntWidth) :
    ∃ stmts, fr.instruction b i = .ok stmts := by
  obtain ⟨result, op⟩ := i
  obtain ⟨v, rfl : result = some v, hop⟩ := htyped
  have hdest (s : Site) (what : String) : fr.dest s (some v) what = .ok (.value v) :=
    fr.dest_of_isInteger (IR.Op.isInteger_of_hasType hop) s what
  -- Nothing is refused: scalars, operands and the destination exist for integers that fit.
  cases op with
  | binary op flags ty l r =>
    obtain ⟨hfloat, hword, -, hl, hr⟩ := hop
    have hty := IR.Ty.isInteger_of_isWord hword
    have hwidth := hwidths ty List.mem_cons_self
    obtain ⟨w, rfl⟩ := IR.Ty.exists_bits hty
    have hscalar := fr.scalar_of_isInteger hty hwidth ⟨b, op.word⟩
    obtain ⟨l', hl'⟩ := fr.exists_operand hty hwidth hl ⟨b, op.word⟩
    obtain ⟨r', hr'⟩ := fr.exists_operand hty hwidth hr ⟨b, op.word⟩
    obtain ⟨steps, hsteps⟩ := exists_binary hfloat (.value v) w l' r' flags
      fr.setting.profile.overflow
    rw [show scalarOf (IR.Ty.int w).bits = .int w from scalarOf_word hword] at hscalar
    simp only [Frame.instruction, IR.Op.opcode, hscalar, hl', hr', hdest, ok_bind, hsteps]
    exact ⟨_, rfl⟩
  | icmp pred ty l r =>
    obtain ⟨hty, -, hl, hr⟩ := hop
    have hwidth := hwidths ty List.mem_cons_self
    have hscalar := fr.scalar_of_isInteger hty hwidth ⟨b, "icmp"⟩
    obtain ⟨l', hl'⟩ := fr.exists_operand hty hwidth hl ⟨b, "icmp"⟩
    obtain ⟨r', hr'⟩ := fr.exists_operand hty hwidth hr ⟨b, "icmp"⟩
    simp only [Frame.instruction, IR.Op.opcode, hscalar, hl', hr', hdest, ok_bind]
    exact ⟨_, rfl⟩
  | select ty cond yes no =>
    obtain ⟨hty, -, hcond, hyes, hno⟩ := hop
    have hwidth := hwidths ty List.mem_cons_self
    have hscalar := fr.scalar_of_isInteger hty hwidth ⟨b, "select"⟩
    obtain ⟨cond', hcond'⟩ :=
      fr.exists_operand IR.Ty.isInteger_bit (Nat.le_max_left ..) hcond ⟨b, "select"⟩
    obtain ⟨yes', hyes'⟩ := fr.exists_operand hty hwidth hyes ⟨b, "select"⟩
    obtain ⟨no', hno'⟩ := fr.exists_operand hty hwidth hno ⟨b, "select"⟩
    simp only [Frame.instruction, IR.Op.opcode, hscalar, hcond', hyes', hno', hdest, ok_bind]
    exact ⟨_, rfl⟩
  | cast op source target o =>
    obtain ⟨hsource, htarget, hfits, -, ho⟩ := hop
    have hwidth := hwidths source List.mem_cons_self
    have hwidth' := hwidths target (List.mem_cons_of_mem _ List.mem_cons_self)
    have hscalar := fr.scalar_of_isInteger hsource hwidth ⟨b, op.word⟩
    have hscalar' := fr.scalar_of_isInteger htarget hwidth' ⟨b, op.word⟩
    obtain ⟨o', ho'⟩ := fr.exists_operand hsource hwidth ho ⟨b, op.word⟩
    obtain ⟨a, rfl⟩ := IR.Ty.exists_bits hsource
    obtain ⟨c, rfl⟩ := IR.Ty.exists_bits htarget
    obtain ⟨action, haction⟩ := exists_cast hsource htarget hfits o'
    simp only [Frame.instruction, IR.Op.opcode, hscalar, hscalar', ho', hdest, ok_bind]
    rw [show (IR.Ty.int a).bits = a from rfl, show (IR.Ty.int c).bits = c from rfl, haction]
    exact ⟨_, rfl⟩
  | phi ty incoming => exact ⟨[], rfl⟩
  | fcmp | fneg | alloca | load | store | gep | call | landingpad => exact hop.elim

section Function

variable {setting : Setting} {f : IR.Function} (hf : f.Sound) (h : Admits setting f) {block : Block}
  (hblock : block ∈ f.blocks)

include hf h hblock

/-- Every edge has its steps. -/
theorem exists_edge {target : BlockId} (hedge : target ∈ block.terminator.successors) :
    ∃ steps, (frameOf setting f).edge block target = .ok steps := by
  have hlt := hf.targets block hblock target hedge
  have htarget := List.getElem?_eq_getElem hlt
  have hmem : f.blocks[target.index] ∈ f.blocks := List.getElem_mem hlt
  have hid : f.blocks[target.index].id = target := hf.blockIds _ _ htarget
  have harrival : ∀ p ∈ f.blocks[target.index].phis, ∃ x,
      (frameOf setting f).arrival block f.blocks[target.index] p.dest p.ty p.incoming = .ok x := by
    intro p hp
    obtain ⟨hty, -, hincoming⟩ := hf.typed.phi hmem hp
    -- the entry that the edge needs is there, since the block is one that control comes from
    obtain ⟨x, hfind, -⟩ := (hf.ssa.2 block hblock).2.2 _ hmem (hid.symm ▸ hedge) p hp
    have hwidth := h.widths p.ty (IR.Function.phi_mem_types hmem hp)
    obtain ⟨v, hv⟩ := (frameOf setting f).exists_operand hty hwidth
      (hincoming x (List.mem_of_find?_eq_some hfind)) ⟨block, "phi"⟩
    have hexceptions : (frameOf setting f).exceptions = [] := exceptionValues_eq_nil hf.typed
    refine ⟨(.value p.dest, v), ?_⟩
    simp only [Frame.arrival, Option.mem_def.mp hfind, hexceptions, List.not_mem_nil, if_false, hv,
      ok_bind]
    rfl
  obtain ⟨pairs, hpairs⟩ := exists_mapM harrival
  rw [← Frame.arrivals_eq_mapM] at hpairs
  exact ⟨_, Frame.edge_eq_ok.mpr ⟨_, pairs, htarget, hpairs, rfl⟩⟩

/-- A typed terminator that fits has code. -/
theorem exists_terminator : ∃ stmts, (frameOf setting f).terminator block = .ok stmts := by
  have htyped := (hf.typed.2 block hblock).2
  have hedge : ∀ target ∈ block.terminator.successors, ∃ steps,
      (frameOf setting f).edge block target = .ok steps :=
    fun target htarget => exists_edge hf h hblock htarget
  have hwidths : ∀ ty ∈ block.terminator.types, ty.bits ≤ max 1 setting.profile.maxIntWidth :=
    fun ty hty => h.widths ty (IR.Function.terminator_mem_types hblock hty)
  unfold Frame.terminator
  cases hterm : block.terminator with
  | ret v =>
    rw [hterm] at htyped hwidths
    cases v with
    | none => exact ⟨_, rfl⟩
    | some v =>
      obtain ⟨ty, v⟩ := v
      obtain ⟨hty, -, hv⟩ := htyped
      obtain ⟨x, hx⟩ := (frameOf setting f).exists_operand hty
        (hwidths ty List.mem_cons_self) hv ⟨block, "ret"⟩
      exact ⟨_, bind_eq_ok.mpr ⟨x, hx, rfl⟩⟩
  | br target =>
    rw [hterm] at hedge
    obtain ⟨steps, hsteps⟩ := hedge target List.mem_cons_self
    exact ⟨_, bind_eq_ok.mpr ⟨steps, hsteps, rfl⟩⟩
  | condBr cond yes no =>
    rw [hterm] at hedge htyped
    obtain ⟨x, hx⟩ := (frameOf setting f).exists_operand IR.Ty.isInteger_bit
      (Nat.le_max_left ..) htyped ⟨block, "br"⟩
    obtain ⟨yes', hyes⟩ := hedge yes List.mem_cons_self
    obtain ⟨no', hno⟩ := hedge no (List.mem_cons_of_mem _ List.mem_cons_self)
    simp only [IR.Terminator.opcode, hx, hyes, hno, ok_bind]
    exact ⟨_, rfl⟩
  | switch ty v default cases =>
    rw [hterm] at hedge htyped hwidths
    obtain ⟨hty, hv⟩ := htyped
    have hwidth := hwidths ty List.mem_cons_self
    have hscalar := (frameOf setting f).scalar_of_isInteger hty hwidth ⟨block, "switch"⟩
    obtain ⟨x, hx⟩ := (frameOf setting f).exists_operand hty hwidth hv
      ⟨block, "switch"⟩
    obtain ⟨default', hdefault⟩ := hedge default List.mem_cons_self
    have hcase : ∀ c ∈ cases, ∃ y, (do
        return (Expr.int c.1 (scalarOf ty.bits), ← (frameOf setting f).edge block c.2))
          = .ok y := by
      intro c hc
      obtain ⟨steps, hsteps⟩ := hedge c.2 (List.mem_cons_of_mem _ (List.mem_map_of_mem hc))
      exact ⟨_, bind_eq_ok.mpr ⟨steps, hsteps, rfl⟩⟩
    obtain ⟨cases', hcases⟩ := exists_mapM hcase
    simp only [IR.Terminator.opcode, hscalar, hx, hcases, hdefault, ok_bind]
    exact ⟨_, rfl⟩
  | unreachable => exact ⟨_, rfl⟩
  | invoke | resume =>
    rw [hterm] at htyped
    exact htyped.elim

theorem exists_block : ∃ stmts, (frameOf setting f).block block = .ok stmts := by
  have hinstruction : ∀ i ∈ block.instructions, ∃ stmts,
      (frameOf setting f).instruction block i = .ok stmts := fun i hi =>
    (frameOf setting f).exists_instruction ((hf.typed.2 block hblock).1 i hi) fun ty hty =>
      h.widths ty (IR.Function.op_mem_types hblock hi hty)
  obtain ⟨body, hbody⟩ := exists_mapM hinstruction
  obtain ⟨last, hlast⟩ := exists_terminator hf h hblock
  exact ⟨_, bind_eq_ok.mpr ⟨body, hbody, bind_eq_ok.mpr ⟨last, hlast, rfl⟩⟩⟩

end Function

theorem Frame.exists_boundaryType (fr : Frame) {ty : IR.Ty} (hty : ty = .void ∨ ty.IsInteger)
    (hwidth : ty.bits ≤ max 1 fr.setting.profile.maxIntWidth) (what : String) :
    ∃ t, fr.boundaryType ty what = .ok t := by
  obtain rfl | hty := hty
  · exact ⟨.unit, rfl⟩
  · obtain ⟨l, hl, hscalar⟩ := fr.layout_of_isInteger hty hwidth
    simp only [Frame.boundaryType, hl, ok_bind]
    cases l <;> first | exact ⟨_, rfl⟩ | cases hscalar

/-- **Integers are lowered.** A well-typed function on integers has code wherever its types are
admitted. -/
theorem exists_function {setting : Setting} {f : IR.Function} (hf : f.Sound)
    (h : Admits setting f) : ∃ t, function setting f = .ok t := by
  obtain ⟨name, hname⟩ := h.name
  obtain ⟨ret, hret⟩ := (frameOf setting f).exists_boundaryType h.ret
    (h.widths _ List.mem_cons_self) "return type"
  have hparam : ∀ p ∈ f.params, ∃ x, (do
      return (Var.value p, ← (frameOf setting f).boundaryType (f.typeOf p) "parameter"))
        = .ok x := by
    intro p hp
    have hmem : f.typeOf p ∈ f.types :=
      List.mem_append_left _ (List.mem_cons_of_mem _ (List.mem_map_of_mem hp))
    obtain ⟨t, ht⟩ := (frameOf setting f).exists_boundaryType (.inr (hf.typed.1 p hp))
      (h.widths _ hmem) "parameter"
    exact ⟨_, bind_eq_ok.mpr ⟨t, ht, rfl⟩⟩
  obtain ⟨params, hparams⟩ := exists_mapM hparam
  obtain ⟨blocks, hblocks⟩ := exists_mapM fun b hb => exists_block hf h hb
  have hsignature : (frameOf setting f).signature = .ok (params, ret) := by
    have hvarargs : ¬ (frameOf setting f).function.varargs = true := by simp [frameOf, h.varargs]
    rw [Frame.signature, if_neg hvarargs]
    exact bind_eq_ok.mpr ⟨ret, hret, bind_eq_ok.mpr ⟨params, hparams, rfl⟩⟩
  simp only [function, hname]
  exact ⟨_, bind_eq_ok.mpr ⟨_, hsignature, bind_eq_ok.mpr ⟨blocks, hblocks, rfl⟩⟩⟩

end Lower

end SafeIR
