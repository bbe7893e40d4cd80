import SafeIR.Proofs.IR.Typing
import SafeIR.Proofs.Reader.WellFormed

/-!
# Progress

A well-typed function whose uses are behind their definitions never gets stuck: every state of a
run has a next one (`Function.Sound.step`), and every value in it is a word of its type.

`Covers` is the invariant inside of a block: which values are there, said by the blocks that control
passed and the instructions of the current block that are done. An instruction adds its result, an
edge adds the phis of its target and turns the block into one that was passed.
-/

namespace SafeIR.IR

variable {overflow : Overflow} {d : Datum} {ty : Ty} {x : Except Trap Datum} {i : Instruction}
  {f : Function} {v : ValueId} {t : Terminator} {b : BlockId}

/-- What a run needs of the text of a function. -/
structure Function.Sound (f : Function) : Prop where
  blockIds : ∀ (i : Nat) (b : Block), f.blocks[i]? = some b → b.id = ⟨i⟩
  targets : ∀ b ∈ f.blocks, ∀ target ∈ b.terminator.successors, target.index < f.blocks.length
  nonempty : f.blocks ≠ []
  params : f.params = (List.range f.params.length).map ValueId.mk
  typed : f.WellTyped
  ssa : f.SSA

theorem Terminator.block_mem_references (h : b ∈ t.successors) : .block b ∈ t.references := by
  cases t <;> simp_all [successors, references]

/-- What the reader accepts lacks only types and scopes. -/
theorem Function.WellFormed.sound {m : Module} (h : f.WellFormed m)
    (hbody : f.isDeclaration = false) (htyped : f.WellTyped) (hssa : f.SSA) : f.Sound where
  blockIds := h.blockIds
  targets := by
    intro b hb target htarget
    refine h.references (.block target) ?_
    refine List.mem_append_right _ (List.mem_flatMap.mpr ⟨b, hb, List.mem_append_right _ ?_⟩)
    exact Terminator.block_mem_references htarget
  nonempty := by
    intro hnil
    have hdeclared := h.blocks.mp hnil
    rw [hbody] at hdeclared
    cases hdeclared
  params := h.params
  typed := htyped
  ssa := hssa

/-! ## Values -/

/-- Every value is a word of its type. -/
def Env.Typed (f : Function) (env : Env) : Prop := ∀ v d, env v = some d → f.typeOf v = .int d.bits

namespace Env

variable {env : Env}

theorem isSome_set {v' : ValueId} : (env.set v d v').isSome ↔ v' = v ∨ (env v').isSome := by
  unfold set
  split <;> simp_all

theorem Typed.set (h : env.Typed f) (hd : f.typeOf v = .int d.bits) : (env.set v d).Typed f := by
  intro v' d' h'
  unfold Env.set at h'
  split at h'
  next heq =>
    cases h'
    rw [heq, hd]
  next => exact h v' d' h'

theorem isSome_setAll {pairs : List (ValueId × Datum)} :
    (env.setAll pairs v).isSome ↔ v ∈ pairs.map Prod.fst ∨ (env v).isSome := by
  induction pairs generalizing env with
  | nil => simp [setAll]
  | cons p pairs ih =>
    show ((env.set p.1 p.2).setAll pairs v).isSome ↔ _
    rw [ih, isSome_set, List.map_cons, List.mem_cons]
    tauto

theorem Typed.setAll (h : env.Typed f) {pairs : List (ValueId × Datum)}
    (hp : ∀ p ∈ pairs, f.typeOf p.1 = .int p.2.bits) : (env.setAll pairs).Typed f := by
  induction pairs generalizing env with
  | nil => exact h
  | cons p pairs ih =>
    exact ih (h.set (hp p List.mem_cons_self)) fun p' hp' => hp p' (List.mem_cons_of_mem _ hp')

end Env

/-! ## Operations -/

section Operation

variable {env : Env}

theorem Constant.bits_of_datum? {c : Constant} (h : c.datum? ty = some d) : ty = .int d.bits := by
  unfold Constant.datum? at h
  split at h <;> cases h <;> rfl

theorem Operand.bits_of_datum? {o : Operand} (henv : env.Typed f) (h : o.HasType f ty)
    (hd : o.datum? env ty = some d) : ty = .int d.bits := by
  cases o with
  | value v => exact h ▸ henv v d hd
  | const c => exact Constant.bits_of_datum? hd
  | global | function | metadata => exact h.elim

/-- An operand that is there has a word of its type. -/
theorem Operand.exists_datum {o : Operand} (henv : env.Typed f) (h : o.HasType f ty)
    (huses : ∀ v ∈ o.uses, (env v).isSome) : ∃ d, o.datum? env ty = some d ∧ ty = .int d.bits := by
  have hsome : (o.datum? env ty).isSome := by
    cases o with
    | value v => exact huses v (Reference.mem_values.mpr List.mem_cons_self)
    | const c => exact h
    | global | function | metadata => exact h.elim
  obtain ⟨d, hd⟩ := Option.isSome_iff_exists.mp hsome
  exact ⟨d, hd, bits_of_datum? henv h hd⟩

theorem exists_arithmetic {w : Nat} {op : BinaryOp} (hop : op.isFloat = false) (overflow : Overflow)
    (flags : WrapFlags) (a b : BitVec w) : ∃ r, arithmetic overflow op flags a b = some r := by
  cases op <;> first | exact ⟨_, rfl⟩ | cases hop

theorem Datum.exists_isTrue (h : Ty.int 1 = .int d.bits) : ∃ b, d.isTrue? = some b := by
  obtain ⟨bits, x⟩ := d
  cases h
  exact ⟨_, rfl⟩

theorem Datum.both_of_bits {α : Type} (g : ∀ {w : Nat}, BitVec w → BitVec w → Option α) {w : Nat}
    (x y : BitVec w) : Datum.both g ⟨w, x⟩ ⟨w, y⟩ = g x y :=
  dif_pos rfl

theorem Datum.both_eq_some {α : Type} {g : ∀ {w : Nat}, BitVec w → BitVec w → Option α}
    {a b : Datum} {r : α} (h : a.both g b = some r) :
    ∃ (w : Nat) (x y : BitVec w), a = ⟨w, x⟩ ∧ b = ⟨w, y⟩ ∧ g x y = some r := by
  obtain ⟨w, x⟩ := a
  obtain ⟨w', y⟩ := b
  by_cases hw : w' = w
  · subst hw
    rw [both_of_bits] at h
    exact ⟨w', x, y, rfl, rfl, h⟩
  · rw [both, dif_neg hw] at h
    cases h

theorem Op.eval_binary_eq_some {op : BinaryOp} {flags : WrapFlags} {l r : Operand}
    (h : (Op.binary op flags ty l r).eval overflow env = some x) :
    ∃ (w : Nat) (a b : BitVec w) (z : Except Trap (BitVec w)),
      l.datum? env ty = some ⟨w, a⟩ ∧ r.datum? env ty = some ⟨w, b⟩ ∧
        arithmetic overflow op flags a b = some z ∧ x = z.map (⟨w, ·⟩) := by
  obtain ⟨a, ha, h⟩ := Option.bind_eq_some_iff.mp h
  obtain ⟨b, hb, h⟩ := Option.bind_eq_some_iff.mp h
  obtain ⟨w, a, b, rfl, rfl, hx⟩ := Datum.both_eq_some h
  obtain ⟨z, hz, rfl⟩ := Option.map_eq_some_iff.mp hx
  exact ⟨w, a, b, z, ha, hb, hz, rfl⟩

theorem Op.eval_icmp_eq_some {pred : IntPredicate} {l r : Operand}
    (h : (Op.icmp pred ty l r).eval overflow env = some x) :
    ∃ (w : Nat) (a b : BitVec w), l.datum? env ty = some ⟨w, a⟩ ∧ r.datum? env ty = some ⟨w, b⟩ ∧
      x = .ok ⟨1, BitVec.ofBool (compare pred a b)⟩ := by
  obtain ⟨a, ha, h⟩ := Option.bind_eq_some_iff.mp h
  obtain ⟨b, hb, h⟩ := Option.bind_eq_some_iff.mp h
  obtain ⟨holds, hholds, ⟨⟩⟩ := Option.bind_eq_some_iff.mp h
  obtain ⟨w, a, b, rfl, rfl, ⟨⟩⟩ := Datum.both_eq_some hholds
  exact ⟨w, a, b, ha, hb, rfl⟩

theorem Op.eval_select_eq_some {cond yes no : Operand}
    (h : (Op.select ty cond yes no).eval overflow env = some x) :
    ∃ c holds d, cond.datum? env (.int 1) = some c ∧ c.isTrue? = some holds ∧
      (if holds then yes else no).datum? env ty = some d ∧ x = .ok d := by
  obtain ⟨c, hc, h⟩ := Option.bind_eq_some_iff.mp h
  obtain ⟨holds, hholds, h⟩ := Option.bind_eq_some_iff.mp h
  obtain ⟨d, hd, ⟨⟩⟩ := Option.bind_eq_some_iff.mp h
  exact ⟨c, holds, d, hc, hholds, hd, rfl⟩

theorem Op.eval_cast_eq_some {op : CastOp} {source target : Ty} {v : Operand}
    (h : (Op.cast op source target v).eval overflow env = some x) :
    ∃ a d, v.datum? env source = some a ∧ a.convert op target = some d ∧ x = .ok d := by
  obtain ⟨a, ha, h⟩ := Option.bind_eq_some_iff.mp h
  obtain ⟨d, hd, ⟨⟩⟩ := Option.bind_eq_some_iff.mp h
  exact ⟨a, d, ha, hd, rfl⟩

theorem Datum.bits_of_convert {op : CastOp} {a : Datum} (h : a.convert op ty = some d) :
    ty = .int d.bits := by
  unfold convert at h
  split at h
  · split at h <;> cases h <;> rfl
  · cases h

/-- **Preservation.** The value of an operation is a word of its type. -/
theorem Op.bits_of_eval {o : Op} (henv : env.Typed f) (h : o.HasType f ty)
    (hd : o.eval overflow env = some (.ok d)) : ty = .int d.bits := by
  cases o with
  | binary op flags t l r =>
    obtain ⟨-, -, rfl, hl, -⟩ := h
    obtain ⟨w, a, b, z, ha, -, -, hz⟩ := eval_binary_eq_some hd
    cases z <;> cases hz
    exact Operand.bits_of_datum? (d := ⟨w, a⟩) henv hl ha
  | icmp pred t l r =>
    obtain ⟨w, a, b, -, -, hx⟩ := eval_icmp_eq_some hd
    cases hx
    exact h.2.1
  | select t cond yes no =>
    obtain ⟨-, rfl, -, hyes, hno⟩ := h
    obtain ⟨c, holds, d', -, -, hd', hx⟩ := eval_select_eq_some hd
    cases hx
    cases holds with
    | true => exact Operand.bits_of_datum? henv hyes hd'
    | false => exact Operand.bits_of_datum? henv hno hd'
  | cast op source target v =>
    obtain ⟨a, d', -, hd', hx⟩ := eval_cast_eq_some hd
    cases hx
    exact h.2.2.2.1.trans (Datum.bits_of_convert hd')
  | phi => cases hd
  | fcmp | fneg | alloca | load | store | gep | call | landingpad => exact h.elim

/-- An operation whose operands are there has a value, unless it traps. -/
theorem Op.exists_eval {o : Op} (overflow : Overflow) (henv : env.Typed f) (h : o.HasType f ty)
    (hphi : ∀ t incoming, o ≠ .phi t incoming) (huses : ∀ v ∈ o.uses, (env v).isSome) :
    ∃ r, o.eval overflow env = some r := by
  -- Operands have data since all that the operation uses is defined.
  have operand {x : Operand} {t : Ty} (hx : x.HasType f t)
      (hmem : ∀ v ∈ x.uses, .value v ∈ o.references) :=
    x.exists_datum henv hx fun v hv => huses v (Reference.mem_values.mpr (hmem v hv))
  cases o with
  | binary op flags t l r =>
    obtain ⟨hop, -, rfl, hl, hr⟩ := h
    obtain ⟨⟨w, a⟩, ha, rfl⟩ := operand hl fun v hv =>
      List.mem_append_left _ (Reference.mem_values.mp hv)
    obtain ⟨⟨w', b⟩, hb, hw⟩ := operand hr fun v hv =>
      List.mem_append_right _ (Reference.mem_values.mp hv)
    cases hw
    obtain ⟨x, hx⟩ := exists_arithmetic hop overflow flags a b
    exact ⟨x.map (⟨w, ·⟩), by simp [Op.eval, ha, hb, Datum.both_of_bits, hx]⟩
  | icmp pred t l r =>
    obtain ⟨-, rfl, hl, hr⟩ := h
    obtain ⟨⟨w, a⟩, ha, rfl⟩ := operand hl fun v hv =>
      List.mem_append_left _ (Reference.mem_values.mp hv)
    obtain ⟨⟨w', b⟩, hb, hw⟩ := operand hr fun v hv =>
      List.mem_append_right _ (Reference.mem_values.mp hv)
    cases hw
    exact ⟨.ok ⟨1, BitVec.ofBool (compare pred a b)⟩, by
      simp [Op.eval, ha, hb, Datum.both_of_bits]⟩
  | select t cond yes no =>
    obtain ⟨-, rfl, hcond, hyes, hno⟩ := h
    obtain ⟨c, hc, hbits⟩ := operand hcond fun v hv =>
      List.mem_append_left _ (List.mem_append_left _ (Reference.mem_values.mp hv))
    obtain ⟨holds, hholds⟩ := Datum.exists_isTrue hbits
    obtain ⟨d, hd⟩ : ∃ d, (if holds then yes else no).datum? env ty = some d := by
      split
      · exact (operand hyes fun v hv => List.mem_append_left _
          (List.mem_append_right _ (Reference.mem_values.mp hv))).imp fun _ => And.left
      · exact (operand hno fun v hv =>
          List.mem_append_right _ (Reference.mem_values.mp hv)).imp fun _ => And.left
    exact ⟨.ok d, by simp [Op.eval, hc, hholds, hd]⟩
  | cast op source target v =>
    obtain ⟨-, htarget, hfits, rfl, hv⟩ := h
    obtain ⟨d, hd, -⟩ := operand hv fun v hv => Reference.mem_values.mp hv
    obtain ⟨bits, rfl⟩ : ∃ bits, ty = .int bits := by
      cases ty <;> first | exact ⟨_, rfl⟩ | exact htarget.elim
    obtain ⟨d', hd'⟩ : ∃ d', d.convert op (.int bits) = some d' := by
      cases op <;> first | exact ⟨_, rfl⟩ | exact hfits.elim
    exact ⟨.ok d', by simp [Op.eval, hd, hd']⟩
  | phi t incoming => exact (hphi _ _ rfl).elim
  | fcmp | fneg | alloca | load | store | gep | call | landingpad => exact h.elim

theorem caseTarget_mem (d : Datum) (default : BlockId) (cases : List (Int × BlockId)) :
    caseTarget d default cases ∈ default :: cases.map Prod.snd := by
  unfold caseTarget
  cases hfind : cases.find? fun c => BitVec.ofInt d.bits c.1 = d.value with
  | none => exact List.mem_cons_self
  | some c => exact List.mem_cons_of_mem _ (List.mem_map_of_mem (List.mem_of_find?_eq_some hfind))

/-- A block is left to no other block than one of its successors. -/
theorem Terminator.mem_successors_of_transfer {target : BlockId}
    (h : t.transfer env = some (.goto target)) : target ∈ t.successors := by
  cases t with
  | br => cases h; exact List.mem_cons_self
  | condBr cond yes no =>
    obtain ⟨d, -, h⟩ := Option.bind_eq_some_iff.mp h
    obtain ⟨holds, -, h⟩ := Option.bind_eq_some_iff.mp h
    cases h
    cases holds <;> simp [successors]
  | switch ty v default cases =>
    obtain ⟨d, -, h⟩ := Option.map_eq_some_iff.mp h
    cases h
    exact caseTarget_mem d default cases
  | ret v =>
    cases v with
    | none => cases h
    | some v =>
      obtain ⟨d, -, h⟩ := Option.map_eq_some_iff.mp h
      cases h
  | invoke | resume | unreachable => cases h

/-- A terminator whose operands are there leaves its block. -/
theorem Terminator.exists_transfer (henv : env.Typed f) (h : t.HasType f)
    (huses : ∀ v ∈ t.uses, (env v).isSome) : ∃ r, t.transfer env = some r := by
  have operand {x : Operand} {ty : Ty} (hx : x.HasType f ty)
      (hmem : ∀ v ∈ x.uses, .value v ∈ t.references) :=
    x.exists_datum henv hx fun v hv => huses v (Reference.mem_values.mpr (hmem v hv))
  cases t with
  | ret v =>
    cases v with
    | none => exact ⟨_, rfl⟩
    | some v =>
      obtain ⟨d, hd, -⟩ := operand h.2.2 fun v hv => by
        simpa [references] using Reference.mem_values.mp hv
      exact ⟨.ret (some d), by simp [transfer, hd]⟩
  | br target => exact ⟨_, rfl⟩
  | condBr cond yes no =>
    obtain ⟨d, hd, hbits⟩ := operand h fun v hv =>
      List.mem_append_left _ (Reference.mem_values.mp hv)
    obtain ⟨holds, hholds⟩ := Datum.exists_isTrue hbits
    exact ⟨.goto (if holds then yes else no), by simp [transfer, hd, hholds]⟩
  | switch ty v default cases =>
    obtain ⟨d, hd, -⟩ := operand h.2 fun v hv =>
      List.mem_append_left _ (Reference.mem_values.mp hv)
    exact ⟨.goto (caseTarget d default cases), by simp [transfer, hd]⟩
  | unreachable => exact ⟨_, rfl⟩
  | invoke | resume => exact h.elim

end Operation

/-! ## What is there -/

/-- A phi and its operands are of one integer type. -/
theorem Function.WellTyped.phi (h : f.WellTyped) {b : Block} (hb : b ∈ f.blocks) {p : Phi}
    (hp : p ∈ b.phis) :
    p.ty.IsInteger ∧ f.typeOf p.dest = p.ty ∧ ∀ x ∈ p.incoming, x.1.HasType f p.ty := by
  obtain ⟨i, hi, hphi⟩ := List.mem_filterMap.mp hp
  obtain ⟨hop, hdest⟩ := Instruction.eq_of_phi? hphi
  obtain ⟨v, hv, htyped⟩ := (h.2 b hb).1 i hi
  obtain rfl : p.dest = v := Option.some.inj (hdest.symm.trans hv)
  rw [hop] at htyped
  exact htyped

/-- The values behind some instructions of a block, when control passed some blocks. -/
structure Covers (f : Function) (passed : List BlockId) (block : Block) (done : List Instruction)
    (env : Env) : Prop where
  typed : env.Typed f
  params : ∀ v ∈ f.params, (env v).isSome
  passed : ∀ b ∈ passed, ∀ d, f.blocks[b.index]? = some d →
    ∀ i ∈ d.instructions, ∀ v, i.result = some v → (env v).isSome
  phis : ∀ p ∈ block.phis, (env p.dest).isSome
  done : ∀ i ∈ done, ∀ v, i.result = some v → (env v).isSome

namespace Covers

variable {passed : List BlockId} {block : Block} {done : List Instruction}
  {env : Env}

/-- What precedes a use is there. -/
theorem isSome (h : Covers f passed block done env)
    (hids : ∀ (i : Nat) (b : Block), f.blocks[i]? = some b → b.id = ⟨i⟩)
    (hpath : Path f passed block.id) {v : ValueId} (hv : Ready (Precedes f) f block done v) :
    (env v).isSome := by
  obtain hv | ⟨i, hi, hv⟩ | ⟨p, hp, rfl⟩ | ⟨d, hd, ⟨i, hi, hv⟩, hbefore⟩ := hv
  · exact h.params v hv
  · exact h.done i hi v hv
  · exact h.phis p hp
  · obtain ⟨n, hn⟩ := List.mem_iff_getElem?.mp hd
    have hid := hids n d hn
    refine h.passed d.id (hbefore passed hpath) d ?_ i hi v hv
    rw [hid]
    exact hn

theorem set (h : Covers f passed block done env) (hi : i.result = some v)
    (hd : f.typeOf v = .int d.bits) : Covers f passed block (done ++ [i]) (env.set v d) where
  typed := h.typed.set hd
  params v' hv' := Env.isSome_set.mpr (.inr (h.params v' hv'))
  passed b hb d hd i hi v' hv' := Env.isSome_set.mpr (.inr (h.passed b hb d hd i hi v' hv'))
  phis p hp := Env.isSome_set.mpr (.inr (h.phis p hp))
  done i' hi' v' hv' := by
    rw [Env.isSome_set]
    obtain hi' | hi' := List.mem_append.mp hi'
    · exact .inr (h.done i' hi' v' hv')
    · obtain rfl := List.mem_singleton.mp hi'
      exact .inl (Option.some.inj (hv'.symm.trans hi))

/-- A phi has its value already. -/
theorem skip (h : Covers f passed block done env) (hi : i ∈ block.instructions)
    (hphi : i.phi?.isSome) : Covers f passed block (done ++ [i]) env where
  typed := h.typed
  params := h.params
  passed := h.passed
  phis := h.phis
  done i' hi' v' hv' := by
    obtain hi' | hi' := List.mem_append.mp hi'
    · exact h.done i' hi' v' hv'
    · obtain rfl := List.mem_singleton.mp hi'
      obtain ⟨p, hp⟩ := Option.isSome_iff_exists.mp hphi
      obtain ⟨-, hdest⟩ := Instruction.eq_of_phi? hp
      obtain rfl : p.dest = v' := Option.some.inj (hdest.symm.trans hv')
      exact h.phis p (List.mem_filterMap.mpr ⟨i', hi, hp⟩)

/-- An edge: the block that was run is passed. -/
theorem enter (h : Covers f passed block block.instructions env)
    (hb : f.blocks[b.index]? = some block) {target : Block} {values : List (ValueId × Datum)}
    (hvalues : values.map Prod.fst = target.phis.map Phi.dest)
    (htyped : ∀ p ∈ values, f.typeOf p.1 = .int p.2.bits) :
    Covers f (b :: passed) target [] (env.setAll values) where
  typed := h.typed.setAll htyped
  params v hv := Env.isSome_setAll.mpr (.inr (h.params v hv))
  passed b' hb' d hd i hi v hv := by
    rw [Env.isSome_setAll]
    obtain rfl | hb' := List.mem_cons.mp hb'
    · cases hb.symm.trans hd
      exact .inr (h.done i hi v hv)
    · exact .inr (h.passed b' hb' d hd i hi v hv)
  phis p hp := by
    rw [Env.isSome_setAll, hvalues]
    exact .inl (List.mem_map_of_mem hp)
  done i hi := nomatch hi

/-- The first block has no phis, and the parameters are the arguments. -/
theorem start {args : List Datum}
    (hargs : List.Forall₂ (fun p a => f.typeOf p = .int a.bits) f.params args)
    (hphis : block.phis = []) :
    Covers f [] block [] (Env.setAll (fun _ => none) (f.params.zip args)) where
  typed := by
    refine Env.Typed.setAll (fun _ _ h => by cases h) fun p hp => ?_
    exact (List.forall₂_iff_zip.mp hargs).2 hp
  params v hv := by
    rw [Env.isSome_setAll, List.map_fst_zip (Nat.le_of_eq hargs.length_eq)]
    exact .inl hv
  passed b hb := nomatch hb
  phis p hp := by
    rw [hphis] at hp
    cases hp
  done i hi := nomatch hi

end Covers

/-! ## Steps -/

theorem Instruction.eval_of_phi? {p : Phi} (h : i.phi? = some p) (overflow : Overflow) (env : Env) :
    i.eval overflow env = some (.ok env) := by
  obtain ⟨hop, -⟩ := eq_of_phi? h
  simp only [eval, hop]

theorem Instruction.eval_of_op (hresult : i.result = some v) (hphi : i.phi? = none)
    (overflow : Overflow) (env : Env) :
    i.eval overflow env = (i.op.eval overflow env).map (·.map (env.set v)) := by
  obtain ⟨result, op⟩ := i
  cases hresult
  cases op <;> first | rfl | cases hphi

theorem Instruction.typed_of_eval {env env' : Env}
    (htyped : ∃ v ∈ i.result, i.op.HasType f (f.typeOf v)) (henv : env.Typed f)
    (h : i.eval overflow env = some (.ok env')) : env'.Typed f := by
  obtain ⟨v, hv : i.result = some v, hop⟩ := htyped
  cases hphi : i.phi? with
  | some p =>
    rw [eval_of_phi? hphi] at h
    cases h
    exact henv
  | none =>
    rw [eval_of_op hv hphi] at h
    obtain ⟨x, hx, h⟩ := Option.map_eq_some_iff.mp h
    cases x with
    | error t => cases h
    | ok d =>
      cases h
      exact henv.set (Op.bits_of_eval henv hop hx)

namespace Function.Sound

variable {passed : List BlockId} {block : Block} {env : Env}

/-- The instructions of a block have values, up to the first that traps. -/
theorem exists_evalInstructions (hf : f.Sound) (hblock : block ∈ f.blocks)
    (hpath : Path f passed block.id) (overflow : Overflow) {done rest : List Instruction}
    (hsplit : done ++ rest = block.instructions) (h : Covers f passed block done env) :
    ∃ r, evalInstructions overflow rest env = some r ∧
      ∀ env', r = .ok env' → Covers f passed block block.instructions env' := by
  -- on what is left of the block, while `Covers` speaks of what is done
  induction rest generalizing done env with
  | nil =>
    rw [List.append_nil] at hsplit
    refine ⟨.ok env, rfl, ?_⟩
    rintro _ ⟨⟩
    exact hsplit ▸ h
  | cons i rest ih =>
    have hi : i ∈ block.instructions := hsplit ▸ List.mem_append_right _ List.mem_cons_self
    obtain ⟨v, hv : i.result = some v, htyped⟩ := (hf.typed.2 block hblock).1 i hi
    have hsplit' : (done ++ [i]) ++ rest = block.instructions := by simp [← hsplit]
    cases hphi : i.phi? with
    | some p =>
      obtain ⟨r, hr, hcovers⟩ := ih hsplit' (h.skip hi (by simp [hphi]))
      refine ⟨r, ?_, hcovers⟩
      simp [evalInstructions, Instruction.eval_of_phi? hphi, hr]
    | none =>
      have hindex : (i, done.length) ∈ block.instructions.zipIdx := by
        rw [List.mem_zipIdx_iff_getElem?, ← hsplit]
        simp
      have huses : ∀ v ∈ i.op.uses, (env v).isSome := by
        intro v hv
        refine h.isSome hf.blockIds hpath ?_
        have := (hf.ssa.2 block hblock).1 _ hindex hphi v hv
        rwa [← hsplit, List.take_left] at this
      have hnot : ∀ t incoming, i.op ≠ .phi t incoming := by
        intro t incoming hop
        simp [Instruction.phi?, hop, hv] at hphi
      obtain ⟨x, hx⟩ := Op.exists_eval overflow h.typed htyped hnot huses
      have heval := Instruction.eval_of_op hv hphi overflow env
      rw [hx] at heval
      cases x with
      | error t =>
        refine ⟨.error t, ?_, fun _ hr => nomatch hr⟩
        simp [evalInstructions, heval, Except.map]
      | ok d =>
        obtain ⟨r, hr, hcovers⟩ := ih hsplit' (h.set hv (Op.bits_of_eval h.typed htyped hx))
        refine ⟨r, ?_, hcovers⟩
        simp [evalInstructions, heval, Except.map, hr]

/-- Every phi of a block finds its word, whichever way control comes. -/
theorem exists_arrive (hf : f.Sound) (hblock : block ∈ f.blocks) (hpath : Path f passed block.id)
    (h : Covers f passed block block.instructions env) {target : Block}
    (htarget : target ∈ f.blocks) (hedge : target.id ∈ block.terminator.successors) {p : Phi}
    (hp : p ∈ target.phis) :
    ∃ d, p.arrive block.id env = some (p.dest, d) ∧ f.typeOf p.dest = .int d.bits := by
  obtain ⟨-, hty, hincoming⟩ := hf.typed.phi htarget hp
  obtain ⟨x, hx, huses⟩ := (hf.ssa.2 block hblock).2.2 target htarget hedge p hp
  obtain ⟨d, hd, hbits⟩ := x.1.exists_datum h.typed
    (hincoming x (List.mem_of_find?_eq_some hx))
    fun v hv => h.isSome hf.blockIds hpath (huses v hv)
  refine ⟨d, ?_, hty.trans hbits⟩
  simp [Phi.arrive, Option.mem_def.mp hx, hd]

theorem exists_mapM_arrive {source : BlockId} {ps : List Phi}
    (h : ∀ p ∈ ps, ∃ d, p.arrive source env = some (p.dest, d) ∧ f.typeOf p.dest = .int d.bits) :
    ∃ values, ps.mapM (Phi.arrive source env) = some values ∧
      values.map Prod.fst = ps.map Phi.dest ∧ ∀ p ∈ values, f.typeOf p.1 = .int p.2.bits := by
  induction ps with
  | nil => exact ⟨[], rfl, rfl, fun _ hp => nomatch hp⟩
  | cons p ps ih =>
    obtain ⟨d, hd, hbits⟩ := h p List.mem_cons_self
    obtain ⟨values, hvalues, hdests, htyped⟩ := ih fun p hp => h p (List.mem_cons_of_mem _ hp)
    refine ⟨(p.dest, d) :: values, ?_, ?_, ?_⟩
    · simp [hd, hvalues]
    · simp [hdests]
    · exact List.forall_mem_cons.mpr ⟨hbits, htyped⟩

end Function.Sound

/-- A state that a run can be in. -/
def Function.Live (f : Function) : State → Prop
  | .running b env => ∃ passed block, f.blocks[b.index]? = some block ∧ Path f passed b ∧
    Covers f passed block [] env
  | .returned _ | .trapped _ => True

namespace Function.Sound

theorem exists_enter (hf : f.Sound) {passed : List BlockId} {block : Block} {env : Env}
    (hblock : f.blocks[b.index]? = some block) (hpath : Path f passed b)
    (h : Covers f passed block block.instructions env) {target : BlockId}
    (hedge : target ∈ block.terminator.successors) :
    ∃ s, f.enter b target env = some s ∧ f.Live s := by
  have hmem : block ∈ f.blocks := List.mem_of_getElem? hblock
  have hid : block.id = b := hf.blockIds _ _ hblock
  have hlt := hf.targets block hmem target hedge
  have htarget := List.getElem?_eq_getElem hlt
  have hid' : f.blocks[target.index].id = target := hf.blockIds _ _ htarget
  obtain ⟨values, hvalues, hdests, htyped⟩ := exists_mapM_arrive fun p hp =>
    hf.exists_arrive hmem (hid.symm ▸ hpath) h (List.getElem_mem _) (hid'.symm ▸ hedge) hp
  refine ⟨.running target (env.setAll values), ?_, b :: passed, _, htarget,
    hpath.step hblock hedge, h.enter hblock hdests htyped⟩
  rw [hid] at hvalues
  simp [enter, htarget, hvalues]

/-- **Progress.** A run never gets stuck. -/
theorem step (hf : f.Sound) (overflow : Overflow) {s : State} (h : f.Live s) :
    ∃ s', f.step overflow s = some s' ∧ f.Live s' := by
  cases s with
  | returned v => exact ⟨.returned v, rfl, trivial⟩
  | trapped t => exact ⟨.trapped t, rfl, trivial⟩
  | running b env =>
    obtain ⟨passed, block, hblock, hpath, hcovers⟩ := h
    have hmem : block ∈ f.blocks := List.mem_of_getElem? hblock
    have hid : block.id = b := hf.blockIds _ _ hblock
    obtain ⟨r, hr, hafter⟩ := hf.exists_evalInstructions hmem (hid.symm ▸ hpath) overflow
      (List.nil_append _) hcovers
    cases r with
    | error t => exact ⟨.trapped t, by simp [Function.step, hblock, hr], trivial⟩
    | ok env' =>
      have hcovers' := hafter env' rfl
      obtain ⟨t, ht⟩ := Terminator.exists_transfer hcovers'.typed (hf.typed.2 block hmem).2
        fun v hv => hcovers'.isSome hf.blockIds (hid.symm ▸ hpath) ((hf.ssa.2 block hmem).2.1 v hv)
      cases t with
      | ret v => exact ⟨.returned v, by simp [Function.step, hblock, hr, ht], trivial⟩
      | trap t => exact ⟨.trapped t, by simp [Function.step, hblock, hr, ht], trivial⟩
      | goto target =>
        obtain ⟨s, hs, hlive⟩ := hf.exists_enter hblock hpath hcovers'
          (Terminator.mem_successors_of_transfer ht)
        exact ⟨s, by simp [Function.step, hblock, hr, ht, hs], hlive⟩

/-- Arguments are words of the types of the parameters. -/
theorem live_start (hf : f.Sound) {args : List Datum}
    (hargs : List.Forall₂ (fun p a => f.typeOf p = .int a.bits) f.params args) :
    f.Live (f.start args) := by
  obtain ⟨block, rest, hblocks⟩ := List.exists_cons_of_ne_nil hf.nonempty
  have hphis : block.phis = [] := hf.ssa.1 block (by simp [hblocks])
  exact ⟨[], block, by simp [hblocks], .start, .start hargs hphis⟩

end Function.Sound

end SafeIR.IR
