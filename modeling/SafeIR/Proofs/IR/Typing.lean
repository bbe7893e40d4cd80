import SafeIR.Proofs.IR.Run
import SafeIR.Proofs.Reader.Reference

/-!
# Functions on integers

Which functions `Function.run` is about: those that compute with integers only, whose operands have
the types they should (`Function.WellTyped`), and that use a value only where it is there
(`Function.SSA`). A value is there if its definition precedes the use in its block, or stands in
a block that control passes on every way to that block. The operands of a phi are used at the end
of the block that control comes from.

Both are properties of the text of a function. The second asks about all ways through it; a table
of blocks that are passed before others is a certificate for it, which can be checked
(`Function.ssa_of_table`).
-/

namespace SafeIR.IR

variable {f : Function}

/-! ## Types -/

/-- The widths of words. A truth value is a word of one bit, on which arithmetic is not done. -/
def wordWidths : List Nat := [8, 16, 32, 64, 128]

/-- An integer of a width that words have. -/
def Ty.IsWord : Ty → Prop
  | .int bits => bits ∈ wordWidths
  | _ => False

/-- A word, or a truth value. -/
def Ty.IsInteger : Ty → Prop
  | .int bits => bits = 1 ∨ bits ∈ wordWidths
  | _ => False

instance : DecidablePred Ty.IsWord
  | .int bits => inferInstanceAs (Decidable (bits ∈ wordWidths))
  | .void | .half | .float | .double | .x86Fp80 | .fp128 | .ptr | .label | .metadata | .array ..
  | .struct .. | .function .. => isFalse id

instance : DecidablePred Ty.IsInteger
  | .int bits => inferInstanceAs (Decidable (bits = 1 ∨ bits ∈ wordWidths))
  | .void | .half | .float | .double | .x86Fp80 | .fp128 | .ptr | .label | .metadata | .array ..
  | .struct .. | .function .. => isFalse id

/-- An operand of an integer type: a value of that type, or a constant that has a word there. -/
def Operand.HasType (f : Function) (ty : Ty) : Operand → Prop
  | .value v => f.typeOf v = ty
  | .const c => (c.datum? ty).isSome
  | _ => False

instance (f : Function) (ty : Ty) : (o : Operand) → Decidable (o.HasType f ty)
  | .value v => inferInstanceAs (Decidable (f.typeOf v = ty))
  | .const c => inferInstanceAs (Decidable ((c.datum? ty).isSome = true))
  | .global _ | .function _ | .metadata _ => isFalse id

/-- The width of an integer type. -/
def Ty.bits : Ty → Nat
  | .int bits => bits
  | _ => 0

/-- A conversion between integers changes the width in its direction. -/
def CastFits (source target : Nat) : CastOp → Prop
  | .trunc => target < source
  | .zext | .sext => source < target
  | _ => False

instance (source target : Nat) : (op : CastOp) → Decidable (CastFits source target op)
  | .trunc => inferInstanceAs (Decidable (target < source))
  | .zext | .sext => inferInstanceAs (Decidable (source < target))
  | .fptrunc | .fpext | .fptoui | .fptosi | .uitofp | .sitofp | .ptrtoint | .inttoptr | .bitcast
  | .addrspacecast => isFalse id

/-- An operation on integers, with a result of a type. -/
def Op.HasType (f : Function) (ty : Ty) : Op → Prop
  | .binary op _ t l r =>
    op.isFloat = false ∧ t.IsWord ∧ ty = t ∧ l.HasType f t ∧ r.HasType f t
  | .icmp _ t l r => t.IsInteger ∧ ty = .int 1 ∧ l.HasType f t ∧ r.HasType f t
  | .select t cond yes no =>
    t.IsInteger ∧ ty = t ∧ cond.HasType f (.int 1) ∧ yes.HasType f t ∧ no.HasType f t
  | .cast op source target v =>
    source.IsInteger ∧ target.IsInteger ∧ CastFits source.bits target.bits op ∧ ty = target ∧
      v.HasType f source
  | .phi t incoming => t.IsInteger ∧ ty = t ∧ ∀ p ∈ incoming, p.1.HasType f t
  | _ => False

instance (f : Function) (ty : Ty) : (o : Op) → Decidable (o.HasType f ty)
  | .binary .. => inferInstanceAs (Decidable (_ ∧ _ ∧ _ ∧ _ ∧ _))
  | .icmp .. => inferInstanceAs (Decidable (_ ∧ _ ∧ _ ∧ _))
  | .select .. => inferInstanceAs (Decidable (_ ∧ _ ∧ _ ∧ _ ∧ _))
  | .cast .. => inferInstanceAs (Decidable (_ ∧ _ ∧ _ ∧ _ ∧ _))
  | .phi .. => inferInstanceAs (Decidable (_ ∧ _ ∧ ∀ p ∈ _, _))
  | .fcmp .. | .fneg .. | .alloca .. | .load .. | .store .. | .gep .. | .call _
  | .landingpad .. => isFalse id

/-- The operands of a terminator have its types. -/
def Terminator.HasType (f : Function) : Terminator → Prop
  | .ret none => f.ret = .void
  | .ret (some (ty, v)) => ty.IsInteger ∧ ty = f.ret ∧ v.HasType f ty
  | .br _ | .unreachable => True
  | .condBr cond _ _ => cond.HasType f (.int 1)
  | .switch ty v _ _ => ty.IsInteger ∧ v.HasType f ty
  | .invoke .. | .resume _ => False

instance (f : Function) : (t : Terminator) → Decidable (t.HasType f)
  | .ret none => inferInstanceAs (Decidable (f.ret = .void))
  | .ret (some (_, _)) => inferInstanceAs (Decidable (_ ∧ _ ∧ _))
  | .br _ | .unreachable => isTrue trivial
  | .condBr cond _ _ => inferInstanceAs (Decidable (cond.HasType f (.int 1)))
  | .switch .. => inferInstanceAs (Decidable (_ ∧ _))
  | .invoke .. | .resume _ => isFalse id

/-- Every parameter is an integer, and every instruction an operation on integers whose result is a
value of its type. -/
def Function.WellTyped (f : Function) : Prop :=
  (∀ p ∈ f.params, (f.typeOf p).IsInteger) ∧
    ∀ b ∈ f.blocks, (∀ i ∈ b.instructions, ∃ v ∈ i.result, i.op.HasType f (f.typeOf v)) ∧
      b.terminator.HasType f

instance (f : Function) : Decidable f.WellTyped := inferInstanceAs (Decidable (_ ∧ _))

theorem Function.WellTyped.op (h : f.WellTyped) {i : Instruction} (hi : i ∈ f.instructions) :
    ∃ ty, i.op.HasType f ty := by
  obtain ⟨b, hb, hi⟩ := List.mem_flatMap.mp hi
  obtain ⟨v, -, hop⟩ := (h.2 b hb).1 i hi
  exact ⟨_, hop⟩

/-! ## Uses and definitions -/

/-- The values among some references. -/
def Reference.values (rs : List Reference) : List ValueId :=
  rs.filterMap fun | .value v => some v | _ => none

theorem Reference.mem_values {rs : List Reference} {v : ValueId} :
    v ∈ values rs ↔ .value v ∈ rs := by
  simp only [values, List.mem_filterMap]
  constructor
  · rintro ⟨r, hr, h⟩
    cases r <;> cases h
    exact hr
  · exact fun h => ⟨_, h, rfl⟩

def Operand.uses (o : Operand) : List ValueId := Reference.values o.references

def Op.uses (o : Op) : List ValueId := Reference.values o.references

def Terminator.uses (t : Terminator) : List ValueId := Reference.values t.references

/-- The ways from the first block to a block, by the blocks that control passes, the last first. -/
inductive Path (f : Function) : List BlockId → BlockId → Prop
  | start : Path f [] ⟨0⟩
  | step {passed : List BlockId} {b target : BlockId} {block : Block} :
    Path f passed b → f.blocks[b.index]? = some block → target ∈ block.terminator.successors →
    Path f (b :: passed) target

/-- Control passes a block on every way to another. -/
def Precedes (f : Function) (d b : BlockId) : Prop := ∀ passed, Path f passed b → d ∈ passed

/-- A value is there behind some instructions of a block. `before` says which blocks are passed
before others. -/
def Ready (before : BlockId → BlockId → Prop) (f : Function) (block : Block)
    (done : List Instruction) (v : ValueId) : Prop :=
  v ∈ f.params ∨ (∃ i ∈ done, i.result = some v) ∨ (∃ p ∈ block.phis, p.dest = v) ∨
    ∃ d ∈ f.blocks, (∃ i ∈ d.instructions, i.result = some v) ∧ before d.id block.id

/-- Operands are used where they are there. Control comes to a block with an operand for each of
its phis; it does not come to the first block with any. -/
def Function.Scoped (before : BlockId → BlockId → Prop) (f : Function) : Prop :=
  (∀ block ∈ f.blocks.head?, block.phis = []) ∧
    ∀ block ∈ f.blocks,
      (∀ p ∈ block.instructions.zipIdx, p.1.phi? = none →
        ∀ v ∈ p.1.op.uses, Ready before f block (block.instructions.take p.2) v) ∧
      (∀ v ∈ block.terminator.uses, Ready before f block block.instructions v) ∧
      ∀ target ∈ f.blocks, target.id ∈ block.terminator.successors → ∀ p ∈ target.phis,
        ∃ x ∈ p.incoming.find? (·.2 = block.id),
          ∀ v ∈ x.1.uses, Ready before f block block.instructions v

/-- Every use is behind its definition on every way. -/
def Function.SSA (f : Function) : Prop := f.Scoped (Precedes f)

theorem Ready.mono {before before' : BlockId → BlockId → Prop} {block : Block}
    {done : List Instruction} {v : ValueId} (hle : ∀ d b, before d b → before' d b)
    (h : Ready before f block done v) : Ready before' f block done v := by
  obtain h | h | h | ⟨d, hd, hv, hb⟩ := h
  · exact .inl h
  · exact .inr (.inl h)
  · exact .inr (.inr (.inl h))
  · exact .inr (.inr (.inr ⟨d, hd, hv, hle _ _ hb⟩))

theorem Function.Scoped.mono {before before' : BlockId → BlockId → Prop}
    (hle : ∀ d b, before d b → before' d b) (h : f.Scoped before) : f.Scoped before' := by
  refine ⟨h.1, fun block hblock => ?_⟩
  obtain ⟨hinstructions, hterminator, hphis⟩ := h.2 block hblock
  refine ⟨fun p hp hphi v hv => (hinstructions p hp hphi v hv).mono hle,
    fun v hv => (hterminator v hv).mono hle, fun target htarget hedge p hp => ?_⟩
  obtain ⟨x, hx, huses⟩ := hphis target htarget hedge p hp
  exact ⟨x, hx, fun v hv => (huses v hv).mono hle⟩

/-! ## Tables of blocks that are passed -/

/-- A table lists, for each block, blocks that are passed before it: those that the table lists for
a block from which control comes, and that block itself. -/
def Function.Lists (f : Function) (table : List (List BlockId)) : Prop :=
  table.head?.getD [] = [] ∧
    ∀ block ∈ f.blocks, ∀ target ∈ block.terminator.successors,
      ∀ d ∈ table[target.index]?.getD [], d = block.id ∨ d ∈ table[block.id.index]?.getD []

theorem Function.Lists.precedes {table : List (List BlockId)}
    (hids : ∀ (i : Nat) (b : Block), f.blocks[i]? = some b → b.id = ⟨i⟩) (h : f.Lists table)
    {d b : BlockId} (hd : d ∈ table[b.index]?.getD []) : Precedes f d b := by
  intro passed hpath
  induction hpath with
  | start =>
    rw [← List.head?_eq_getElem?, h.1] at hd
    cases hd
  | @step passed b target block hpath hblock htarget ih =>
    have hid : block.id = b := hids _ _ hblock
    obtain rfl | hd := h.2 block (List.mem_of_getElem? hblock) target htarget d hd
    · simp [hid]
    · exact List.mem_cons_of_mem _ (ih (hid ▸ hd))

/-- A table is a certificate: if every use is behind its definition as far as the table tells, it
is. -/
theorem Function.ssa_of_table {table : List (List BlockId)}
    (hids : ∀ (i : Nat) (b : Block), f.blocks[i]? = some b → b.id = ⟨i⟩) (h : f.Lists table)
    (hscoped : f.Scoped fun d b => d ∈ table[b.index]?.getD []) : f.SSA :=
  hscoped.mono fun _ _ hd => h.precedes hids hd

instance (f : Function) (table : List (List BlockId)) : Decidable (f.Lists table) :=
  inferInstanceAs (Decidable (_ ∧ _))

instance (before : BlockId → BlockId → Prop) [∀ d b, Decidable (before d b)] (f : Function)
    (block : Block) (done : List Instruction) (v : ValueId) :
    Decidable (Ready before f block done v) :=
  inferInstanceAs (Decidable (_ ∨ _ ∨ _ ∨ _))

instance (before : BlockId → BlockId → Prop) [∀ d b, Decidable (before d b)] (f : Function) :
    Decidable (f.Scoped before) :=
  inferInstanceAs (Decidable (_ ∧ _))

end SafeIR.IR
