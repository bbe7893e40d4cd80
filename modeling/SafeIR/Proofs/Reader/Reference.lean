import SafeIR.IR.Read
import SafeIR.Proofs.Result

/-!
# References of a resolved module

A resolved module refers to values, blocks, functions and globals by position. `references` lists
every position that occurs in a piece of a module, however deep: in the nested constants of an
operand as well as in the entries of a phi.

The main statement is `Scope.block_known`: whatever a scope resolves, it refers only to names the
scope has. Names become positions in one place, `List.idxOf?`, and all other cases pass through the
references of their parts.
-/

namespace SafeIR.IR

variable {name label : String}

/-- A position that stands for a name. -/
inductive Reference where
  | value (id : ValueId)
  | block (id : BlockId)
  | function (id : FuncId)
  | global (id : GlobalId)
  deriving DecidableEq, Repr

mutual

/-- Constants refer to globals only, at any depth. -/
def Constant.references : Constant → List Reference
  | .array items => itemReferences items
  | .struct fields => itemReferences fields
  | .global id => [.global id]
  | _ => []

def Constant.itemReferences : List (Ty × Constant) → List Reference
  | [] => []
  | (_, c) :: items => c.references ++ itemReferences items

end

mutual

theorem Constant.value_notMem_references (v : ValueId) : ∀ c : Constant, .value v ∉ c.references
  | .array items | .struct items => value_notMem_itemReferences v items
  | .global _ | .int _ | .float _ | .bool _ | .null | .undef | .zero | .bytes _ => by
    simp [references]

theorem Constant.value_notMem_itemReferences (v : ValueId) :
    ∀ items : List (Ty × Constant), .value v ∉ itemReferences items
  | [] => by simp [itemReferences]
  | (_, c) :: items => by
    simp [itemReferences, c.value_notMem_references v, value_notMem_itemReferences v items]

end

/-- What an operand refers to. -/
def Operand.references : Operand → List Reference
  | .value id => [.value id]
  | .const c => c.references
  | .global id => [.global id]
  | .function id => [.function id]
  | .metadata _ => []

def Callee.references : Callee → List Reference
  | .direct f => [.function f]
  | .indirect target => target.references

/-- What a call refers to. -/
def CallSite.references (site : CallSite) : List Reference :=
  site.callee.references ++ site.args.flatMap fun a => a.2.references

/-- What an operation refers to. -/
def Op.references : Op → List Reference
  | .binary _ _ _ l r | .icmp _ _ l r | .fcmp _ _ l r => l.references ++ r.references
  | .fneg _ v | .cast _ _ _ v => v.references
  | .select _ cond yes no => cond.references ++ yes.references ++ no.references
  | .alloca _ count _ => count.toList.flatMap Operand.references
  | .load _ address => address.references
  | .store _ v address => v.references ++ address.references
  | .gep _ base indices => base.references ++ indices.flatMap fun a => a.2.references
  | .phi _ incoming => incoming.flatMap fun a => a.1.references ++ [.block a.2]
  | .call site => site.references
  | .landingpad .. => []

/-- An instruction refers to its result too. -/
def Instruction.references (i : Instruction) : List Reference :=
  i.result.toList.map .value ++ i.op.references

/-- What the end of a block refers to. -/
def Terminator.references : Terminator → List Reference
  | .ret v => v.toList.flatMap fun a => a.2.references
  | .br target => [.block target]
  | .condBr cond yes no => cond.references ++ [.block yes, .block no]
  | .switch _ v default cases => v.references ++ .block default :: cases.map fun c => .block c.2
  | .invoke result site normal unwind =>
    result.toList.map .value ++ site.references ++ [.block normal, .block unwind]
  | .resume v => v.references
  | .unreachable => []

/-- All that a block refers to. -/
def Block.references (b : Block) : List Reference :=
  b.instructions.flatMap Instruction.references ++ b.terminator.references

/-- All that a function refers to. -/
def Function.references (f : Function) : List Reference :=
  f.params.map .value ++ f.blocks.flatMap Block.references

/-! ## What a scope knows -/

/-- The position is below the number of things of its kind. -/
def Reference.Within (globals functions values blocks : Nat) : Reference → Prop
  | .value v => v.index < values
  | .block b => b.index < blocks
  | .function f => f.index < functions
  | .global g => g.index < globals

/-- The position is one of a name in scope. -/
def Scope.Has (s : Scope) (r : Reference) : Prop :=
  r.Within s.globals.length s.functions.length s.values.length s.labels.length

/-- All positions are those of names in scope. -/
def Scope.Knows (s : Scope) (rs : List Reference) : Prop := ∀ r ∈ rs, s.Has r

namespace Scope

variable {s : Scope}

@[simp] theorem knows_nil : s.Knows [] := fun _ hr => nomatch hr

@[simp] theorem knows_cons {r : Reference} {rs : List Reference} :
    s.Knows (r :: rs) ↔ s.Has r ∧ s.Knows rs := List.forall_mem_cons

@[simp] theorem knows_append {rs rs' : List Reference} :
    s.Knows (rs ++ rs') ↔ s.Knows rs ∧ s.Knows rs' := List.forall_mem_append

theorem knows_flatMap {α : Type} {f : α → List Reference} {xs : List α}
    (h : ∀ x ∈ xs, s.Knows (f x)) : s.Knows (xs.flatMap f) := by
  intro r hr
  obtain ⟨x, hx, hr⟩ := List.mem_flatMap.mp hr
  exact h x hx r hr

/-- A list of parts that were resolved one by one is known if every part is. -/
theorem knows_of_mapM {α β : Type} {f : α → Result β} {refs : β → List Reference} {xs : List α}
    {ys : List β} (h : xs.mapM f = .ok ys) (hf : ∀ x y, f x = .ok y → s.Knows (refs y)) :
    s.Knows (ys.flatMap refs) := by
  refine knows_flatMap fun y hy => ?_
  obtain ⟨x, -, hx⟩ := exists_of_mem_mapM h hy
  exact hf x y hx

theorem knows_of_option_mapM {α β : Type} {f : α → Result β} {refs : β → List Reference}
    {x : Option α} {y : Option β} (h : x.mapM f = .ok y)
    (hf : ∀ x y, f x = .ok y → s.Knows (refs y)) : s.Knows (y.toList.flatMap refs) := by
  cases option_mapM_eq_ok.mp h with
  | none => exact knows_nil
  | some hx => simpa using hf _ _ hx

/-! ## Names -/

theorem idxOf?_lt {names : List String} {i : Nat} (h : names.idxOf? name = some i) :
    i < names.length := by
  rw [List.idxOf?, List.findIdx?_eq_some_iff_getElem] at h
  exact h.1

theorem value_has {v : ValueId} (h : s.value name = .ok v) : s.Has (.value v) := by
  unfold value at h
  split at h
  next i hi =>
    cases h
    exact idxOf?_lt hi
  next => cases h

theorem label_has {b : BlockId} (h : s.label name = .ok b) : s.Has (.block b) := by
  unfold label at h
  split at h
  next i hi =>
    cases h
    exact idxOf?_lt hi
  next => cases h

theorem address_known {c : Constant} (h : s.address name = .ok c) : s.Knows c.references := by
  unfold address at h
  split at h
  next i hi =>
    cases h
    exact knows_cons.mpr ⟨idxOf?_lt hi, knows_nil⟩
  next => split at h <;> cases h

/-! ## Constants and operands -/

mutual

/-- Constants, however nested, refer to globals in scope. -/
theorem constant_known : ∀ (v : Source.Value) {c : Constant}, s.constant v = .ok c →
    s.Knows c.references
  | .int _, _, h | .float _, _, h | .bool _, _, h | .null, _, h | .undef, _, h | .poison, _, h
  | .zero, _, h | .bytes _, _, h => by
    cases h
    simp [Constant.references]
  | .array items, _, h | .struct items, _, h => by
    simp only [constant, bind_eq_ok, pure_eq_ok] at h
    obtain ⟨cs, hcs, rfl⟩ := h
    exact constants_known items hcs
  | .global _, _, h => address_known h
  | .local _, _, h | .metadata _, _, h => nomatch h

theorem constants_known : ∀ (items : List (Source.Ty × Source.Value)) {cs : List (Ty × Constant)},
    s.constants items = .ok cs → s.Knows (Constant.itemReferences cs)
  | [], _, h => by
    cases h
    exact knows_nil
  | (t, v) :: items, _, h => by
    simp only [constants, bind_eq_ok, pure_eq_ok] at h
    obtain ⟨ty, -, c, hc, cs, hcs, rfl⟩ := h
    rw [Constant.itemReferences]
    exact knows_append.mpr ⟨constant_known v hc, constants_known items hcs⟩

end

/-- Operands refer to what is there. -/
theorem operand_known {v : Source.Value} {o : Operand} (h : s.operand v = .ok o) :
    s.Knows o.references := by
  unfold operand at h
  split at h
  next name =>
    obtain ⟨i, hi, heq⟩ := bind_eq_ok.mp h
    cases heq
    exact knows_cons.mpr ⟨value_has hi, knows_nil⟩
  next name =>
    split at h
    next i _ hi =>
      cases h
      exact knows_cons.mpr ⟨idxOf?_lt hi, knows_nil⟩
    next i _ hi =>
      cases h
      exact knows_cons.mpr ⟨idxOf?_lt hi, knows_nil⟩
    next => cases h
  next text =>
    cases h
    exact knows_nil
  next v =>
    obtain ⟨c, hc, heq⟩ := bind_eq_ok.mp h
    cases heq
    exact constant_known _ hc

theorem typed_known {o : Source.Operand} {t : Typed} (h : s.typed o = .ok t) :
    s.Knows t.2.references := by
  simp only [typed, bind_eq_ok, pure_eq_ok] at h
  obtain ⟨ty, -, o', ho, rfl⟩ := h
  exact operand_known ho

theorem site_known {c : Source.Call} {site : CallSite} (h : s.site c = .ok site) :
    s.Knows site.references := by
  simp only [Scope.site, bind_eq_ok, pure_eq_ok] at h
  obtain ⟨target, htarget, ret, -, args, hargs, rfl⟩ := h
  refine knows_append.mpr ⟨?_, knows_of_mapM hargs fun _ _ => typed_known⟩
  have hknown := operand_known htarget
  cases target with
  | function f => exact hknown
  | value _ | const _ | global _ | metadata _ => exact hknown

/-! ## Instructions and blocks -/

/-- The result of an instruction is a value in scope. -/
theorem result_known {name : Option String} {v : Option ValueId}
    (h : name.mapM s.value = .ok v) : s.Knows (v.toList.map .value) := by
  cases option_mapM_eq_ok.mp h with
  | none => exact knows_nil
  | some hv => simpa using value_has hv

/-- Operations refer to what is there. -/
theorem op_known {o : Source.Op} {o' : Op} (h : s.op label o = .ok o') : s.Knows o'.references := by
  cases o with
  | binary _ _ _ _ _ | icmp _ _ _ _ _ | fcmp _ _ _ _ _ =>
    simp only [op, bind_eq_ok, pure_eq_ok] at h
    obtain ⟨_, -, l', hl, r', hr, rfl⟩ := h
    exact knows_append.mpr ⟨operand_known hl, operand_known hr⟩
  | fneg flags v =>
    simp only [op, bind_eq_ok, pure_eq_ok] at h
    obtain ⟨t, ht, rfl⟩ := h
    exact typed_known ht
  | select cond yes no =>
    simp only [op, bind_eq_ok, pure_eq_ok] at h
    obtain ⟨_, -, c', hc, y', hy, n', hn, rfl⟩ := h
    exact knows_append.mpr ⟨knows_append.mpr ⟨operand_known hc, operand_known hy⟩, operand_known hn⟩
  | cast op' flags v target =>
    simp only [op, bind_eq_ok, pure_eq_ok] at h
    obtain ⟨t, ht, _, -, rfl⟩ := h
    exact typed_known ht
  | alloca ty count align =>
    simp only [op, bind_eq_ok, pure_eq_ok] at h
    obtain ⟨_, -, count', hcount, rfl⟩ := h
    exact knows_of_option_mapM hcount fun _ _ => operand_known
  | load volatile ty address align =>
    simp only [op, bind_eq_ok, pure_eq_ok] at h
    obtain ⟨_, -, address', haddress, rfl⟩ := h
    exact operand_known haddress
  | store volatile v address align =>
    simp only [op, bind_eq_ok, pure_eq_ok] at h
    obtain ⟨t, ht, address', haddress, rfl⟩ := h
    exact knows_append.mpr ⟨typed_known ht, operand_known haddress⟩
  | gep inbounds ty base indices =>
    simp only [op, bind_eq_ok, pure_eq_ok] at h
    obtain ⟨_, -, base', hbase, indices', hindices, rfl⟩ := h
    exact knows_append.mpr ⟨operand_known hbase, knows_of_mapM hindices fun _ _ => typed_known⟩
  | phi ty incoming =>
    simp only [op, bind_eq_ok, pure_eq_ok] at h
    obtain ⟨_, -, incoming', hincoming, rfl⟩ := h
    refine knows_of_mapM hincoming fun entry entry' hentry => ?_
    simp only [bind_eq_ok, pure_eq_ok] at hentry
    obtain ⟨v', hv, b', hb, rfl⟩ := hentry
    exact knows_append.mpr ⟨operand_known hv, knows_cons.mpr ⟨label_has hb, knows_nil⟩⟩
  | call tail c =>
    simp only [op, bind_eq_ok, pure_eq_ok] at h
    obtain ⟨site', hsite, rfl⟩ := h
    exact site_known hsite
  | landingpad ty cleanup clauses =>
    simp only [op, bind_eq_ok, pure_eq_ok] at h
    obtain ⟨_, -, rfl⟩ := h
    exact knows_nil
  | ret _ | br _ | condBr _ _ _ | switch _ _ _ | unreachable | resume _ | invoke _ _ _ | other _ =>
    cases h

theorem instruction_known {i : Source.Instruction} {i' : Instruction}
    (h : s.instruction label i = .ok i') : s.Knows i'.references := by
  rw [instruction, ite_error_eq_ok] at h
  simp only [bind_eq_ok, pure_eq_ok] at h
  obtain ⟨-, result, hresult, op', hop, rfl⟩ := h
  exact knows_append.mpr ⟨result_known hresult, op_known hop⟩

/-- Terminators refer to what is there. -/
theorem terminator_known {i : Source.Instruction} {t : Terminator}
    (h : s.terminator label i = .ok t) : s.Knows t.references := by
  unfold terminator at h
  cases hop : i.op with
  | ret v =>
    simp only [hop, bind_eq_ok, pure_eq_ok] at h
    obtain ⟨v', hv, rfl⟩ := h
    exact knows_of_option_mapM hv fun _ _ => typed_known
  | br target =>
    simp only [hop, bind_eq_ok, pure_eq_ok] at h
    obtain ⟨b, hb, rfl⟩ := h
    exact knows_cons.mpr ⟨label_has hb, knows_nil⟩
  | condBr cond yes no =>
    simp only [hop, bind_eq_ok, pure_eq_ok] at h
    obtain ⟨c', hc, y', hy, n', hn, rfl⟩ := h
    exact knows_append.mpr ⟨operand_known hc,
      knows_cons.mpr ⟨label_has hy, knows_cons.mpr ⟨label_has hn, knows_nil⟩⟩⟩
  | switch v default cases =>
    simp only [hop, bind_eq_ok, pure_eq_ok] at h
    obtain ⟨t, ht, cases', hcases, d, hd, rfl⟩ := h
    refine knows_append.mpr ⟨typed_known ht, knows_cons.mpr ⟨label_has hd, ?_⟩⟩
    rw [List.map_eq_flatMap]
    refine knows_of_mapM hcases fun entry entry' hentry => ?_
    simp only [bind_eq_ok, pure_eq_ok] at hentry
    obtain ⟨_, -, b, hb, rfl⟩ := hentry
    exact knows_cons.mpr ⟨label_has hb, knows_nil⟩
  | invoke c normal unwind =>
    simp only [hop, bind_eq_ok, pure_eq_ok] at h
    obtain ⟨result, hresult, site', hsite, n, hn, u, hu, rfl⟩ := h
    exact knows_append.mpr ⟨knows_append.mpr ⟨result_known hresult, site_known hsite⟩,
      knows_cons.mpr ⟨label_has hn, knows_cons.mpr ⟨label_has hu, knows_nil⟩⟩⟩
  | resume v =>
    simp only [hop, bind_eq_ok, pure_eq_ok] at h
    obtain ⟨v', hv, rfl⟩ := h
    exact operand_known hv
  | unreachable =>
    simp only [hop, pure_eq_ok] at h
    cases h
    exact knows_nil
  | binary _ _ _ _ _ | icmp _ _ _ _ _ | fcmp _ _ _ _ _ | fneg _ _ | select _ _ _ | cast _ _ _ _
  | alloca _ _ _ | load _ _ _ _ | store _ _ _ _ | gep _ _ _ _ | phi _ _ | call _ _
  | landingpad _ _ _ | other _ =>
    simp only [hop] at h
    cases h

/-- A block ends with its last line, and the other lines are its instructions. -/
theorem block_eq_ok {index : Nat} {b : Source.Block} {b' : Block} (h : s.block index b = .ok b') :
    ∃ last instructions t, b.instructions.getLast? = some last ∧
      b.instructions.dropLast.mapM (s.instruction b.label) = .ok instructions ∧
      s.terminator b.label last = .ok t ∧ b' = ⟨⟨index⟩, b.label, instructions, t⟩ := by
  unfold block at h
  split at h
  next => cases h
  next last hlast =>
    obtain ⟨instructions, hinstructions, h⟩ := bind_eq_ok.mp h
    rw [ite_error_eq_ok] at h
    simp only [bind_eq_ok, pure_eq_ok] at h
    obtain ⟨-, t, ht, rfl⟩ := h
    exact ⟨last, instructions, t, hlast, hinstructions, ht, rfl⟩

/-- **Resolved blocks stay in scope**: every position in a resolved block is that of a name the
scope has, and the block keeps its label and takes the number it is given. -/
theorem block_known {index : Nat} {b : Source.Block} {b' : Block} (h : s.block index b = .ok b') :
    s.Knows b'.references ∧ b'.id = ⟨index⟩ ∧ b'.label = b.label := by
  obtain ⟨last, instructions, t, -, hinstructions, ht, rfl⟩ := block_eq_ok h
  refine ⟨knows_append.mpr ⟨knows_of_mapM hinstructions ?_, terminator_known ht⟩, rfl, rfl⟩
  exact fun _ _ => instruction_known

end Scope

end SafeIR.IR
