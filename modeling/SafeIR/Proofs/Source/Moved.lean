import SafeIR.Proofs.Peg.Edit
import SafeIR.Proofs.Result
import SafeIR.Source.Parse

/-!
# Reading edited trees

What is read from a tree depends on its rules, its characters and where it starts, and not on the
text around it. So a tree that is kept in an edited text is read there as the same item, with the
offsets that the edit gives. A moved tree is a case of this.
-/

namespace SafeIR.Source

open Peg (Edit ParseTree)

variable {ts : List (ParseTree Rule)}

/-! ## Readings that follow each other -/

/-- The second reading succeeds where the first does, with what `φ` makes of the result. -/
def Follows {α β : Type} (φ : α → β) (x : Read α) (x' : Read β) : Prop :=
  ∀ v, x = .ok v → x' = .ok (φ v)

namespace Follows

variable {α β γ δ : Type} {φ : α → β} {ψ : γ → δ}

theorem error {e : Flaw} {x : Read β} : Follows φ (.error e) x := by
  intro v h
  cases h

theorem unexpected {t : ParseTree Rule} {x : Read β} : Follows φ (Parse.unexpected t) x := error

theorem ok (v : α) : Follows φ (.ok v) (.ok (φ v)) := by
  intro w h
  cases h
  rfl

theorem refl (x : Read α) : Follows id x x := fun _ h => h

theorem congr {φ' : α → β} {x : Read α} {x' : Read β} (h : Follows φ x x')
    (heq : ∀ v, x = .ok v → φ v = φ' v) : Follows φ' x x' := by
  intro v hv
  rw [← heq v hv]
  exact h v hv

theorem bind {x : Read α} {x' : Read β} {f : α → Read γ} {f' : β → Read δ} (hx : Follows φ x x')
    (hf : ∀ v, Follows ψ (f v) (f' (φ v))) : Follows ψ (x >>= f) (x' >>= f') := by
  intro w h
  obtain ⟨v, hv, hw⟩ := bind_eq_ok.mp h
  exact bind_eq_ok.mpr ⟨φ v, hx v hv, hf v w hw⟩

theorem mapM {ts : List α} {f : α → Read γ} {f' : β → Read δ}
    (h : ∀ t ∈ ts, Follows ψ (f t) (f' (φ t))) :
    Follows (List.map ψ) (ts.mapM f) ((ts.map φ).mapM f') := by
  induction ts with
  | nil => exact ok []
  | cons t ts ih =>
    rw [List.map_cons, List.mapM_cons, List.mapM_cons]
    refine (h t List.mem_cons_self).bind fun v => ?_
    exact (ih fun u hu => h u (List.mem_cons_of_mem t hu)).bind fun vs => ok (v :: vs)

theorem foldlM {ts : List α} {f : γ → α → Read γ} {f' : δ → β → Read δ} (s : γ)
    (h : ∀ t ∈ ts, ∀ s, Follows ψ (f s t) (f' (ψ s) (φ t))) :
    Follows ψ (ts.foldlM f s) ((ts.map φ).foldlM f' (ψ s)) := by
  induction ts generalizing s with
  | nil => exact ok s
  | cons t ts ih =>
    rw [List.map_cons, List.foldlM_cons, List.foldlM_cons]
    refine (h t List.mem_cons_self s).bind fun s' => ?_
    exact ih s' fun u hu => h u (List.mem_cons_of_mem t hu)

end Follows

/-! ## Moved items -/

/-- The instruction, in a text that starts `k` bytes earlier. -/
def Instruction.moved (k : Nat) (i : Instruction) : Instruction := { i with offset := i.offset + k }

/-- The block, in a text that starts `k` bytes earlier. -/
def Block.moved (k : Nat) (b : Block) : Block :=
  { b with instructions := b.instructions.map (Instruction.moved k), offset := b.offset + k }

/-- The function, in a text that starts `k` bytes earlier. -/
def Function.moved (k : Nat) (f : Function) : Function :=
  { f with blocks := f.blocks.map (Block.moved k), offset := f.offset + k }

/-- The global, in a text that starts `k` bytes earlier. -/
def Global.moved (k : Nat) (g : Global) : Global := { g with offset := g.offset + k }

/-- The module, in a text that starts `k` bytes earlier. -/
def Module.moved (k : Nat) (m : Module) : Module :=
  { m with globals := m.globals.map (Global.moved k)
           functions := m.functions.map (Function.moved k) }

/-! ## Items at other offsets -/

/-- The instruction, in a text that changes where it stands. -/
def Instruction.relocate (f : Nat → Nat) (i : Instruction) : Instruction :=
  { i with offset := f i.offset }

def Block.relocate (f : Nat → Nat) (b : Block) : Block :=
  { b with instructions := b.instructions.map (Instruction.relocate f), offset := f b.offset }

def Function.relocate (f : Nat → Nat) (fn : Function) : Function :=
  { fn with blocks := fn.blocks.map (Block.relocate f), offset := f fn.offset }

def Global.relocate (f : Nat → Nat) (g : Global) : Global := { g with offset := f g.offset }

/-- The module with other globals and functions in the place of its own. -/
def Module.mapItems (γ : Global → Global) (χ : Function → Function) (m : Module) : Module :=
  { m with globals := m.globals.map γ, functions := m.functions.map χ }

/-- The module, in a text that changes where its items stand. -/
def Module.relocate (f : Nat → Nat) (m : Module) : Module :=
  m.mapItems (Global.relocate f) (Function.relocate f)

namespace Parse

variable {φ : Edit} {t : ParseTree Rule}

/-! ## Parts -/

theorem text_edit (h : t.Kept φ) : (t.edit φ).text = t.text := by
  rw [ParseTree.text, h.chars, ParseTree.text]

theorem identName_edit (h : t.Kept φ) : identName (t.edit φ) = identName t := by
  rw [identName, h.chars, identName]

theorem unquoted_edit (h : t.Kept φ) : unquoted (t.edit φ) = unquoted t := by
  rw [unquoted, h.chars, unquoted]

theorem filter_edit (φ : Edit) {p : Rule → Bool} (ts : List (ParseTree Rule)) :
    (ts.map (ParseTree.edit φ)).filter (fun t => p t.rule)
      = (ts.filter fun t => p t.rule).map (ParseTree.edit φ) := by
  rw [List.filter_map]
  refine congrArg _ (congrArg (fun q => ts.filter q) (funext fun t => ?_))
  exact congrArg p (ParseTree.rule_edit φ t)

theorem parts_edit (t : ParseTree Rule) (r : Rule) :
    parts (t.edit φ) r = (parts t r).map (ParseTree.edit φ) := by
  rw [parts, ParseTree.children_edit]
  exact filter_edit φ (p := (· == r)) t.children

theorem flatMap_edit (φ : Edit) {f : ParseTree Rule → List (ParseTree Rule)}
    (hf : ∀ u : ParseTree Rule, f (u.edit φ) = (f u).map (ParseTree.edit φ))
    (ts : List (ParseTree Rule)) :
    (ts.map (ParseTree.edit φ)).flatMap f = (ts.flatMap f).map (ParseTree.edit φ) := by
  rw [List.flatMap_map, List.map_flatMap]
  simp only [hf]

theorem kept_of_mem_parts (h : t.Kept φ) {r : Rule} {u : ParseTree Rule} (hu : u ∈ parts t r) :
    u.Kept φ :=
  h.children u (List.mem_filter.mp hu).1

theorem kept_of_parts_eq (h : t.Kept φ) {r : Rule} {us : List (ParseTree Rule)}
    (heq : parts t r = us) : ∀ u ∈ us, u.Kept φ := by
  rintro u hu
  exact kept_of_mem_parts h (heq ▸ hu)

theorem kept_of_children_eq (h : t.Kept φ) {us : List (ParseTree Rule)} (heq : t.children = us) :
    ∀ u ∈ us, u.Kept φ := by
  rintro u hu
  exact h.children u (heq ▸ hu)

theorem count_edit (h : t.Kept φ) : Follows id (count t) (count (t.edit φ)) := by
  unfold count
  rw [h.chars]
  split
  · exact .ok _
  · exact .error

theorem alignment_edit (h : t.Kept φ) : Follows id (alignment t) (alignment (t.edit φ)) := by
  unfold alignment
  rw [ParseTree.children_edit]
  split
  next n heq =>
    rw [heq]
    exact count_edit (h.children n (heq ▸ List.mem_cons_self))
  next => exact .unexpected

theorem lastAlignment_edit (h : ∀ t ∈ ts, t.Kept φ) :
    Follows id (lastAlignment ts) (lastAlignment (ts.map (ParseTree.edit φ))) := by
  unfold lastAlignment
  refine (Follows.mapM fun t ht => alignment_edit (h t ht)).bind fun vs => ?_
  rw [List.map_id]
  exact .ok _

/-! ## Types -/

/-- The types that are told by the rule alone. -/
def plainType? : Rule → Option Ty
  | .voidType => some .void
  | .halfType => some .half
  | .floatType => some .float
  | .doubleType => some .double
  | .fp80Type => some .x86Fp80
  | .fp128Type => some .fp128
  | .ptrType => some .ptr
  | .labelType => some .label
  | .metadataType => some .metadata
  | _ => none

theorem baseType_of_plainType? {t : ParseTree Rule} {ty : Ty} (h : plainType? t.rule = some ty) :
    baseType t = .ok ty := by
  cases t with
  | node r start input stop children =>
    cases r
    all_goals cases h
    all_goals rfl

theorem baseType_of_intType {t : ParseTree Rule} (h : t.rule = .intType) :
    baseType t = match Decimal.unsigned? 32 (t.chars.drop 1) with
      | some bits => .ok (.int bits)
      | none => .error ⟨t.start, .badWidth⟩ := by
  cases t with
  | node r start input stop children =>
    cases h
    rfl

mutual

theorem type_edit : ∀ (t : ParseTree Rule), t.Kept φ → Follows id (type t) (type (t.edit φ))
  | .node r start input stop [], h => by
    rw [type]
    · exact .unexpected
    · simp
  | .node r start input stop (base :: stars), h => by
    rw [ParseTree.edit, ParseTree.editAll, ParseTree.editAll_eq_map, type, type]
    refine (baseType_edit base (h.children base List.mem_cons_self)).bind fun ty => ?_
    rw [List.isEmpty_map]
    exact .ok _

/-- A kept type is read as before. -/
theorem baseType_edit : ∀ (t : ParseTree Rule), t.Kept φ →
    Follows id (baseType t) (baseType (t.edit φ))
  | .node r start input stop children, h => by
    cases hplain : plainType? r with
    | some ty =>
      have hedit : plainType? ((ParseTree.node r start input stop children).edit φ).rule
          = some ty := hplain
      rw [baseType_of_plainType? hedit, baseType_of_plainType? (t := .node ..) hplain]
      exact .ok ty
    | none =>
      cases r
      case arrayType =>
        match children, h with
        | [len, elem], h =>
          rw [ParseTree.edit, ParseTree.editAll, ParseTree.editAll, ParseTree.editAll, baseType,
            baseType]
          have hlen := h.children len List.mem_cons_self
          have helem := h.children elem (List.mem_cons_of_mem len List.mem_cons_self)
          exact (count_edit hlen).bind fun n => (type_edit elem helem).bind fun ty => .ok _
        | [], _ | [_], _ | _ :: _ :: _ :: _, _ => exact .error
      case vectorType =>
        match children, h with
        | [len, elem], h =>
          rw [ParseTree.edit, ParseTree.editAll, ParseTree.editAll, ParseTree.editAll, baseType,
            baseType]
          have hlen := h.children len List.mem_cons_self
          have helem := h.children elem (List.mem_cons_of_mem len List.mem_cons_self)
          exact (count_edit hlen).bind fun n => (type_edit elem helem).bind fun ty => .ok _
        | [], _ | [_], _ | _ :: _ :: _ :: _, _ => exact .error
      case structType =>
        rw [ParseTree.edit, ParseTree.editAll_eq_map, baseType, baseType]
        exact (types_edit children h.children).bind fun tys => .ok _
      case packedStructType =>
        rw [ParseTree.edit, ParseTree.editAll_eq_map, baseType, baseType]
        exact (types_edit children h.children).bind fun tys => .ok _
      case namedType =>
        match children, h with
        | [name], h =>
          rw [ParseTree.edit, ParseTree.editAll, ParseTree.editAll, baseType, baseType,
            identName_edit (h.children name List.mem_cons_self)]
          exact .ok _
        | [], _ | _ :: _ :: _, _ => exact .error
      case intType =>
        rw [baseType_of_intType rfl, baseType_of_intType (ParseTree.rule_edit φ _),
          h.chars]
        split
        · exact .ok _
        · exact .error
      all_goals first | exact .error | cases hplain

theorem types_edit : ∀ (ts : List (ParseTree Rule)), (∀ t ∈ ts, t.Kept φ) →
    Follows id (types ts) (types (ts.map (ParseTree.edit φ)))
  | [], h => .ok []
  | t :: ts, h => by
    rw [List.map_cons, types, types]
    refine (type_edit t (h t List.mem_cons_self)).bind fun ty => ?_
    exact (types_edit ts fun u hu => h u (List.mem_cons_of_mem t hu)).bind fun tys => .ok _

end

/-! ## Values -/

theorem float_edit (h : t.Kept φ) : Follows id (float t) (float (t.edit φ)) := by
  unfold float
  rw [h.chars]
  split
  next =>
    split
    · exact .ok _
    · exact .error
  next =>
    split
    · exact .ok _
    · exact .unexpected

theorem literal_edit (h : t.Kept φ) : Follows id (literal t) (literal (t.edit φ)) := by
  unfold literal
  rw [ParseTree.rule_edit, h.chars, identName_edit h, text_edit h]
  split
  case h_8 =>
    split
    · exact .ok _
    · exact .error
  case h_9 => exact (float_edit h).bind fun bits => .ok _
  case h_11 => exact .unexpected
  all_goals exact .ok _

/-- A value with one part that has no parts itself. -/
theorem value_of_literal {r : Rule} {start : Nat} {input : List Char} {stop : Nat}
    {u : ParseTree Rule} (harray : u.rule ≠ .arrayConst) (hstruct : u.rule ≠ .structConst) :
    value (.node r start input stop [u]) = literal u := by
  cases u with
  | node r' start' input' stop' children =>
    rw [value]
    · rintro _ _ _ _ ⟨⟩
      exact harray rfl
    · rintro _ _ _ _ ⟨⟩
      exact hstruct rfl

mutual

theorem value_edit : ∀ (t : ParseTree Rule), t.Kept φ → Follows id (value t) (value (t.edit φ))
  | .node r start input stop [.node r' start' input' stop' items], h => by
    have hu := h.children _ List.mem_cons_self
    rw [ParseTree.edit, ParseTree.editAll, ParseTree.editAll]
    by_cases harray : r' = .arrayConst
    · subst harray
      rw [ParseTree.edit, ParseTree.editAll_eq_map, value, value]
      exact (operands_edit items hu.children).bind fun vs => .ok _
    by_cases hstruct : r' = .structConst
    · subst hstruct
      rw [ParseTree.edit, ParseTree.editAll_eq_map, value, value]
      exact (operands_edit items hu.children).bind fun vs => .ok _
    · rw [value_of_literal (u := .node r' start' input' stop' items) harray hstruct,
        value_of_literal]
      · exact literal_edit hu
      · rwa [ParseTree.rule_edit]
      · rwa [ParseTree.rule_edit]
  | .node r start input stop [], h => .error
  | .node r start input stop (_ :: _ :: _), h => by
    rw [value]
    · exact .unexpected
    all_goals simp

theorem operand_edit : ∀ (t : ParseTree Rule), t.Kept φ →
    Follows id (operand t) (operand (t.edit φ))
  | .node r start input stop [ty, v], h => by
    rw [ParseTree.edit, ParseTree.editAll, ParseTree.editAll, ParseTree.editAll, operand, operand]
    have hty := h.children ty List.mem_cons_self
    have hv := h.children v (List.mem_cons_of_mem ty List.mem_cons_self)
    exact (type_edit ty hty).bind fun ty => (value_edit v hv).bind fun v => .ok _
  | .node r start input stop [], h => .error
  | .node r start input stop [_], h => .error
  | .node r start input stop (_ :: _ :: _ :: _), h => .error

theorem operands_edit : ∀ (ts : List (ParseTree Rule)), (∀ t ∈ ts, t.Kept φ) →
    Follows id (operands ts) (operands (ts.map (ParseTree.edit φ)))
  | [], h => .ok []
  | t :: ts, h => by
    rw [List.map_cons, operands, operands]
    refine (operand_edit t (h t List.mem_cons_self)).bind fun v => ?_
    exact (operands_edit ts fun u hu => h u (List.mem_cons_of_mem t hu)).bind fun vs => .ok _

end

/-! ## Instructions -/

theorem map_text_edit (h : ∀ t ∈ ts, t.Kept φ) :
    (ts.map (ParseTree.edit φ)).map ParseTree.text = ts.map ParseTree.text := by
  rw [List.map_map]
  exact List.map_congr_left fun t ht => text_edit (h t ht)

theorem findSome?_text_edit {α : Type} (f : String → Option α) (h : ∀ t ∈ ts, t.Kept φ) :
    (ts.map (ParseTree.edit φ)).findSome? (fun t => f t.text) = ts.findSome? fun t => f t.text := by
  induction ts with
  | nil => rfl
  | cons t ts ih =>
    rw [List.map_cons, List.findSome?_cons, List.findSome?_cons, text_edit (h t List.mem_cons_self),
      ih fun u hu => h u (List.mem_cons_of_mem t hu)]

theorem flags_edit (h : t.Kept φ) : flags (t.edit φ) = flags t := by
  unfold flags
  rw [parts_edit, map_text_edit fun u hu => kept_of_mem_parts h hu]

theorem signature_edit (ret : Ty) (h : t.Kept φ) :
    Follows id (signature ret t) (signature ret (t.edit φ)) := by
  unfold signature
  rw [parts_edit, parts_edit, List.isEmpty_map]
  exact (types_edit _ fun u hu => kept_of_mem_parts h hu).bind fun tys => .ok _

theorem argument_edit (h : t.Kept φ) : Follows id (argument t) (argument (t.edit φ)) := by
  unfold argument
  rw [ParseTree.children_edit]
  cases hchildren : t.children with
  | nil => exact .unexpected
  | cons first rest =>
    have hfirst := h.children first (hchildren ▸ List.mem_cons_self)
    simp only [List.map_cons, ParseTree.rule_edit, List.getLast?_map, text_edit hfirst]
    split
    next => exact .ok _
    next =>
      cases hlast : rest.getLast? with
      | none => exact .unexpected
      | some last =>
        have hmem : last ∈ t.children :=
          hchildren ▸ List.mem_cons_of_mem first (List.mem_of_getLast? hlast)
        refine (type_edit first hfirst).bind fun ty => ?_
        exact (value_edit last (h.children last hmem)).bind fun v => .ok _

theorem site_edit (h : t.Kept φ) : Follows id (site t) (site (t.edit φ)) := by
  unfold site
  simp only [parts_edit]
  split
  next ret callee hret hcallee =>
    rw [hret, hcallee]
    refine (type_edit ret (kept_of_parts_eq h hret ret (by simp))).bind fun ret => ?_
    refine (Follows.mapM fun u hu => signature_edit ret (kept_of_mem_parts h hu)).bind
      fun signature => ?_
    refine (value_edit callee (kept_of_parts_eq h hcallee callee (by simp))).bind fun callee => ?_
    rw [flatMap_edit φ (ParseTree.children_edit φ), List.map_id]
    refine (Follows.mapM fun u hu => argument_edit ?_).bind fun args => ?_
    · obtain ⟨part, hpart, hu⟩ := List.mem_flatMap.mp hu
      exact (kept_of_mem_parts h hpart).children u hu
    · rw [List.map_id]
      exact .ok _
  next => exact .unexpected

theorem between_edit (h : t.Kept φ) (make : Ty → Value → Value → Op) :
    Follows id (between t make) (between (t.edit φ) make) := by
  unfold between
  simp only [parts_edit]
  split
  next ty lhs rhs hty hvalues =>
    rw [hty, hvalues]
    refine (type_edit ty (kept_of_parts_eq h hty ty (by simp))).bind fun ty => ?_
    refine (value_edit lhs (kept_of_parts_eq h hvalues lhs (by simp))).bind fun lhs => ?_
    exact (value_edit rhs (kept_of_parts_eq h hvalues rhs (by simp))).bind fun rhs => .ok _
  next => exact .unexpected

theorem case_edit (h : t.Kept φ) : Follows id (case t) (case (t.edit φ)) := by
  unfold case
  rw [ParseTree.children_edit]
  split
  next v target heq =>
    have hkept := kept_of_children_eq h heq
    rw [heq, List.map_cons, List.map_cons, List.map_nil]
    simp only [identName_edit (hkept target (by simp))]
    exact (operand_edit v (hkept v (by simp))).bind fun v => .ok _
  next => exact .unexpected

theorem arrival_edit (h : t.Kept φ) : Follows id (arrival t) (arrival (t.edit φ)) := by
  unfold arrival
  rw [ParseTree.children_edit]
  split
  next v source heq =>
    have hkept := kept_of_children_eq h heq
    rw [heq, List.map_cons, List.map_cons, List.map_nil]
    simp only [identName_edit (hkept source (by simp))]
    exact (value_edit v (hkept v (by simp))).bind fun v => .ok _
  next => exact .unexpected

theorem clause_edit (h : t.Kept φ) : Follows id (clause t) (clause (t.edit φ)) := by
  unfold clause
  rw [ParseTree.children_edit]
  split
  next v heq =>
    rw [heq]
    exact operand_edit v (kept_of_children_eq h heq v (by simp))
  next => exact .unexpected

/-- A kept operation is read as before. -/
theorem op_edit (h : t.Kept φ) : Follows id (op t) (op (t.edit φ)) := by
  have hword : ((t.edit φ).children.head?.map ParseTree.text).getD ""
      = (t.children.head?.map ParseTree.text).getD "" := by
    rw [ParseTree.children_edit, List.head?_map, Option.map_map]
    cases hhead : t.children.head? with
    | none => rfl
    | some u => exact text_edit (h.children u (List.mem_of_head? hhead))
  unfold op
  simp only [hword, parts_edit, flags_edit h, List.isEmpty_map]
  rw [ParseTree.rule_edit, ParseTree.children_edit]
  -- The rule and the number of its children are kept, so both texts take the same branch.
  split
  next v hrule heq =>
    have hv := kept_of_children_eq h heq v (by simp)
    rw [hrule, heq]
    simp only [List.map_cons, List.map_nil, ParseTree.rule_edit]
    split
    · exact .ok _
    · exact (operand_edit v hv).bind fun v => .ok _
  next target hrule heq =>
    rw [hrule, heq]
    simp only [List.map_cons, List.map_nil,
      identName_edit (kept_of_children_eq h heq target (by simp))]
    exact .ok _
  next ty cond yes no hrule heq =>
    have hkept := kept_of_children_eq h heq
    rw [hrule, heq]
    simp only [List.map_cons, List.map_nil, identName_edit (hkept yes (by simp)),
      identName_edit (hkept no (by simp))]
    refine (type_edit ty (hkept ty (by simp))).bind fun ty => ?_
    exact (value_edit cond (hkept cond (by simp))).bind fun cond => .ok _
  next v default cases hrule heq =>
    have hkept := kept_of_children_eq h heq
    rw [hrule, heq]
    simp only [List.map_cons, identName_edit (hkept default (by simp))]
    refine (operand_edit v (hkept v (by simp))).bind fun v => ?_
    refine (Follows.mapM fun u hu => case_edit (hkept u (by simp [hu]))).bind fun cases => ?_
    rw [List.map_id]
    exact .ok _
  next hrule =>
    rw [hrule]
    exact .ok _
  next v hrule heq =>
    rw [hrule, heq]
    exact (operand_edit v (kept_of_children_eq h heq v (by simp))).bind fun v => .ok _
  next hrule =>
    rw [hrule]
    simp only
    split
    · exact between_edit h _
    · exact .unexpected
  next hrule =>
    rw [hrule]
    simp only [findSome?_text_edit IntPredicate.ofWord? fun u hu => kept_of_mem_parts h hu]
    split
    · exact between_edit h _
    · exact .unexpected
  next hrule =>
    rw [hrule]
    simp only [findSome?_text_edit FloatPredicate.ofWord? fun u hu => kept_of_mem_parts h hu]
    split
    · exact between_edit h _
    · exact .unexpected
  next hrule =>
    rw [hrule]
    split
    next v heq =>
      rw [heq]
      exact (operand_edit v (kept_of_parts_eq h heq v (by simp))).bind fun v => .ok _
    next => exact .unexpected
  next hrule =>
    rw [hrule]
    split
    next cond yes no heq =>
      have hkept := kept_of_parts_eq h heq
      rw [heq]
      refine (operand_edit cond (hkept cond (by simp))).bind fun cond => ?_
      refine (operand_edit yes (hkept yes (by simp))).bind fun yes => ?_
      exact (operand_edit no (hkept no (by simp))).bind fun no => .ok _
    next => exact .unexpected
  next hrule =>
    rw [hrule]
    split
    next op v ty hop hv hty =>
      rw [hv, hty]
      simp only [hop]
      refine (operand_edit v (kept_of_parts_eq h hv v (by simp))).bind fun v => ?_
      exact (type_edit ty (kept_of_parts_eq h hty ty (by simp))).bind fun ty => .ok _
    next => exact .unexpected
  next ty rest hrule heq =>
    rw [hrule, heq]
    refine (type_edit ty (kept_of_children_eq h heq ty (by simp))).bind fun ty => ?_
    refine (operands_edit _ fun u hu => kept_of_mem_parts h hu).bind fun count => ?_
    exact (lastAlignment_edit fun u hu => kept_of_mem_parts h hu).bind fun align => .ok _
  next hrule =>
    rw [hrule]
    split
    next ty address hty haddress =>
      rw [hty, haddress]
      refine (type_edit ty (kept_of_parts_eq h hty ty (by simp))).bind fun ty => ?_
      refine (operand_edit address (kept_of_parts_eq h haddress address (by simp))).bind
        fun address => ?_
      exact (lastAlignment_edit fun u hu => kept_of_mem_parts h hu).bind fun align => .ok _
    next => exact .unexpected
  next hrule =>
    rw [hrule]
    split
    next v address heq =>
      have hkept := kept_of_parts_eq h heq
      rw [heq]
      refine (operand_edit v (hkept v (by simp))).bind fun v => ?_
      refine (operand_edit address (hkept address (by simp))).bind fun address => ?_
      exact (lastAlignment_edit fun u hu => kept_of_mem_parts h hu).bind fun align => .ok _
    next => exact .unexpected
  next hrule =>
    rw [hrule]
    split
    next ty base indices hty hvalues =>
      have hkept := kept_of_parts_eq h hvalues
      rw [hty, hvalues]
      refine (type_edit ty (kept_of_parts_eq h hty ty (by simp))).bind fun ty => ?_
      refine (operand_edit base (hkept base (by simp))).bind fun base => ?_
      exact (operands_edit indices fun u hu => hkept u (by simp [hu])).bind fun indices => .ok _
    next => exact .unexpected
  next hrule =>
    rw [hrule]
    split
    next ty heq =>
      rw [heq]
      refine (type_edit ty (kept_of_parts_eq h heq ty (by simp))).bind fun ty => ?_
      refine (Follows.mapM fun u hu => arrival_edit (kept_of_mem_parts h hu)).bind
        fun incoming => ?_
      rw [List.map_id]
      exact .ok _
    next => exact .unexpected
  next hrule =>
    rw [hrule]
    exact (site_edit h).bind fun site => .ok _
  next hrule =>
    rw [hrule]
    split
    next normal unwind heq =>
      have hkept := kept_of_parts_eq h heq
      rw [heq]
      simp only [List.map_cons, List.map_nil, identName_edit (hkept normal (by simp)),
        identName_edit (hkept unwind (by simp))]
      exact (site_edit h).bind fun site => .ok _
    next => exact .unexpected
  next ty rest hrule heq =>
    rw [hrule, heq]
    refine (type_edit ty (kept_of_children_eq h heq ty (by simp))).bind fun ty => ?_
    refine (Follows.mapM fun u hu => clause_edit (kept_of_mem_parts h hu)).bind fun clauses => ?_
    rw [List.map_id]
    exact .ok _
  next hrule =>
    rw [hrule]
    exact .ok _
  next => exact .unexpected

/-- The name that a part of some rule gives. -/
theorem firstName_edit (h : t.Kept φ) (r : Rule) :
    (parts (t.edit φ) r).head?.map identName = (parts t r).head?.map identName := by
  rw [parts_edit, List.head?_map, Option.map_map]
  cases hhead : (parts t r).head? with
  | none => rfl
  | some u => exact congrArg some (identName_edit (kept_of_mem_parts h (List.mem_of_head? hhead)))

theorem instruction_edit (h : t.Kept φ) :
    Follows (Instruction.relocate φ.offset) (instruction t) (instruction (t.edit φ)) := by
  have hbody := filter_edit φ
    (p := fun r => decide (r ≠ .localIdent ∧ r ≠ .instTrailer)) t.children
  unfold instruction
  rw [ParseTree.children_edit, hbody, firstName_edit h, h.chars,
    ParseTree.start_edit]
  split
  next body heq =>
    have hmem : body ∈ t.children.filter fun c =>
        decide (c.rule ≠ .localIdent ∧ c.rule ≠ .instTrailer) := heq ▸ List.mem_cons_self
    rw [heq]
    exact (op_edit (h.children body (List.mem_filter.mp hmem).1)).bind fun op => .ok _
  next => exact .unexpected

/-! ## Functions -/

theorem param_edit (next : UInt64) (h : t.Kept φ) :
    Follows id (param next t) (param next (t.edit φ)) := by
  unfold param
  rw [ParseTree.children_edit, firstName_edit h]
  cases hchildren : t.children with
  | nil => exact .unexpected
  | cons ty rest =>
    exact (type_edit ty (kept_of_children_eq h hchildren ty (by simp))).bind fun ty => .ok _

theorem params_edit (next : UInt64) (h : ∀ t ∈ ts, t.Kept φ) :
    Follows id (params next ts) (params next (ts.map (ParseTree.edit φ))) := by
  induction ts generalizing next with
  | nil => exact .ok _
  | cons t ts ih =>
    rw [List.map_cons, params, params]
    refine (param_edit next (h t List.mem_cons_self)).bind fun (p, next) => ?_
    exact (ih next fun u hu => h u (List.mem_cons_of_mem t hu)).bind fun (ps, next) => .ok _

/-- The name that a block is given in the text. -/
def givenLabel (t : ParseTree Rule) : Option String :=
  (parts t .blockLabel).head?.bind (·.children.head?.map unquoted)

theorem givenLabel_edit (h : t.Kept φ) : givenLabel (t.edit φ) = givenLabel t := by
  unfold givenLabel
  rw [parts_edit, List.head?_map]
  cases hlabel : (parts t .blockLabel).head? with
  | none => rfl
  | some label =>
    have hkept := kept_of_mem_parts h (List.mem_of_head? hlabel)
    simp only [Option.map_some, Option.bind_some, ParseTree.children_edit, List.head?_map,
      Option.map_map]
    cases hname : label.children.head? with
    | none => rfl
    | some name =>
      exact congrArg some (unquoted_edit (hkept.children name (List.mem_of_head? hname)))

theorem block_edit (next : UInt64) (h : t.Kept φ) :
    Follows (fun r => (r.1.relocate φ.offset, r.2)) (block next t) (block next (t.edit φ)) := by
  have hgiven : (parts (t.edit φ) .blockLabel).head?.bind (·.children.head?.map unquoted)
      = (parts t .blockLabel).head?.bind (·.children.head?.map unquoted) := givenLabel_edit h
  unfold block
  simp only [hgiven, ParseTree.start_edit]
  rw [parts_edit]
  refine (Follows.mapM fun u hu => instruction_edit (kept_of_mem_parts h hu)).bind fun is => ?_
  have hresults : (is.map (Instruction.relocate φ.offset)).filterMap Instruction.result
      = is.filterMap Instruction.result := by
    rw [List.filterMap_map]
    rfl
  rw [hresults]
  exact .ok _

theorem blocks_edit (next : UInt64) (h : ∀ t ∈ ts, t.Kept φ) :
    Follows (List.map (Block.relocate φ.offset)) (blocks next ts)
      (blocks next (ts.map (ParseTree.edit φ))) := by
  induction ts generalizing next with
  | nil => exact .ok _
  | cons t ts ih =>
    rw [List.map_cons, blocks, blocks]
    refine (block_edit next (h t List.mem_cons_self)).bind fun (b, next) => ?_
    exact (ih next fun u hu => h u (List.mem_cons_of_mem t hu)).bind fun bs => .ok _

theorem personality_edit (h : t.Kept φ) :
    Follows id (personality t) (personality (t.edit φ)) := by
  unfold personality
  rw [parts_edit]
  rcases heq : parts t .value with _ | ⟨v, _ | ⟨w, ws⟩⟩
  · exact .ok _
  · exact (value_edit v (kept_of_parts_eq h heq v (by simp))).bind fun v => .refl _
  · exact .ok _

/-- A function whose parts but its blocks are kept, and whose blocks are read alike. -/
theorem function_edit_blocks (isDeclaration : Bool) {ψ : List Block → List Block}
    (h : ∀ u ∈ t.children, u.rule ≠ .block → u.Kept φ)
    (hblocks : ∀ next, Follows ψ (blocks next (parts t .block))
      (blocks next ((parts t .block).map (ParseTree.edit φ)))) :
    Follows (fun f => { f with blocks := ψ f.blocks, offset := φ.offset f.offset })
      (function isDeclaration t) (function isDeclaration (t.edit φ)) := by
  have hpart {r : Rule} (hr : r ≠ .block) {u : ParseTree Rule} (hu : u ∈ parts t r) : u.Kept φ := by
    obtain ⟨hmem, hrule⟩ := List.mem_filter.mp hu
    exact h u hmem (by rw [beq_iff_eq.mp hrule]; exact hr)
  have hchildren := flatMap_edit φ (ParseTree.children_edit φ) (parts t .paramList)
  have hhandlers := flatMap_edit φ (f := fun u => parts u .personality)
    (fun u => parts_edit u .personality) (parts t .functionSuffix)
  have hparams := filter_edit φ (p := (· == .param))
    ((parts t .paramList).flatMap ParseTree.children)
  have hvarargs : (((parts t .paramList).flatMap ParseTree.children).map
      (ParseTree.edit φ)).any (·.rule == .vararg)
        = ((parts t .paramList).flatMap ParseTree.children).any (·.rule == .vararg) := by
    rw [List.any_map]
    exact congrArg _ (funext fun u => by rw [Function.comp, ParseTree.rule_edit])
  have hlinkage := map_text_edit fun _ (hu : _ ∈ parts t .linkageWord) => hpart (by simp) hu
  -- Only the blocks may change; all other parts are kept.
  unfold function
  simp only [parts_edit, hchildren, hhandlers, hparams, hvarargs, hlinkage, ParseTree.start_edit]
  split
  next ty name hty hname =>
    have hkept : ty.Kept φ ∧ name.Kept φ :=
      ⟨hpart (r := .type) (by simp) (by rw [hty]; exact List.mem_cons_self),
        hpart (r := .globalIdent) (by simp) (by rw [hname]; exact List.mem_cons_self)⟩
    rw [hty, hname]
    simp only [List.map_cons, List.map_nil, identName_edit hkept.2]
    refine (type_edit ty hkept.1).bind fun returnType => ?_
    refine (params_edit 0 fun u hu => ?_).bind fun (params, next) => ?_
    · obtain ⟨list, hlist, hu⟩ := List.mem_flatMap.mp (List.mem_filter.mp hu).1
      exact (hpart (by simp) hlist).children u hu
    refine (Follows.mapM fun u hu => personality_edit ?_).bind fun handlers => ?_
    · obtain ⟨suffix, hsuffix, hu⟩ := List.mem_flatMap.mp hu
      exact kept_of_mem_parts (hpart (by simp) hsuffix) hu
    refine (hblocks next).bind fun blocks => ?_
    rw [List.map_id]
    exact .ok _
  next => exact .unexpected

theorem function_edit (isDeclaration : Bool) (h : t.Kept φ) :
    Follows (Function.relocate φ.offset) (function isDeclaration t)
      (function isDeclaration (t.edit φ)) :=
  function_edit_blocks isDeclaration (fun u hu _ => h.children u hu) fun next =>
    blocks_edit next fun _ hu => kept_of_mem_parts h hu

/-! ## Items -/

/-- A kept global is read as before, but for its offset. -/
theorem global_edit (h : t.Kept φ) :
    Follows (Global.relocate φ.offset) (global t) (global (t.edit φ)) := by
  have hinit := flatMap_edit φ (ParseTree.children_edit φ) (parts t .globalInit)
  have halign := flatMap_edit φ (f := fun u => parts u .alignClause)
    (fun u => parts_edit u .alignClause) (parts t .globalSuffix)
  have hlinkage := map_text_edit fun u (hu : u ∈ parts t .linkageWord) =>
    kept_of_mem_parts h hu
  have hconstant : ((parts t .globalKind).map (ParseTree.edit φ)).any (·.text == "constant")
      = (parts t .globalKind).any (·.text == "constant") := by
    have hkind := map_text_edit fun u (hu : u ∈ parts t .globalKind) =>
      kept_of_mem_parts h hu
    have hany := congrArg (List.any · (· == "constant")) hkind
    simpa only [List.any_map, Function.comp_def] using hany
  unfold global
  simp only [parts_edit, hinit, halign, hlinkage, hconstant, ParseTree.start_edit]
  split
  next name ty hname hty =>
    rw [hty, hname]
    simp only [List.map_cons, List.map_nil,
      identName_edit (kept_of_parts_eq h hname name (by simp))]
    refine (type_edit ty (kept_of_parts_eq h hty ty (by simp))).bind fun ty => ?_
    refine (Follows.mapM fun u hu => value_edit u ?_).bind fun initial => ?_
    · obtain ⟨init, hinit, hu⟩ := List.mem_flatMap.mp hu
      exact (kept_of_mem_parts h hinit).children u hu
    refine (lastAlignment_edit fun u hu => ?_).bind fun align => ?_
    · obtain ⟨suffix, hsuffix, hu⟩ := List.mem_flatMap.mp hu
      exact kept_of_mem_parts (kept_of_mem_parts h hsuffix) hu
    rw [List.map_id]
    exact .ok _
  next => exact .unexpected

theorem typeDef_edit (h : t.Kept φ) : Follows id (typeDef t) (typeDef (t.edit φ)) := by
  unfold typeDef
  rw [ParseTree.children_edit]
  split
  next name body heq =>
    have hkept := kept_of_children_eq h heq
    rw [heq]
    simp only [List.map_cons, List.map_nil, ParseTree.rule_edit,
      identName_edit (hkept name (by simp))]
    split
    · exact .ok _
    · exact (type_edit body (hkept body (by simp))).bind fun ty => .ok _
  next => exact .unexpected

end Parse

end SafeIR.Source
