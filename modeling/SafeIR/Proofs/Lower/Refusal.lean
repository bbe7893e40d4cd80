import SafeIR.Proofs.IR.Progress
import SafeIR.Proofs.Lower.Address

/-!
# Functions without code

Lowering looks up blocks, globals and functions by position, and each look-up has a failure of its
own for a position that is out of range. In a well-formed module there are none, so a function that
cannot be lowered says something that has no counterpart, or has a phi without an entry for a
predecessor of its block.

There is one statement for each part of the lowering, and each follows the steps of that part.
-/

namespace SafeIR.Lower

open IR (Block BlockId Constant FuncId GlobalId Operand Reference Typed ValueId)
open Layout (Scalar)
open Target (Call Expr Step Stmt Var)

variable {source b : Block}

/-- Why a function has no code. -/
inductive Refuses (m : IR.Module) (profile : Profile) (f : IR.Function) : Failure → Prop
  | type (t : UnsupportedType) : Refuses m profile f (.unsupportedType t)
  /-- The instruction stands in the block, or is a phi that the block branches to. -/
  | instruction {b : Block} (hb : b ∈ f.blocks) {opcode : String}
      (hopcode : opcode ∈ "phi" :: b.opcodes) (why : Obstacle) :
      Refuses m profile f (.unsupportedInstruction opcode f.name b.label why)
  | intrinsic {b : Block} (hb : b ∈ f.blocks) {callee : IR.Function}
      (hcallee : callee ∈ m.functions) (hdeclared : callee.isDeclaration = true)
      (hunknown : Intrinsic.lookUp Intrinsic.catalog callee.name = none)
      (hreject : profile.unknownIntrinsics = .reject) :
      Refuses m profile f (.unsupportedIntrinsic callee.name f.name b.label)
  | incoming {source target : Block} (hsource : source ∈ f.blocks) (htarget : target ∈ f.blocks)
      (hedge : target.id ∈ source.terminator.successors) {p : IR.Phi} (hp : p ∈ target.phis)
      (hnone : ∀ entry ∈ p.incoming, entry.2 ≠ source.id) :
      Refuses m profile f (.malformed (.noIncoming target.label source.label))

/-- Whatever a module may look up is there. -/
structure Setting.Complete (setting : Setting) : Prop where
  module : setting.module.WellFormed
  names : setting.names.length = setting.module.functions.length
  globals : ∀ id : GlobalId, id.index < setting.module.globals.length →
    ∃ e, Layout.Image.find? setting.globals id = some e

theorem Setting.Complete.exists_name {setting : Setting} (h : setting.Complete)
    {f : IR.Function} (hf : f ∈ setting.module.functions) :
    ∃ name, setting.names[f.id.index]? = some name := by
  obtain ⟨i, hi⟩ := List.mem_iff_getElem?.mp hf
  have hlt : i < setting.names.length := by
    rw [h.names]
    exact (List.getElem?_eq_some_iff.mp hi).1
  rw [h.module.functionIds i f hi]
  exact ⟨_, List.getElem?_eq_getElem hlt⟩

/-- The block and the opcode are those of a function. -/
structure Site.Of (f : IR.Function) (s : Site) : Prop where
  block : s.block ∈ f.blocks
  opcode : s.opcode ∈ "phi" :: s.block.opcodes

namespace Frame

/-- The failure is one that the function of the frame is refused with. -/
abbrev Refused (fr : Frame) : Failure → Prop :=
  Refuses fr.setting.module fr.setting.profile fr.function

/-- All positions are in range. -/
def Knows (fr : Frame) (rs : List Reference) : Prop :=
  ∀ r ∈ rs, r.Within fr.setting.module.globals.length fr.setting.module.functions.length
    fr.function.values.length fr.function.blocks.length

section

variable {fr : Frame}

theorem knows_append {rs rs' : List Reference} :
    fr.Knows (rs ++ rs') ↔ fr.Knows rs ∧ fr.Knows rs' := List.forall_mem_append

theorem knows_flatMap {α : Type} {refs : α → List Reference} {xs : List α} :
    fr.Knows (xs.flatMap refs) ↔ ∀ x ∈ xs, fr.Knows (refs x) := List.forall_mem_flatMap

theorem knows_function (hset : fr.setting.Complete) (hf : fr.function ∈ fr.setting.module.functions)
    (hb : b ∈ fr.function.blocks) :
    (∀ i ∈ b.instructions, fr.Knows i.op.references) ∧ fr.Knows b.terminator.references := by
  have hfunction : fr.Knows fr.function.references := (hset.module.functions _ hf).references
  obtain ⟨-, hblocks⟩ := knows_append.mp hfunction
  obtain ⟨hinstructions, hterminator⟩ := knows_append.mp (knows_flatMap.mp hblocks b hb)
  refine ⟨fun i hi => ?_, hterminator⟩
  exact (knows_append.mp (knows_flatMap.mp hinstructions i hi)).2

end

section

variable {fr : Frame} {s : Site}

theorem refuse_fails {α : Type} (hs : s.Of fr.function) (why : Obstacle) :
    FailsWith fr.Refused (fr.refuse s why : Result α) :=
  .error (.instruction hs.block hs.opcode why)

theorem layout_fails (ty : IR.Ty) : FailsWith fr.Refused (fr.layout ty) :=
  .mapError fun t _ => .type t

theorem scalar_fails (hs : s.Of fr.function) (ty : IR.Ty) :
    FailsWith fr.Refused (fr.scalar s ty) := by
  refine .bind (layout_fails ty) fun l _ => ?_
  split
  · exact .ok _
  · exact refuse_fails hs _

theorem boundaryType_fails (ty : IR.Ty) (what : String) :
    FailsWith fr.Refused (fr.boundaryType ty what) := by
  refine .bind (layout_fails ty) fun l _ => ?_
  split
  · exact .ok _
  · split
    · exact .ok _
    · exact .error (.type _)

theorem signature_fails : FailsWith fr.Refused fr.signature := by
  unfold signature
  split
  · exact .error (.type _)
  · refine .bind (boundaryType_fails _ _) fun ret _ => ?_
    refine .bind (.mapM fun p _ => ?_) fun params _ => .ok _
    exact .bind (boundaryType_fails _ _) fun ty _ => .ok _

/-! ## Operands -/

theorem constant_fails (hs : s.Of fr.function) (scalar : Scalar) (c : Constant) :
    FailsWith fr.Refused (fr.constant s scalar c) := by
  cases c with
  | int | bool | float | null | zero | undef => exact .ok _
  | array | struct | bytes | global => exact refuse_fails hs _

variable (hset : fr.setting.Complete)

include hset

theorem globalName_fails {id : GlobalId} (hid : fr.Knows [.global id]) :
    FailsWith fr.Refused (fr.globalName id) := by
  obtain ⟨e, he⟩ := hset.globals id (hid _ List.mem_cons_self)
  rw [globalName, he]
  exact .ok _

theorem operand_fails (hs : s.Of fr.function) (ty : IR.Ty) {o : Operand}
    (ho : fr.Knows o.references) : FailsWith fr.Refused (fr.operand s ty o) := by
  have hconst : ∀ c, FailsWith fr.Refused (do fr.constant s (← fr.scalar s ty) c) :=
    fun c => .bind (scalar_fails hs ty) fun scalar _ => constant_fails hs scalar c
  cases o with
  | value v => exact .ok _
  | global g => exact globalName_fails hset ho
  | const c =>
    cases c with
    | global g => exact globalName_fails hset ho
    | int | bool | float | null | zero | undef | array | struct | bytes => exact hconst _
  | function f =>
    have hf : f.index < fr.setting.module.functions.length := ho _ List.mem_cons_self
    rw [operand, List.getElem?_eq_getElem hf]
    exact refuse_fails hs _
  | metadata text => exact refuse_fails hs _

theorem operands_fails (hs : s.Of fr.function) {args : List Typed}
    (hargs : ∀ a ∈ args, fr.Knows a.2.references) :
    FailsWith fr.Refused (fr.operands s args) :=
  .mapM fun a ha => operand_fails hset hs a.1 (hargs a ha)

theorem innerOffsets_fails (hs : s.Of fr.function) {indices : List Typed}
    (hindices : ∀ a ∈ indices, fr.Knows a.2.references) (layout : Layout) (offset : Int) :
    FailsWith fr.Refused (fr.innerOffsets s layout offset indices) := by
  induction indices generalizing layout offset with
  | nil => exact .ok _
  | cons index indices ih =>
    obtain ⟨ty, index⟩ := index
    obtain ⟨hindex, hindices⟩ := List.forall_mem_cons.mp hindices
    unfold innerOffsets
    split
    · split
      · exact ih hindices _ _
      · refine .bind (operand_fails hset hs ty hindex) fun e _ => ?_
        exact .bind (ih hindices _ _) fun rest _ => .ok _
    · split
      · exact refuse_fails hs _
      · split
        · exact ih hindices _ _
        · exact refuse_fails hs _
    · exact refuse_fails hs _

theorem offsets_fails (hs : s.Of fr.function) (source : IR.Ty) {indices : List Typed}
    (hindices : ∀ a ∈ indices, fr.Knows a.2.references) :
    FailsWith fr.Refused (fr.offsets s source indices) := by
  rw [offsets_eq_innerOffsets 1]
  exact .bind (layout_fails source) fun _ _ => innerOffsets_fails hset hs hindices _ _

/-! ## Edges -/

variable (hf : fr.function ∈ fr.setting.module.functions)

include hf

theorem arrival_fails {target : Block} (hsource : source ∈ fr.function.blocks)
    (htarget : target ∈ fr.function.blocks) (hedge : target.id ∈ source.terminator.successors)
    {p : IR.Phi} (hp : p ∈ target.phis) :
    FailsWith fr.Refused (fr.arrival source target p.dest p.ty p.incoming) := by
  unfold arrival
  split
  next hnone =>
    refine .error (.incoming hsource htarget hedge hp fun entry hentry => ?_)
    simpa using List.find?_eq_none.mp hnone entry hentry
  next value _ hentry =>
    -- the phi is an instruction of its block, so what its entries refer to is in range
    obtain ⟨i, hi, hphi⟩ := List.mem_filterMap.mp hp
    have hknows := (knows_function hset hf htarget).1 i hi
    rw [(IR.Instruction.eq_of_phi? hphi).1] at hknows
    have hentries := knows_flatMap.mp hknows _ (List.mem_of_find?_eq_some hentry)
    have hvalue := (knows_append.mp hentries).1
    split
    · split
      · exact .ok _
      · exact .ok _
    · refine .bind (operand_fails hset ⟨hsource, List.mem_cons_self⟩ p.ty hvalue) fun _ _ => .ok _

theorem edge_fails (hsource : source ∈ fr.function.blocks) {target : BlockId}
    (hedge : target ∈ source.terminator.successors) :
    FailsWith fr.Refused (fr.edge source target) := by
  have hlt : target.index < fr.function.blocks.length :=
    (knows_function hset hf hsource).2 _ (IR.Terminator.block_mem_references hedge)
  have hget := List.getElem?_eq_getElem hlt
  have hid := (hset.module.functions _ hf).blockIds _ _ hget
  rw [edge, hget]
  refine .bind ?_ fun pairs _ => .ok _
  rw [arrivals_eq_mapM]
  refine .mapM fun p hp => arrival_fails hset hf hsource (List.mem_of_getElem? hget) ?_ hp
  rw [hid]
  exact hedge

/-! ## Calls -/

/-- Both successors of a call with a handler are successors of the block. -/
def Edges.Leave (edges : Edges) (b : Block) : Prop :=
  edges.normal ∈ b.terminator.successors ∧ edges.unwind ∈ b.terminator.successors

theorem matchOutcome_fails (hsource : source ∈ fr.function.blocks) (call : Call) (dest : Option Var)
    {edges : Edges} (hedges : edges.Leave source) :
    FailsWith fr.Refused (fr.matchOutcome source call dest edges) := by
  refine .bind (edge_fails hset hf hsource hedges.1) fun normal _ => ?_
  exact .bind (edge_fails hset hf hsource hedges.2) fun unwind _ => .ok _

end

section

variable {fr : Frame} {s : Site}

theorem allocationSize_fails (hs : s.Of fr.function) (size : Nat) (count : Option Operand) :
    FailsWith fr.Refused (fr.allocationSize s size count) := by
  cases count with
  | none => exact .ok _
  | some count =>
    unfold allocationSize
    dsimp only
    split
    · exact .ok _
    · exact .ok _
    · exact refuse_fails hs _

theorem checkOverload_fails (hs : s.Of fr.function) (name : String) (scalar : Scalar) (ret : IR.Ty)
    (args : List Typed) : FailsWith fr.Refused (fr.checkOverload s name scalar ret args) := by
  induction args with
  | nil =>
    unfold checkOverload
    split
    · exact refuse_fails hs _
    · refine .bind (scalar_fails hs _) fun scalar' _ => ?_
      split
      · exact .ok _
      · exact refuse_fails hs _
  | cons a args ih =>
    obtain ⟨ty, o⟩ := a
    refine .bind (scalar_fails hs ty) fun scalar' _ => ?_
    split
    · exact ih
    · exact refuse_fails hs _

theorem overload_fails (hs : s.Of fr.function) (entry : Intrinsic.Entry) (args : List Typed) :
    FailsWith fr.Refused (fr.overload s entry args) := by
  cases args with
  | nil => exact .ok _
  | cons a args =>
    obtain ⟨ty, o⟩ := a
    rw [overload]
    split
    · exact .ok _
    · exact .bind (scalar_fails hs ty) fun scalar _ => .ok _

theorem dest_fails (hs : s.Of fr.function) (result : Option ValueId) (what : String) :
    FailsWith fr.Refused (fr.dest s result what) := by
  unfold dest
  split
  · exact .ok _
  · exact refuse_fails hs _

/-- What comes behind a choice between two computations. -/
theorem ite_bind_fails {p : Prop} [Decidable p] {P : Failure → Prop} {α β γ : Type} {x : Result α}
    {f : α → β} {b : β} {k : β → Result γ} (hx : FailsWith P x) (hk : ∀ b, FailsWith P (k b)) :
    FailsWith P (if p then (do k (← pure (f (← x)))) else (do k (← pure b))) := by
  split
  · exact .bind hx fun a _ => hk (f a)
  · exact hk b

/-- What comes behind a check that is made only if there is something to check. -/
theorem match_bind_fails {P : Failure → Prop} {scalar : Option Scalar}
    {check : Scalar → Result Unit} {k : Result (List Stmt)}
    (hcheck : ∀ s, FailsWith P (check s)) (hk : FailsWith P k) :
    FailsWith P (match scalar with
      | some scalar => do check scalar; k
      | none => k) := by
  cases scalar with
  | none => exact hk
  | some scalar => exact .bind (hcheck scalar) fun _ _ => hk

variable (hset : fr.setting.Complete) (hf : fr.function ∈ fr.setting.module.functions)

include hset hf

/-- Behind a call that raises nothing. -/
theorem leave_fails (hsource : source ∈ fr.function.blocks)
    (edges : Option Edges) : (∀ e ∈ edges, e.Leave source) →
    FailsWith fr.Refused (match edges with
      | some edges => return (← fr.edge source edges.normal).map .step
      | none => return [] : Result (List Stmt)) := by
  intro hedges
  cases edges with
  | none => exact .ok _
  | some edges =>
    exact .bind (edge_fails hset hf hsource (hedges edges rfl).1) fun steps _ => .ok _

theorem intrinsic_fails (hs : s.Of fr.function) (entry : Intrinsic.Entry) (name : String)
    {site : IR.CallSite} (hargs : ∀ a ∈ site.args, fr.Knows a.2.references) (dest : Option Var)
    {edges : Option Edges} (hedges : ∀ e ∈ edges, e.Leave s.block) :
    FailsWith fr.Refused (fr.intrinsic s entry name site dest edges) := by
  have hleave := leave_fails hset hf hs.block edges hedges
  unfold intrinsic
  dsimp only
  split
  · exact hleave
  split
  · exact refuse_fails hs _
  have htyped : ∀ a ∈ site.args.take entry.arity, fr.Knows a.2.references :=
    fun a ha => hargs a (List.mem_of_mem_take ha)
  refine .bind (operands_fails hset hs htyped) fun args _ => ?_
  refine .bind (overload_fails hs entry _) fun scalar _ => ?_
  split
  · exact refuse_fails hs _
  refine match_bind_fails (fun scalar => checkOverload_fails hs name scalar _ _) ?_
  -- what the code looks like depends on the kind, and only one kind can raise
  split
  · exact .bind hleave fun rest _ => .ok _
  · exact .bind hleave fun rest _ => .ok _
  · exact .bind hleave fun rest _ => .ok _
  · cases edges with
    | none => exact .ok _
    | some edges =>
      obtain ⟨hnormal, hunwind⟩ := hedges edges rfl
      refine .bind (edge_fails hset hf hs.block hnormal) fun normal _ => ?_
      exact .bind (edge_fails hset hf hs.block hunwind) fun unwind _ => .ok _
  · exact hleave

/-- A call fails by refusal only. -/
theorem call_fails (hs : s.Of fr.function) {site : IR.CallSite} (hsite : fr.Knows site.references)
    (dest : Option Var) {edges : Option Edges} (hedges : ∀ e ∈ edges, e.Leave s.block) :
    FailsWith fr.Refused (fr.call s site dest edges) := by
  obtain ⟨hcallee, hargs⟩ := knows_append.mp hsite
  rw [knows_flatMap] at hargs
  unfold call
  split
  · exact refuse_fails hs _
  next f hdirect =>
    rw [hdirect] at hcallee
    have hlt : f.index < fr.setting.module.functions.length := hcallee _ List.mem_cons_self
    have hget := List.getElem?_eq_getElem hlt
    have hmem := List.mem_of_getElem? hget
    rw [hget]
    refine ite_bind_fails (scalar_fails hs site.ret) fun ret => ?_
    split
    next =>
      -- a function with a body, which has a name
      split
      · exact refuse_fails hs _
      · refine .bind (operands_fails hset hs hargs) fun args _ => ?_
        obtain ⟨name, hname⟩ := hset.exists_name hmem
        rw [hname]
        cases edges with
        | none => exact .ok _
        | some edges => exact matchOutcome_fails hset hf hs.block _ dest (hedges edges rfl)
    next hdeclared =>
      -- a function without one: from the catalog, or unknown
      rw [Bool.not_eq_true, Bool.not_eq_false'] at hdeclared
      split
      next entry _ => exact intrinsic_fails hset hf hs entry _ hargs dest hedges
      next hunknown =>
        split
        next hreject => exact .error (.intrinsic hs.block hmem hdeclared hunknown hreject)
        next =>
          refine .bind (operands_fails hset hs hargs) fun args _ => ?_
          cases edges with
          | none => exact .ok _
          | some edges => exact matchOutcome_fails hset hf hs.block _ dest (hedges edges rfl)

/-! ## Blocks -/

/-- An instruction fails by refusal only. -/
theorem instruction_fails (hb : b ∈ fr.function.blocks) {i : IR.Instruction}
    (hi : i ∈ b.instructions) : FailsWith fr.Refused (fr.instruction b i) := by
  have hknows := (knows_function hset hf hb).1 i hi
  have hs : Site.Of fr.function ⟨b, i.op.opcode⟩ :=
    ⟨hb, List.mem_cons_of_mem _ (List.mem_append_left _ (List.mem_map.mpr ⟨i, hi, rfl⟩))⟩
  obtain ⟨result, op⟩ := i
  -- The read module knows all its references, so what fails is named by the site.
  cases op with
  | binary op flags ty l r =>
    obtain ⟨hl, hr⟩ := knows_append.mp hknows
    refine .bind (scalar_fails hs ty) fun scalar _ => ?_
    refine .bind (operand_fails hset hs ty hl) fun l' _ => ?_
    refine .bind (operand_fails hset hs ty hr) fun r' _ => ?_
    refine .bind (dest_fails hs _ _) fun d _ => ?_
    split
    · exact .ok _
    · exact refuse_fails hs _
  | icmp pred ty l r =>
    obtain ⟨hl, hr⟩ := knows_append.mp hknows
    refine .bind (scalar_fails hs ty) fun scalar _ => ?_
    refine .bind (operand_fails hset hs ty hl) fun l' _ => ?_
    refine .bind (operand_fails hset hs ty hr) fun r' _ => ?_
    exact .bind (dest_fails hs _ _) fun d _ => .ok _
  | fcmp pred ty l r =>
    obtain ⟨hl, hr⟩ := knows_append.mp hknows
    refine .bind (scalar_fails hs ty) fun scalar _ => ?_
    split
    · exact refuse_fails hs _
    · refine .bind (operand_fails hset hs ty hl) fun l' _ => ?_
      refine .bind (operand_fails hset hs ty hr) fun r' _ => ?_
      exact .bind (dest_fails hs _ _) fun d _ => .ok _
  | fneg ty v =>
    refine .bind (scalar_fails hs ty) fun scalar _ => ?_
    split
    · exact refuse_fails hs _
    · refine .bind (operand_fails hset hs ty hknows) fun v' _ => ?_
      exact .bind (dest_fails hs _ _) fun d _ => .ok _
  | select ty cond yes no =>
    obtain ⟨hknows, hno⟩ := knows_append.mp hknows
    obtain ⟨hcond, hyes⟩ := knows_append.mp hknows
    refine .bind (scalar_fails hs ty) fun scalar _ => ?_
    refine .bind (operand_fails hset hs _ hcond) fun cond' _ => ?_
    refine .bind (operand_fails hset hs ty hyes) fun yes' _ => ?_
    refine .bind (operand_fails hset hs ty hno) fun no' _ => ?_
    exact .bind (dest_fails hs _ _) fun d _ => .ok _
  | cast op source target v =>
    refine .bind (scalar_fails hs source) fun scalar _ => ?_
    refine .bind (scalar_fails hs target) fun scalar' _ => ?_
    refine .bind (operand_fails hset hs source hknows) fun v' _ => ?_
    refine .bind (dest_fails hs _ _) fun d _ => ?_
    split
    · exact .ok _
    · exact refuse_fails hs _
  | alloca ty count align =>
    refine .bind (layout_fails ty) fun layout _ => ?_
    refine .bind (allocationSize_fails hs _ count) fun size _ => ?_
    exact .bind (dest_fails hs _ _) fun d _ => .ok _
  | load ty address =>
    refine .bind (scalar_fails hs ty) fun scalar _ => ?_
    refine .bind (operand_fails hset hs .ptr hknows) fun address' _ => ?_
    exact .bind (dest_fails hs _ _) fun d _ => .ok _
  | store ty v address =>
    obtain ⟨hv, haddress⟩ := knows_append.mp hknows
    refine .bind (scalar_fails hs ty) fun scalar _ => ?_
    refine .bind (operand_fails hset hs ty hv) fun v' _ => ?_
    exact .bind (operand_fails hset hs .ptr haddress) fun address' _ => .ok _
  | gep source base indices =>
    obtain ⟨hbase, hindices⟩ := knows_append.mp hknows
    refine .bind (operand_fails hset hs .ptr hbase) fun base' _ => ?_
    refine .bind (offsets_fails hset hs source (knows_flatMap.mp hindices)) fun offsets _ => ?_
    exact .bind (dest_fails hs _ _) fun d _ => .ok _
  | phi ty incoming => exact .ok _
  | call site => exact call_fails hset hf hs hknows _ (by simp)
  | landingpad ty cleanup clauses => exact .bind (dest_fails hs _ _) fun d _ => .ok _

/-- A terminator fails by refusal only. -/
theorem terminator_fails (hb : b ∈ fr.function.blocks) :
    FailsWith fr.Refused (fr.terminator b) := by
  have hknows := (knows_function hset hf hb).2
  have hedge : ∀ target ∈ b.terminator.successors, FailsWith fr.Refused (fr.edge b target) :=
    fun target => edge_fails hset hf hb
  have hs : Site.Of fr.function ⟨b, b.terminator.opcode⟩ :=
    ⟨hb, List.mem_cons_of_mem _ (List.mem_append_right _ List.mem_cons_self)⟩
  unfold terminator
  cases hterm : b.terminator with
  | ret v =>
    rw [hterm] at hknows hs
    cases v with
    | none => exact .ok _
    | some v =>
      refine .bind (operand_fails hset hs v.1 ?_) fun v' _ => .ok _
      exact knows_flatMap.mp hknows v (by simp)
  | br target =>
    rw [hterm] at hedge
    exact .bind (hedge target List.mem_cons_self) fun steps _ => .ok _
  | condBr cond yes no =>
    rw [hterm] at hknows hedge hs
    refine .bind (operand_fails hset hs _ (knows_append.mp hknows).1) fun cond' _ => ?_
    refine .bind (hedge yes List.mem_cons_self) fun yes' _ => ?_
    exact .bind (hedge no (List.mem_cons_of_mem _ List.mem_cons_self)) fun no' _ => .ok _
  | switch ty v default cases =>
    rw [hterm] at hknows hedge hs
    refine .bind (scalar_fails hs ty) fun scalar _ => ?_
    refine .bind (operand_fails hset hs ty (knows_append.mp hknows).1) fun v' _ => ?_
    refine .bind (.mapM fun c hc => ?_) fun cases' _ => ?_
    · have hmem : c.2 ∈ default :: cases.map Prod.snd :=
        List.mem_cons_of_mem _ (List.mem_map.mpr ⟨c, hc, rfl⟩)
      exact .bind (hedge c.2 hmem) fun steps _ => .ok _
    · exact .bind (hedge default List.mem_cons_self) fun default' _ => .ok _
  | invoke result site normal unwind =>
    have hleave : Edges.Leave ⟨normal, unwind⟩ b := by
      simp [Edges.Leave, hterm, IR.Terminator.successors]
    rw [hterm] at hknows hs
    obtain ⟨hknows, -⟩ := knows_append.mp hknows
    refine .bind (call_fails hset hf hs (knows_append.mp hknows).2 _ ?_) fun code _ => .ok _
    simpa using hleave
  | resume o =>
    cases o with
    | value | const | global | function | metadata => exact .ok _
  | unreachable => exact .ok _

theorem block_fails (hb : b ∈ fr.function.blocks) : FailsWith fr.Refused (fr.block b) := by
  refine .bind (.mapM fun i hi => instruction_fails hset hf hb hi) fun body _ => ?_
  exact .bind (terminator_fails hset hf hb) fun exit _ => .ok _

end

end Frame

theorem function_fails {setting : Setting} (hset : setting.Complete) {f : IR.Function}
    (hf : f ∈ setting.module.functions) :
    FailsWith (Refuses setting.module setting.profile f) (function setting f) := by
  obtain ⟨name, hname⟩ := hset.exists_name hf
  rw [function, hname]
  refine .bind Frame.signature_fails fun types _ => ?_
  refine .bind (.mapM fun b hb => ?_) fun blocks _ => .ok _
  exact Frame.block_fails hset hf hb

end SafeIR.Lower
