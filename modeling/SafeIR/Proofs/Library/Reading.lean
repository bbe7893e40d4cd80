import SafeIR.Library.Read
import SafeIR.Proofs.Library.Handles
import SafeIR.Proofs.Reader.WellFormed

/-!
# Reading call by call

A reader of a module knows a library by its calls alone: it opens a text, asks for one item after
the other, may reject what it gets at any point, and closes the handle at last. `readingText` is
that reader, and a `Session` what it does with a library. Its main statement,
`reading_leaves_library`, is about every library that calls can lead to, whatever else is open in
it: a reading ends as `Library.readText` does, and afterwards the same modules are open.

The reader makes queries between the two ends, and queries leave a library as it is. So its parts
are followed by what they compute (`Computes`), one equation for each, and the errors come along.
-/

namespace SafeIR

namespace Library

variable {α β : Type}

/-! ## Sessions -/

/-- A client that makes calls one after the other and looks at each answer before it goes on. -/
inductive Session (α : Type) where
  | done (a : α)
  | ask (c : Call) (next : Except Error Answer → Session α)

namespace Session

/-- One session after another. -/
def bind : Session α → (α → Session β) → Session β
  | done a, f => f a
  | ask c next, f => ask c fun answer => (next answer).bind f

instance : Monad Session where
  pure := done
  bind := bind

theorem bind_done (s : Session α) : s.bind done = s := by
  induction s with
  | done a => rfl
  | ask c next ih => exact congrArg (ask c) (funext ih)

theorem bind_assoc {γ : Type} (s : Session α) (f : α → Session β) (g : β → Session γ) :
    (s.bind f).bind g = s.bind fun a => (f a).bind g := by
  induction s with
  | done a => rfl
  | ask c next ih => exact congrArg (ask c) (funext ih)

instance : LawfulMonad Session :=
  LawfulMonad.mk' Session bind_done (fun _ _ => rfl) bind_assoc

/-- What comes out, and the library afterwards. -/
def run [Demangler] : Session α → Library → α × Library
  | done a, l => (a, l)
  | ask c next, l => (next (l.step c).1).run (l.step c).2

/-- The calls that are made. -/
def calls [Demangler] : Session α → Library → List Call
  | done _, _ => []
  | ask c next, l => c :: (next (l.step c).1).calls (l.step c).2

theorem run_bind [Demangler] (s : Session α) (f : α → Session β) (l : Library) :
    (s >>= f).run l = (f (s.run l).1).run (s.run l).2 := by
  induction s generalizing l with
  | done a => rfl
  | ask c next ih => exact ih _ _

/-- A client changes a library by its calls and by nothing else. -/
theorem run_snd [Demangler] (s : Session α) (l : Library) :
    (s.run l).2 = (l.run (s.calls l)).2 := by
  induction s generalizing l with
  | done a => rfl
  | ask c next ih => exact ih _ _

end Session

/-! ## Kinds of answers -/

end Library

namespace Answer

def done? : Answer → Option Unit
  | done => some ()
  | _ => none

def handle? : Answer → Option Handle
  | handle h => some h
  | _ => none

def count? : Answer → Option Nat
  | count n => some n
  | _ => none

def info? : Answer → Option Source.Module
  | info m => some m
  | _ => none

def types? : Answer → Option (List Source.TypeDef)
  | types ts => some ts
  | _ => none

def global? : Answer → Option Source.Global
  | global g => some g
  | _ => none

def function? : Answer → Option Source.Function
  | function f => some f
  | _ => none

def block? : Answer → Option Source.Block
  | block b => some b
  | _ => none

def instruction? : Answer → Option Source.Instruction
  | instruction i => some i
  | _ => none

def name? : Answer → Option (Option String)
  | name text => some text
  | _ => none

end Answer

namespace Library

variable {α β : Type} {fn : Source.Function} {index : Nat} {text : List UInt8}

/-! ## The reader -/

/-- Why a reader stops. -/
inductive Stop where
  | call (e : Error)
  /-- An answer to another question. -/
  | stray (a : Answer)
  | rejected (f : Failure)

/-- The failure that is reported. There is none for answers that a reader never gets. -/
def Stop.failure? : Stop → Option Failure
  | call (.invalidHandle h) => some (.invalidHandle h)
  | call (.source e) => some (.source e)
  | call (.unreadable path reason) => some (.unreadable path reason)
  | call (.outOfRange ..) | call (.unknownValue ..) | stray _ => none
  | rejected f => some f

/-- A client that may stop early. -/
abbrev Walk := ExceptT Stop Session

namespace Walk

/-- The reading ends with an error. -/
def stop (s : Stop) : Walk α := ExceptT.mk (.done (.error s))

/-- Make a call, and use the answer if it is of the right kind. -/
def ask (c : Call) (pick : Answer → Option α) : Walk α := ExceptT.mk (.ask c fun
  | .error e => .done (.error (.call e))
  | .ok a => .done (match pick a with
    | some b => .ok b
    | none => .error (.stray a)))

/-- Go on with the result of a check. -/
def accept (x : Except Failure α) : Walk α := ExceptT.mk (.done (x.mapError .rejected))

/-- Close a handle after a walk, also after one that stopped. -/
def closing (h : Handle) (w : Walk α) : Walk α := ExceptT.mk do
  let result ← w.run
  let closed ← (ask (.close h) Answer.done?).run
  return do
    let a ← result
    closed
    return a

end Walk

open Walk

section

variable (h : Handle)

/-- The blocks of a function from one on. Labels are compared as they come. -/
def walkBlocks (f : Nat) (place : Place) : List String → Nat → Nat → Walk (List Source.Block)
  | _, _, 0 => return []
  | seen, i, left + 1 => do
    let b ← ask (.query h (.block f i)) Answer.block?
    if seen.contains b.label then stop (.rejected (.malformed (.labelTwice b.label place)))
    else
      let instructions ← (List.range b.instructions.length).mapM fun j =>
        ask (.query h (.instruction f i j)) Answer.instruction?
      return { b with instructions } :: (← walkBlocks f place (seen ++ [b.label]) (i + 1) left)

/-- A function, of which all but the blocks is known. -/
def walkFunction (types : IR.TypeTable) (globals functions : List String) (index : Nat)
    (f : Source.Function) : Walk IR.Function := do
  let place := .function f.name
  let demangled ← ask (.query h (.demangledName index)) Answer.name?
  let ret ← accept (types.resolve place f.returnType)
  let values ← accept (f.params.foldlM (fun values (p : Source.Param) => do
    IR.define place values p.name (← types.resolve place p.ty)) [])
  let function : IR.Function :=
    { id := ⟨index⟩, name := f.name, demangled
      params := (List.range f.params.length).map IR.ValueId.mk, ret, varargs := f.varargs
      isDeclaration := f.isDeclaration, values, blocks := [] }
  if f.isDeclaration then return function
  else
    let bodies ← walkBlocks h index place [] 0 f.blocks.length
    let values ← accept (bodies.foldlM (fun values b =>
      b.instructions.foldlM (IR.defineResult types place b.label) values) values)
    let scope : IR.Scope :=
      { place, types, globals, functions, labels := bodies.map Source.Block.label
        values := values.map IR.ValueInfo.name }
    let blocks ← accept (bodies.zipIdx.mapM fun b => scope.block b.2 b.1)
    return { function with values, blocks }

/-- The whole module. -/
def walkModule : Walk IR.Module := do
  let info ← ask (.query h .info) Answer.info?
  let types ← ask (.query h .types) Answer.types?
  let globals ← (List.range (← ask (.query h .globalCount) Answer.count?)).mapM fun i =>
    ask (.query h (.global i)) Answer.global?
  let functions ← (List.range (← ask (.query h .functionCount) Answer.count?)).mapM fun i =>
    ask (.query h (.function i)) Answer.function?
  let globalNames := globals.map Source.Global.name
  let functionNames := functions.map Source.Function.name
  accept (IR.checkSymbols [] (globalNames ++ functionNames))
  let resolved ← accept (globals.zipIdx.mapM fun g =>
    IR.Global.ofSource ⟨types⟩ globalNames functionNames g.2 g.1)
  let bodies ← functions.zipIdx.mapM fun f =>
    walkFunction h ⟨types⟩ globalNames functionNames f.2 f.1
  return { sourceFilename := info.sourceFilename, globals := resolved, functions := bodies }

end

/-- The handle of a text that is opened. -/
def openingText (text : List UInt8) : Walk Handle :=
  ask (.openText text) Answer.handle?

/-- Open a text, read it and close it. -/
def readingText (text : List UInt8) : Walk IR.Module := do
  let h ← openingText text
  closing h (walkModule h)

/-- Open a text, read it and keep it open. -/
def keepingText (text : List UInt8) : Walk IR.Module := do
  walkModule (← openingText text)

/-! ## What queries compute -/

variable {l : Library}

theorem Walk.run_ask [Demangler] {l' : Library} {c : Call} {pick : Answer → Option α} {a : Answer}
    {b : α} (hstep : l.step c = (.ok a, l')) (hb : pick a = some b) :
    (ask c pick).run.run l = (.ok b, l') := by
  show Session.run (.ask c _) l = _
  rw [Session.run, hstep]
  simp only
  rw [hb]
  rfl

/-- A walk comes to a result and leaves the library as it was. -/
def Computes [Demangler] (l : Library) (w : Walk α) (x : Except Stop α) : Prop :=
  w.run.run l = (x, l)

namespace Computes

variable [Demangler] {w : Walk α} {x : Except Stop α} {f : α → Walk β}

theorem pure (a : α) : Computes l (pure a) (.ok a) := rfl

theorem stop (s : Stop) : Computes l (stop s : Walk α) (.error s) := rfl

theorem accept (x : Except Failure α) : Computes l (accept x) (x.mapError .rejected) := rfl

/-- The second part matters only behind a result of the first. -/
theorem bind {g : α → Except Stop β} (hw : Computes l w x)
    (hf : ∀ a, x = .ok a → Computes l (f a) (g a)) : Computes l (w >>= f) (x >>= g) := by
  unfold Computes at hw ⊢
  rw [ExceptT.run_bind, Session.run_bind, hw]
  cases x with
  | error s => rfl
  | ok a => exact hf a rfl

theorem mapM {g : α → Except Stop β} {as : List α} (h : ∀ a ∈ as, Computes l (f a) (g a)) :
    Computes l (as.mapM f) (as.mapM g) := by
  induction as with
  | nil => exact pure []
  | cons a as ih =>
    rw [List.mapM_cons, List.mapM_cons]
    refine bind (h a List.mem_cons_self) fun b _ => ?_
    exact bind (ih fun a' ha' => h a' (List.mem_cons_of_mem a ha')) fun bs _ => pure (b :: bs)

theorem andThen {a : α} {y : Except Stop β} (hw : Computes l w (.ok a)) (hf : Computes l (f a) y) :
    Computes l (w >>= f) y := by
  refine bind (g := fun _ => y) hw fun b hb => ?_
  cases hb
  exact hf

/-- Items that are asked for one by one are all there are. -/
theorem items {f : Nat → Walk α} (xs : List α)
    (h : ∀ (i : Nat) (x : α), xs[i]? = some x → Computes l (f i) (.ok x)) :
    Computes l ((List.range xs.length).mapM f) (.ok xs) := by
  have hfrom : ∀ (xs : List α) (start : Nat),
      (∀ (i : Nat) (x : α), xs[i]? = some x → Computes l (f (start + i)) (.ok x)) →
      Computes l ((List.range' start xs.length).mapM f) (.ok xs) := by
    intro xs
    induction xs with
    | nil =>
      intro start _
      exact pure []
    | cons x xs ih =>
      intro start h
      rw [List.length_cons, List.range'_succ, List.mapM_cons]
      refine andThen (h 0 x rfl) (andThen (ih (start + 1) fun i y hy => ?_) (pure _))
      rw [Nat.add_assoc, Nat.add_comm 1 i]
      exact h (i + 1) y hy
  rw [List.range_eq_range']
  refine hfrom xs 0 fun i x hx => ?_
  rw [Nat.zero_add]
  exact h i x hx

/-- A query about an open module. -/
theorem query {h : Handle} {m : Source.Module} {q : Query} {a : Answer} {pick : Answer → Option α}
    {b : α} (hfind : l.find? h = some m) (ha : q.answer m = .ok a) (hb : pick a = some b) :
    Computes l (ask (.query h q) pick) (.ok b) := by
  have hstep : l.step (.query h q) = (.ok a, l) := by
    rw [step, Library.query, module_of_some hfind]
    exact congrArg (·, l) ha
  exact run_ask hstep hb

end Computes

/-! ## The reader computes what the module resolves to -/

theorem blockAt_of_some {m : Source.Module} {i : Nat} {b : Source.Block}
    (hfn : m.functions[index]? = some fn) (hb : fn.blocks[i]? = some b) :
    Query.blockAt m index i = .ok b := by
  rw [Query.blockAt, Query.functionAt, item_of_some hfn, ok_bind, item_of_some hb]

section

variable [Demangler] {h : Handle} {m : Source.Module}

theorem computes_instructions (hfind : l.find? h = some m) {f i : Nat} {b : Source.Block}
    (hb : Query.blockAt m f i = .ok b) :
    Computes l ((List.range b.instructions.length).mapM fun j =>
      ask (.query h (.instruction f i j)) Answer.instruction?) (.ok b.instructions) := by
  refine .items b.instructions fun j instruction hj => ?_
  have hask : (Query.instruction f i j).answer m = .ok (.instruction instruction) := by
    rw [Query.answer, Query.instructionAt, hb, ok_bind, item_of_some hj]
    rfl
  exact .query hfind hask rfl

/-- The labels are compared while the blocks come in, and the first that comes twice is reported
before the blocks behind it are asked for. -/
theorem computes_walkBlocks (hfind : l.find? h = some m) (hfn : m.functions[index]? = some fn)
    (place : Place) (bs : List Source.Block) (seen : List String) (start : Nat)
    (hbs : ∀ (k : Nat) (b : Source.Block), bs[k]? = some b → fn.blocks[start + k]? = some b) :
    Computes l (walkBlocks h index place seen start bs.length)
      (((IR.labels place seen bs).map fun _ => bs).mapError .rejected) := by
  induction bs generalizing seen start with
  | nil => exact .pure []
  | cons b bs ih =>
    have hb : Query.blockAt m index start = .ok b := blockAt_of_some hfn (hbs 0 b rfl)
    have hask : (Query.block index start).answer m = .ok (.block b) := by
      rw [Query.answer, hb]
      rfl
    refine .andThen (.query hfind hask rfl) ?_
    rw [IR.labels]
    by_cases hseen : seen.contains b.label = true
    · rw [if_pos hseen, if_pos hseen]
      exact .stop _
    · rw [if_neg hseen, if_neg hseen]
      refine .andThen (computes_instructions hfind hb) ?_
      have hrest := ih (seen ++ [b.label]) (start + 1) fun k b' hb' => by
        rw [Nat.add_assoc, Nat.add_comm 1 k]
        exact hbs (k + 1) b' hb'
      have hcons (x : Except Failure (List String)) :
          (x.map fun _ => b :: bs).mapError Stop.rejected
            = (x.map fun _ => bs).mapError Stop.rejected >>= fun rest => .ok (b :: rest) := by
        cases x <;> rfl
      rw [hcons]
      exact hrest.bind fun rest _ => .pure _

/-- The walk over a function computes the function. -/
theorem computes_walkFunction (hfind : l.find? h = some m) (hfn : m.functions[index]? = some fn)
    (types : IR.TypeTable) (globals functions : List String) :
    Computes l (walkFunction h types globals functions index fn)
      ((IR.Function.ofSource types globals functions index fn).mapError .rejected) := by
  have hname : (Query.demangledName index).answer m = .ok (.name (Demangler.demangle fn.name)) := by
    rw [Query.answer, Query.functionAt, item_of_some hfn]
    rfl
  refine .andThen (.query hfind hname rfl) ?_
  unfold IR.Function.ofSource
  simp only [mapError_bind]
  refine .bind (.accept _) fun ret _ => ?_
  refine .bind (.accept _) fun values _ => ?_
  by_cases hdecl : fn.isDeclaration = true
  · rw [if_pos hdecl, if_pos hdecl]
    exact .pure _
  · rw [if_neg hdecl, if_neg hdecl]
    have hblocks := computes_walkBlocks hfind hfn (.function fn.name) fn.blocks [] 0
      fun k b hb => by rwa [Nat.zero_add]
    cases hlabels : IR.labels (.function fn.name) [] fn.blocks with
    | error f =>
      rw [hlabels] at hblocks
      refine hblocks.bind (g := fun _ => .error (.rejected f)) fun bodies hbodies => ?_
      cases hbodies
    | ok labels =>
      rw [hlabels] at hblocks
      obtain ⟨rfl, -⟩ := IR.labels_spec hlabels
      refine .andThen hblocks ?_
      simp only [ok_bind, mapError_bind, List.nil_append]
      exact .bind (.accept _) fun values _ => .bind (.accept _) fun blocks _ => .pure _

/-- The walk over a module computes the module. -/
theorem computes_walkModule (hfind : l.find? h = some m) :
    Computes l (walkModule h) ((IR.Module.ofSource m).mapError .rejected) := by
  have hglobals : Computes l ((List.range m.globals.length).mapM fun i =>
      ask (.query h (.global i)) Answer.global?) (.ok m.globals) := by
    refine .items m.globals fun i g hg => ?_
    have hask : (Query.global i).answer m = .ok (.global g) := by
      rw [Query.answer, Query.globalAt, item_of_some hg]
      rfl
    exact .query hfind hask rfl
  have hfunctions : Computes l ((List.range m.functions.length).mapM fun i =>
      ask (.query h (.function i)) Answer.function?) (.ok m.functions) := by
    refine .items m.functions fun i f hf => ?_
    have hask : (Query.function i).answer m = .ok (.function f) := by
      rw [Query.answer, Query.functionAt, item_of_some hf]
      rfl
    exact .query hfind hask rfl
  refine .andThen (.query hfind rfl rfl) (.andThen (.query hfind rfl rfl) ?_)
  refine .andThen (.query hfind rfl rfl) (.andThen hglobals ?_)
  refine .andThen (.query hfind rfl rfl) (.andThen hfunctions ?_)
  unfold IR.Module.ofSource
  simp only [mapError_bind]
  refine .bind (.accept _) fun _ _ => .bind (.accept _) fun globals _ => ?_
  rw [← mapM_mapError]
  refine .bind (.mapM fun f hf => ?_) fun functions _ => .pure _
  exact computes_walkFunction hfind (List.mem_zipIdx_iff_getElem?.mp hf) _ _ _

end

/-! ## Opening and closing -/

theorem find?_inserted (l : Library) (m : Source.Module) :
    (l.insert m).2.find? ⟨l.next⟩ = some m := by
  rw [find?_insert, if_pos rfl]

section

variable [Demangler] {h : Handle} {m : Source.Module}

/-- The handle is closed whatever came before, and what came before is the result. -/
theorem run_closing {w : Walk α} {x : Except Stop α} (hfind : l.find? h = some m)
    (hw : Computes l w x) : (closing h w).run.run l = (x, l.erase h) := by
  have hstep : l.step (.close h) = (.ok .done, l.erase h) := by
    rw [step, close, module_of_some hfind]
    rfl
  have hclose : (ask (.close h) Answer.done?).run.run l = (.ok (), l.erase h) := run_ask hstep rfl
  unfold Computes at hw
  rw [closing, ExceptT.run_mk, Session.run_bind, hw, Session.run_bind, hclose]
  cases x <;> rfl

/-- A text that is a module is opened under the next handle. -/
theorem run_openingText_bind (hparse : Source.Module.parse text = .ok m) (f : Handle → Walk α) :
    (openingText text >>= f).run.run l = (f ⟨l.next⟩).run.run (l.insert m).2 := by
  have hstep : l.step (.openText text) = (.ok (.handle ⟨l.next⟩), (l.insert m).2) := by
    rw [step, openText, hparse]
    rfl
  have hopen : (openingText text).run.run l = (.ok ⟨l.next⟩, (l.insert m).2) := run_ask hstep rfl
  rw [ExceptT.run_bind, Session.run_bind, hopen]

theorem run_openingText_error {e : Source.Error} (hparse : Source.Module.parse text = .error e)
    (f : Handle → Walk α) :
    (openingText text >>= f).run.run l = (.error (.call (.source e)), l) := by
  have hstep : l.step (.openText text) = (.error (.source e), l) := by
    rw [step, openText, hparse]
    rfl
  have hopen : (openingText text).run.run l = (.error (.call (.source e)), l) := by
    show Session.run (.ask (.openText text) _) l = _
    rw [Session.run, hstep]
    rfl
  rw [ExceptT.run_bind, Session.run_bind, hopen]
  rfl

theorem read_inserted (l : Library) (m : Source.Module) :
    (l.insert m).2.read ⟨l.next⟩ = IR.Module.ofSource m := by
  rw [read, find?_inserted]

theorem readText_of_ok (hparse : Source.Module.parse text = .ok m) :
    l.readText text = (IR.Module.ofSource m, (l.insert m).2.erase ⟨l.next⟩) := by
  rw [readText, hparse, ← read_inserted l m]
  rfl

theorem readText_of_error {e : Source.Error} (hparse : Source.Module.parse text = .error e) :
    l.readText text = (.error (.source e), l) := by
  rw [readText, hparse]

/-- The result is that of reading the opened text, or the reason why it cannot be opened. -/
theorem readText_result (l : Library) (text : List UInt8) :
    (∀ h opened, l.openText text = .ok (h, opened) → (l.readText text).1 = opened.read h) ∧
      ∀ e, l.openText text = .error e →
        (l.readText text).1.mapError some = .error (Stop.failure? (.call e)) := by
  cases hparse : Source.Module.parse text with
  | error e =>
    have hopen : l.openText text = .error (.source e) := by rw [openText, hparse]
    rw [readText_of_error hparse, hopen]
    constructor
    · intro h opened heq
      cases heq
    · intro e' heq
      cases heq
      rfl
  | ok m =>
    have hopen : l.openText text = .ok (l.insert m) := by rw [openText, hparse]
    rw [readText_of_ok hparse, hopen]
    constructor
    · intro h opened heq
      cases heq
      exact (read_inserted l m).symm
    · intro e heq
      cases heq

/-- A reading ends as the library says, with the failure that is reported. -/
theorem run_readingText (l : Library) (text : List UInt8) :
    ((readingText text).run.run l).1.mapError Stop.failure?
        = (l.readText text).1.mapError some ∧
      ((readingText text).run.run l).2 = (l.readText text).2 := by
  unfold readingText
  cases hparse : Source.Module.parse text with
  | error e =>
    rw [run_openingText_error hparse, readText_of_error hparse]
    exact ⟨rfl, rfl⟩
  | ok m =>
    have hfind := find?_inserted l m
    rw [run_openingText_bind hparse, run_closing hfind (computes_walkModule hfind),
      readText_of_ok hparse]
    refine ⟨?_, rfl⟩
    cases IR.Module.ofSource m <;> rfl

/-- To keep the module open makes no difference to the result. -/
theorem run_keepingText (l : Library) (text : List UInt8) :
    ((keepingText text).run.run l).1 = ((readingText text).run.run l).1 := by
  unfold readingText keepingText
  cases hparse : Source.Module.parse text with
  | error e => rw [run_openingText_error hparse, run_openingText_error hparse]
  | ok m =>
    have hfind := find?_inserted l m
    have hwalk := computes_walkModule hfind
    rw [run_openingText_bind hparse, run_openingText_bind hparse, run_closing hfind hwalk, hwalk]

end

/-! ## Libraries that calls lead to -/

/-- The next handle leads nowhere yet. -/
theorem Agrees.find?_next {past : List Event} (h : Agrees past l) : l.find? ⟨l.next⟩ = none := by
  cases hfind : l.find? ⟨l.next⟩ with
  | none => rfl
  | some m =>
    obtain ⟨text, hopen, -⟩ := (h.openWith _ m).mp hfind
    exact absurd (h.above _ text hopen) (Nat.lt_irrefl _)

/-- What was opened last is closed: the handle is gone for good, and nothing else has changed. -/
theorem erase_insert (hnext : l.find? ⟨l.next⟩ = none) (m : Source.Module) :
    (l.insert m).2.erase ⟨l.next⟩ = { l with next := l.next + 1 } := by
  have hkeys : ∀ entry ∈ l.modules, decide (entry.1 ≠ ⟨l.next⟩) = true := by
    intro entry hentry
    have hne : (⟨l.next⟩ != entry.1) = true := List.lookup_eq_none_iff.mp hnext entry hentry
    exact decide_eq_true (bne_iff_ne.mp hne).symm
  show Library.mk (((⟨l.next⟩, m) :: l.modules).filter (·.1 ≠ ⟨l.next⟩)) (l.next + 1) = _
  rw [List.filter_cons_of_neg (by simp), List.filter_eq_self.mpr hkeys]

theorem readText_leaves [Demangler] (hnext : l.find? ⟨l.next⟩ = none) (text : List UInt8) :
    (l.readText text).2.modules = l.modules ∧
      (l.readText text).2.next
        = if (Source.Module.parse text).isOk then l.next + 1 else l.next := by
  cases hparse : Source.Module.parse text with
  | error e =>
    rw [readText_of_error hparse]
    exact ⟨rfl, rfl⟩
  | ok m =>
    rw [readText_of_ok hparse, erase_insert hnext]
    exact ⟨rfl, rfl⟩

/-- **Reading leaves no handle behind**. A library got where it is by calls, with whatever modules
open, and a text of any bytes is read. The same modules are open afterwards under the same handles,
and one number is used up if the text is a module. The result is that of opening the text and
reading the handle without closing it. All this is so call by call: the reader that opens, asks,
may stop anywhere and closes comes to the same result and the same library, and leaves it where
calls lead. -/
theorem reading_leaves_library [Demangler] (calls : List Call) (text : List UInt8) :
    let l := (Library.run {} calls).2
    let result := (l.readText text).1
    let after := (l.readText text).2
    after.modules = l.modules ∧
    after.next = (if (Source.Module.parse text).isOk then l.next + 1 else l.next) ∧
    (∀ h opened, l.openText text = .ok (h, opened) → result = opened.read h) ∧
    (∀ e, l.openText text = .error e →
      result.mapError some = .error (Stop.failure? (.call e))) ∧
    ((readingText text).run.run l).1.mapError Stop.failure? = result.mapError some ∧
    ((keepingText text).run.run l).1 = ((readingText text).run.run l).1 ∧
    ((readingText text).run.run l).2 = after ∧
    ∃ later, after = (Library.run {} (calls ++ later)).2 := by
  intro l result after
  have hnext : l.find? ⟨l.next⟩ = none := (agrees_run calls).find?_next
  obtain ⟨hmodules, hnumber⟩ := readText_leaves hnext text
  obtain ⟨hread, hfailed⟩ := readText_result l text
  obtain ⟨hresult, hafter⟩ := run_readingText l text
  refine ⟨hmodules, hnumber, hread, hfailed, hresult, run_keepingText l text, hafter,
    (readingText text).run.calls l, ?_⟩
  rw [run_snd_append, ← Session.run_snd]
  exact hafter.symm

/-- A global of a type that is defined nowhere. -/
def strayType : List UInt8 := "@x = external global %T".toUTF8.toList

/-- The text is a module and the reader rejects it; a module that was open before stays open. -/
theorem reading_leaves_library_of_stray_type :
    let l := (Library.run {} [.openText []]).2
    l.modules.length = 1 ∧ (l.readText strayType).1.isOk = false ∧
      (l.readText strayType).2.modules = l.modules ∧ (l.readText strayType).2.next = 3 := by
  intro l
  obtain ⟨hmodules, hnext, -⟩ := reading_leaves_library [.openText []] strayType
  have hparse : (Source.Module.parse strayType).isOk = true := by decide +kernel
  rw [hparse] at hnext
  exact ⟨rfl, by decide +kernel, hmodules, hnext⟩

end Library

end SafeIR
