import Mathlib.Data.List.Forall2
import Mathlib.Data.List.Lex
import Mathlib.Logic.Relation
import SafeIR.IR.Resolve
import SafeIR.Proofs.Result

/-!
# Expansion of named types

What it means to expand the names in a type, said without the budget of `TypeTable.expand`, and that
`TypeTable.resolve` does it.

A table gives every type its `parts`; those of a name are the type that it stands for. Repeated
steps to a part are the paths through the expansion of a type, which has no end if a name contains
itself. `Runs` is the walk through it that keeps the open names on a stack: they are pushed and
popped, and a call that fails leaves through every call around it. `call_induction` is why each
walk ends: inside of a type the types get smaller, and at a name one name less is left to be opened.

The main theorem says that `resolve` gives the result of the walk, that every call of a walk leaves
the stack as it was, which types have an expansion, what that is, and which fault is reported for
the others: the one on the first path, from left to right and from the outside inward.
-/

namespace SafeIR.IR

variable {name : String} {d : Source.TypeDef} {e : Failure} {names : List String} {α : Type}
  {t : TypeTable} {r : Result α}

/-- The resolved form of a type that has no parts. -/
def plain? : Source.Ty → Option Ty
  | .void => some .void
  | .int bits => some (.int bits)
  | .half => some .half
  | .float => some .float
  | .double => some .double
  | .x86Fp80 => some .x86Fp80
  | .fp128 => some .fp128
  | .ptr => some .ptr
  | .label => some .label
  | .metadata => some .metadata
  | _ => none

namespace TypeTable

/-! ## Paths through a type -/

/-- The types that a type is made of. A name is made of the type that it stands for. -/
def parts (t : TypeTable) : Source.Ty → List Source.Ty
  | .array _ elem | .vector _ elem => [elem]
  | .struct _ fields => fields
  | .function ret params _ => ret :: params
  | .named name => ((t.find? name).bind Source.TypeDef.body).toList
  | _ => []

/-- The names that are open in the parts of a type, where `names` are open around it. -/
def opened (names : List String) : Source.Ty → List String
  | .named name => name :: names
  | _ => names

/-- What is wrong with a type itself, where `names` are open around it. -/
def fault? (t : TypeTable) (place : Place) (names : List String) : Source.Ty → Option Failure
  | .vector len elem =>
    some (.unsupportedConstruct (.vectorType (Source.Ty.vector len elem).text) place)
  | .named name =>
    if name ∈ names then some (.unsupportedConstruct (.recursiveType name) place)
    else match t.find? name with
      | none => some (.malformed (.unknownType name place))
      | some ⟨_, none⟩ => some (.unsupportedConstruct (.opaqueType name) place)
      | some ⟨_, some _⟩ => none
  | _ => none

/-- What is wrong at the end of a path into a type, which says the number of a part at each step. -/
def faultAt (t : TypeTable) (place : Place) :
    (names : List String) → Source.Ty → (path : List Nat) → Option Failure
  | names, ty, [] => t.fault? place names ty
  | names, ty, i :: path =>
    (t.parts ty)[i]?.bind fun part => faultAt t place (opened names ty) part path

/-- A type has another as a part. -/
def HasPart (t : TypeTable) (ty part : Source.Ty) : Prop := part ∈ t.parts ty

/-- A type is come to from another by expanding names. -/
def Reaches (t : TypeTable) : Source.Ty → Source.Ty → Prop := Relation.ReflTransGen t.HasPart

/-- A name is come to again inside of the type that it stands for. -/
def ContainsItself (t : TypeTable) (name : String) : Prop :=
  Relation.TransGen t.HasPart (.named name) (.named name)

/-- A type that stands in the way of every expansion. -/
inductive Defect (t : TypeTable) : Source.Ty → Prop where
  | vector {len : Nat} {elem : Source.Ty} : Defect t (.vector len elem)
  | unknown {name : String} (h : t.find? name = none) : Defect t (.named name)
  | undefined {name : String} {d : Source.TypeDef} (hfind : t.find? name = some d)
      (hbody : d.body = none) : Defect t (.named name)
  | itself {name : String} (h : t.ContainsItself name) : Defect t (.named name)

/-- The second type is the first with every name replaced by the expansion of what it stands for,
and everything else unchanged. -/
inductive Expands (t : TypeTable) : Source.Ty → Ty → Prop where
  | plain {ty : Source.Ty} {u : Ty} (h : plain? ty = some u) : Expands t ty u
  | array {len : Nat} {elem : Source.Ty} {u : Ty} (h : Expands t elem u) :
      Expands t (.array len elem) (.array len u)
  | struct {packed : Bool} {fields : List Source.Ty} {us : List Ty}
      (h : List.Forall₂ (Expands t) fields us) :
      Expands t (.struct packed fields) (.struct packed us)
  | function {ret : Source.Ty} {params : List Source.Ty} {varargs : Bool} {u : Ty} {us : List Ty}
      (hret : Expands t ret u) (hparams : List.Forall₂ (Expands t) params us) :
      Expands t (.function ret params varargs) (.function u us varargs)
  | named {name : String} {d : Source.TypeDef} {body : Source.Ty} {u : Ty}
      (hfind : t.find? name = some d) (hbody : d.body = some body) (h : Expands t body u) :
      Expands t (.named name) u

/-! ## The walk with a stack -/

mutual

/-- A call on a type, with the stack of the open names before it and after it. -/
inductive Runs (t : TypeTable) (place : Place) :
    Source.Ty → List String → Result Ty → List String → Prop where
  | plain {ty : Source.Ty} {u : Ty} {stack : List String} (h : plain? ty = some u) :
      Runs t place ty stack (.ok u) stack
  | vector {len : Nat} {elem : Source.Ty} {stack : List String} :
      Runs t place (.vector len elem) stack
        (.error (.unsupportedConstruct (.vectorType (Source.Ty.vector len elem).text) place)) stack
  | array {len : Nat} {elem : Source.Ty} {stack stack' : List String} {r : Result Ty}
      (h : Runs t place elem stack r stack') :
      Runs t place (.array len elem) stack (r.map (.array len)) stack'
  | struct {packed : Bool} {fields : List Source.Ty} {stack stack' : List String}
      {r : Result (List Ty)} (h : RunsAll t place fields stack r stack') :
      Runs t place (.struct packed fields) stack (r.map (.struct packed)) stack'
  | function {ret : Source.Ty} {params : List Source.Ty} {varargs : Bool}
      {stack mid stack' : List String} {u : Ty} {r : Result (List Ty)}
      (hret : Runs t place ret stack (.ok u) mid) (hparams : RunsAll t place params mid r stack') :
      Runs t place (.function ret params varargs) stack (r.map (.function u · varargs)) stack'
  | functionFails {ret : Source.Ty} {params : List Source.Ty} {varargs : Bool}
      {stack stack' : List String} {e : Failure} (hret : Runs t place ret stack (.error e) stack') :
      Runs t place (.function ret params varargs) stack (.error e) stack'
  | again {name : String} {stack : List String} (hopen : name ∈ stack) :
      Runs t place (.named name) stack
        (.error (.unsupportedConstruct (.recursiveType name) place)) stack
  | unknown {name : String} {stack : List String} (hnew : name ∉ stack)
      (hfind : t.find? name = none) :
      Runs t place (.named name) stack (.error (.malformed (.unknownType name place))) stack
  | undefined {name : String} {d : Source.TypeDef} {stack : List String} (hnew : name ∉ stack)
      (hfind : t.find? name = some d) (hbody : d.body = none) :
      Runs t place (.named name) stack
        (.error (.unsupportedConstruct (.opaqueType name) place)) stack
  /-- The name is pushed and what is then on top of the stack is popped, however the call ends. -/
  | named {name : String} {d : Source.TypeDef} {body : Source.Ty} {stack stack' : List String}
      {r : Result Ty} (hnew : name ∉ stack) (hfind : t.find? name = some d)
      (hbody : d.body = some body) (h : Runs t place body (name :: stack) r stack') :
      Runs t place (.named name) stack r stack'.tail

/-- Calls on several types, one after the other, up to the first that fails. -/
inductive RunsAll (t : TypeTable) (place : Place) :
    List Source.Ty → List String → Result (List Ty) → List String → Prop where
  | nil {stack : List String} : RunsAll t place [] stack (.ok []) stack
  | fails {ty : Source.Ty} {tys : List Source.Ty} {stack stack' : List String} {e : Failure}
      (h : Runs t place ty stack (.error e) stack') :
      RunsAll t place (ty :: tys) stack (.error e) stack'
  | cons {ty : Source.Ty} {tys : List Source.Ty} {stack mid stack' : List String} {u : Ty}
      {r : Result (List Ty)} (h : Runs t place ty stack (.ok u) mid)
      (hs : RunsAll t place tys mid r stack') :
      RunsAll t place (ty :: tys) stack (r.map (u :: ·)) stack'

end

/-! ## Why the walk ends -/

/-- How many names may still be opened. -/
def unopened (t : TypeTable) (stack : List String) : Nat :=
  (t.defs.filter fun d => d.name ∉ stack).length

theorem name_of_find? (h : t.find? name = some d) : d ∈ t.defs ∧ d.name = name :=
  ⟨List.mem_reverse.mp (List.mem_of_find?_eq_some h), by simpa using List.find?_some h⟩

/-- Opening a name of the table leaves fewer. -/
theorem unopened_lt {stack : List String} (hnew : name ∉ stack) (h : t.find? name = some d) :
    t.unopened (name :: stack) < t.unopened stack := by
  obtain ⟨hmem, hname⟩ := name_of_find? h
  have hsub : (t.defs.filter fun d => d.name ∉ name :: stack)
      = (t.defs.filter fun d => d.name ∉ stack).filter fun d => d.name ≠ name := by
    rw [List.filter_filter]
    refine List.filter_congr fun x _ => ?_
    by_cases hx : x.name = name <;> simp [hx]
  rw [unopened, unopened, hsub]
  refine List.length_filter_lt_length_iff_exists.mpr ⟨d, ?_, by simpa using hname⟩
  exact List.mem_filter.mpr ⟨hmem, by simpa [hname] using hnew⟩

/-- A part that is no body of a name is smaller than the type. -/
theorem sizeOf_lt_of_hasPart {ty part : Source.Ty} (h : t.HasPart ty part)
    (hname : ∀ name, ty ≠ .named name) : sizeOf part < sizeOf ty := by
  cases ty with
  | named name => exact absurd rfl (hname name)
  | array len elem | vector len elem =>
    obtain rfl := List.mem_singleton.mp h
    simp only [Source.Ty.array.sizeOf_spec, Source.Ty.vector.sizeOf_spec]
    omega
  | struct packed fields =>
    have hlt : sizeOf part < sizeOf fields := List.sizeOf_lt_of_mem h
    simp only [Source.Ty.struct.sizeOf_spec]
    omega
  | function ret params varargs =>
    simp only [Source.Ty.function.sizeOf_spec]
    rcases List.mem_cons.mp h with rfl | h
    · omega
    · have hlt : sizeOf part < sizeOf params := List.sizeOf_lt_of_mem h
      omega
  | _ => cases h

/-- The induction over the calls of a walk: a call on a type only makes calls on its parts, and none
if the type is a name that is open. -/
theorem call_induction (t : TypeTable) {P : List String → Source.Ty → Prop}
    (step : ∀ stack ty, (∀ part, t.HasPart ty part → (∀ name ∈ stack, ty ≠ .named name) →
      P (opened stack ty) part) → P stack ty) (stack : List String) (ty : Source.Ty) :
    P stack ty := by
  -- Lexicographic: the names that are left, then the size of the type.
  refine step stack ty fun part hpart hnew => ?_
  by_cases hname : ∃ name, ty = .named name
  · obtain ⟨name, rfl⟩ := hname
    have hfind : ∃ d, t.find? name = some d := by
      cases hd : t.find? name with
      | none => simp [HasPart, parts, hd] at hpart
      | some d => exact ⟨d, rfl⟩
    have := unopened_lt (fun h => hnew name h rfl) hfind.choose_spec
    exact call_induction t step (name :: stack) part
  · have hopened : opened stack ty = stack := by
      cases ty with
      | named name => exact absurd ⟨name, rfl⟩ hname
      | _ => rfl
    have := sizeOf_lt_of_hasPart hpart fun name h => hname ⟨name, h⟩
    rw [hopened]
    exact call_induction t step stack part
termination_by (t.unopened stack, sizeOf ty)

/-! ## The equations of the walk -/

/-- The resolution of a type while the names on a stack are open. -/
def resolveIn (t : TypeTable) (place : Place) (stack : List String) (ty : Source.Ty) : Result Ty :=
  resolveWith place (t.expand place t.defs.length stack) ty

section

variable {place : Place} {stack : List String}

/-- A budget that suffices for the names that are left is as good as any other. -/
theorem expand_eq_expand {budget more : Nat} (h : t.unopened stack ≤ budget)
    (hmore : t.unopened stack ≤ more) :
    t.expand place budget stack = t.expand place more stack := by
  induction budget generalizing stack more with
  | zero =>
    funext name
    rw [expand, expand]
    split
    · rfl
    next hnew =>
      split
      · rfl
      · rfl
      next hfind => exact absurd (unopened_lt hnew hfind) (by omega)
  | succ budget ih =>
    funext name
    rw [expand, expand]
    split
    · rfl
    next hnew =>
      split
      · rfl
      · rfl
      next hfind =>
        have hlt := unopened_lt hnew hfind
        obtain ⟨more, rfl⟩ : ∃ k, more = k + 1 := ⟨more - 1, by omega⟩
        have hinner : t.expand place budget (name :: stack) = t.expand place more (name :: stack) :=
          ih (by omega) (by omega)
        simp only [hinner]

theorem unopened_le (t : TypeTable) (stack : List String) : t.unopened stack ≤ t.defs.length :=
  List.length_filter_le ..

/-- A name that is not open is resolved like its body, with the name open. -/
theorem resolveIn_named {body : Source.Ty} (hnew : name ∉ stack) (hfind : t.find? name = some d)
    (hbody : d.body = some body) :
    t.resolveIn place stack (.named name) = t.resolveIn place (name :: stack) body := by
  obtain ⟨_, _⟩ := d
  cases hbody
  have hlt := unopened_lt hnew hfind
  have hle := t.unopened_le stack
  obtain ⟨budget, hbudget⟩ : ∃ k, t.defs.length = k + 1 := ⟨t.defs.length - 1, by omega⟩
  have hinner : t.expand place t.defs.length (name :: stack)
      = t.expand place budget (name :: stack) :=
    expand_eq_expand (t.unopened_le _) (by omega)
  rw [resolveIn, resolveWith, expand, if_neg hnew, resolveIn, hinner]
  simp only [hfind, hbudget]

theorem resolveIn_of_fault {ty : Source.Ty} (h : t.fault? place stack ty = some e) :
    t.resolveIn place stack ty = .error e := by
  cases ty with
  | vector len elem =>
    cases h
    rfl
  | named name =>
    rw [resolveIn, resolveWith, expand]
    rw [fault?] at h
    split at h
    next hopen =>
      cases h
      rw [if_pos hopen]
    next hnew =>
      rw [if_neg hnew]
      cases hfind : t.find? name with
      | none =>
        rw [hfind] at h
        cases h
        rfl
      | some d =>
        obtain ⟨_, body⟩ := d
        rw [hfind] at h
        cases body with
        | none =>
          cases h
          rfl
        | some body => cases h
  | _ => cases h

theorem resolveIn_plain {ty : Source.Ty} {u : Ty} (h : plain? ty = some u) :
    t.resolveIn place stack ty = .ok u := by
  cases ty <;> cases h <;> rfl

theorem resolveIn_array {len : Nat} {elem : Source.Ty} :
    t.resolveIn place stack (.array len elem)
      = (t.resolveIn place stack elem).map (.array len) := by
  rw [resolveIn, resolveWith, resolveIn]
  cases resolveWith place (t.expand place t.defs.length stack) elem <;> rfl

theorem resolveAll_eq_mapM (expand : String → Result Ty) (tys : List Source.Ty) :
    resolveAll place expand tys = tys.mapM (resolveWith place expand) := by
  induction tys with
  | nil => rfl
  | cons ty tys ih => rw [resolveAll, List.mapM_cons, ih]

theorem resolveIn_struct {packed : Bool} {fields : List Source.Ty} :
    t.resolveIn place stack (.struct packed fields) =
      (fields.mapM (t.resolveIn place stack)).map (.struct packed) := by
  rw [resolveIn, resolveWith, resolveAll_eq_mapM]
  show _ = (fields.mapM (resolveWith place (t.expand place t.defs.length stack))).map _
  cases fields.mapM (resolveWith place (t.expand place t.defs.length stack)) <;> rfl

theorem resolveIn_function {ret : Source.Ty} {params : List Source.Ty} {varargs : Bool} :
    t.resolveIn place stack (.function ret params varargs) =
      t.resolveIn place stack ret >>= fun u =>
        (params.mapM (t.resolveIn place stack)).map (.function u · varargs) := by
  rw [resolveIn, resolveWith, resolveAll_eq_mapM]
  show _ = resolveWith place (t.expand place t.defs.length stack) ret >>= fun u =>
    (params.mapM (resolveWith place (t.expand place t.defs.length stack))).map _
  cases params.mapM (resolveWith place (t.expand place t.defs.length stack)) <;> rfl

/-- The forms of types, with those that have no parts as one. -/
@[elab_as_elim]
theorem shape_cases {motive : Source.Ty → Prop}
    (plain : ∀ ty u, plain? ty = some u → motive ty)
    (array : ∀ len elem, motive (.array len elem))
    (vector : ∀ len elem, motive (.vector len elem))
    (struct : ∀ packed fields, motive (.struct packed fields))
    (named : ∀ name, motive (.named name))
    (function : ∀ ret params varargs, motive (.function ret params varargs))
    (ty : Source.Ty) : motive ty := by
  cases ty with
  | array len elem => exact array len elem
  | vector len elem => exact vector len elem
  | struct packed fields => exact struct packed fields
  | named name => exact named name
  | function ret params varargs => exact function ret params varargs
  | _ => exact plain _ _ rfl

theorem fault?_of_mem (h : name ∈ stack) :
    t.fault? place stack (.named name) =
      some (.unsupportedConstruct (.recursiveType name) place) := if_pos h

theorem fault?_of_unknown (hnew : name ∉ stack) (hfind : t.find? name = none) :
    t.fault? place stack (.named name) = some (.malformed (.unknownType name place)) := by
  rw [fault?, if_neg hnew, hfind]

theorem fault?_of_undefined (hnew : name ∉ stack) (hfind : t.find? name = some d)
    (hbody : d.body = none) :
    t.fault? place stack (.named name) = some (.unsupportedConstruct (.opaqueType name) place) := by
  obtain ⟨_, _⟩ := d
  cases hbody
  rw [fault?, if_neg hnew, hfind]

theorem hasPart_named {body : Source.Ty} (hfind : t.find? name = some d)
    (hbody : d.body = some body) : t.HasPart (.named name) body := by
  simp [HasPart, parts, hfind, hbody]

/-- A name without a fault is not open, and stands for a type. -/
theorem body_of_fault?_eq_none (h : t.fault? place stack (.named name) = none) :
    name ∉ stack ∧ ∃ d body, t.find? name = some d ∧ d.body = some body ∧
      t.parts (.named name) = [body] := by
  rw [fault?] at h
  split at h
  · cases h
  next hnew =>
    refine ⟨hnew, ?_⟩
    split at h
    · cases h
    · cases h
    next d body hfind => exact ⟨_, body, hfind, rfl, by simp [parts, hfind]⟩

/-! ## The first fault -/

/-- The fault is that of the first path that has one: the numbers of parts are compared from the
outside inward. -/
def IsFirst (faults : List Nat → Option Failure) (e : Failure) : Prop :=
  ∃ path, faults path = some e ∧ ∀ other, List.Lex (· < ·) other path → faults other = none

/-- Only one fault is the first. -/
theorem IsFirst.unique {faults : List Nat → Option Failure} {e' : Failure} (h : IsFirst faults e)
    (h' : IsFirst faults e') : e = e' := by
  obtain ⟨path, hpath, hfirst⟩ := h
  obtain ⟨path', hpath', hfirst'⟩ := h'
  rcases trichotomous_of (List.Lex (· < ·)) path path' with hlt | rfl | hgt
  · rw [hfirst' path hlt] at hpath
    cases hpath
  · exact Option.some.inj (hpath.symm.trans hpath')
  · rw [hfirst path' hgt] at hpath'
    cases hpath'

/-- A result that agrees with the faults on all paths. -/
def Agrees {α : Type} (faults : List Nat → Option Failure) : Result α → Prop
  | .ok _ => ∀ path, faults path = none
  | .error e => IsFirst faults e

/-- The faults on the paths into several types, which start with the number of one of them. -/
def faultAmong (t : TypeTable) (place : Place) (names : List String) (tys : List Source.Ty) :
    List Nat → Option Failure
  | [] => none
  | i :: path => tys[i]?.bind fun ty => t.faultAt place names ty path

theorem faultAt_eq_faultAmong {ty : Source.Ty} (h : t.fault? place stack ty = none) :
    t.faultAt place stack ty = t.faultAmong place (opened stack ty) (t.parts ty) := by
  funext path
  cases path with
  | nil => exact h
  | cons i path => rfl

theorem agrees_nil (a : α) : Agrees (t.faultAmong place stack []) (.ok a) := by
  intro path
  cases path <;> rfl

/-- Faults in the first of several types come before those in the others. -/
theorem agrees_cons {β γ : Type} {ty : Source.Ty} {tys : List Source.Ty} {rs : Result β}
    {f : α → β → γ} (hty : Agrees (t.faultAt place stack ty) r)
    (htys : Agrees (t.faultAmong place stack tys) rs) :
    Agrees (t.faultAmong place stack (ty :: tys)) (r >>= fun a => rs.map (f a)) := by
  cases r with
  | error e =>
    obtain ⟨path, hpath, hfirst⟩ := hty
    refine ⟨0 :: path, hpath, fun other hlt => ?_⟩
    cases hlt with
    | nil => rfl
    | cons hlt => exact hfirst _ hlt
    | rel hlt => exact absurd hlt (Nat.not_lt_zero _)
  | ok a =>
    cases rs with
    | ok b =>
      intro path
      rcases path with _ | ⟨_ | i, path⟩
      · rfl
      · exact hty path
      · exact htys (i :: path)
    | error e =>
      obtain ⟨path, hpath, hfirst⟩ := htys
      rcases path with _ | ⟨i, path⟩
      · cases hpath
      refine ⟨(i + 1) :: path, hpath, fun other hlt => ?_⟩
      rcases other with _ | ⟨_ | j, other⟩
      · rfl
      · exact hty other
      · refine hfirst (j :: other) ?_
        cases hlt with
        | cons hlt => exact .cons hlt
        | rel hlt => exact .rel (Nat.lt_of_succ_lt_succ hlt)

theorem agrees_singleton {ty : Source.Ty} (h : Agrees (t.faultAt place stack ty) r) :
    Agrees (t.faultAmong place stack [ty]) r := by
  have hcons := agrees_cons (f := fun a (_ : Unit) => a) h (agrees_nil ())
  cases r with
  | ok a => exact hcons
  | error e => exact hcons

theorem agrees_mapM {tys : List Source.Ty}
    (h : ∀ ty ∈ tys, Agrees (t.faultAt place stack ty) (t.resolveIn place stack ty)) :
    Agrees (t.faultAmong place stack tys) (tys.mapM (t.resolveIn place stack)) := by
  induction tys with
  | nil => exact agrees_nil _
  | cons ty tys ih =>
    obtain ⟨hty, htys⟩ := List.forall_mem_cons.mp h
    rw [List.mapM_cons]
    exact agrees_cons hty (ih htys)

theorem Agrees.map {β : Type} {faults : List Nat → Option Failure} {f : α → β}
    (h : Agrees faults r) : Agrees faults (r.map f) := by
  cases r with
  | ok a => exact h
  | error e => exact h

/-- A type is resolved if no path into it ends at a fault; else the first fault is reported. -/
theorem agrees_resolveIn (t : TypeTable) (place : Place) (stack : List String) (ty : Source.Ty) :
    Agrees (t.faultAt place stack ty) (t.resolveIn place stack ty) := by
  induction stack, ty using t.call_induction with
  | step stack ty ih =>
    cases hfault : t.fault? place stack ty with
    | some e =>
      rw [resolveIn_of_fault hfault]
      refine ⟨[], hfault, fun other hlt => ?_⟩
      cases hlt
    | none =>
      rw [faultAt_eq_faultAmong hfault]
      induction ty using shape_cases with
      | plain ty u h =>
        rw [resolveIn_plain h]
        have hparts : t.parts ty = [] := by cases ty <;> first | rfl | cases h
        rw [hparts]
        exact agrees_nil u
      | array len elem =>
        rw [resolveIn_array]
        exact (agrees_singleton (ih elem List.mem_cons_self (by simp))).map
      | vector len elem => cases hfault
      | struct packed fields =>
        rw [resolveIn_struct]
        exact (agrees_mapM fun field hfield => ih field hfield (by simp)).map
      | named name =>
        obtain ⟨hnew, d, body, hfind, hbody, hparts⟩ := body_of_fault?_eq_none hfault
        have hpart : t.HasPart (.named name) body := by simp [HasPart, hparts]
        rw [resolveIn_named hnew hfind hbody, hparts]
        refine agrees_singleton (ih body hpart fun other hother heq => ?_)
        cases heq
        exact hnew hother
      | function ret params varargs =>
        rw [resolveIn_function]
        refine agrees_cons (ih ret List.mem_cons_self (by simp))
          (agrees_mapM fun param hparam => ?_)
        exact ih param (List.mem_cons_of_mem _ hparam) (by simp)

/-! ## The walk gives the stack back -/

mutual

/-- A call that ends gives the resolution of the type, and the stack is what it was. -/
theorem Runs.result {ty : Source.Ty} {stack stack' : List String} {r : Result Ty} :
    Runs t place ty stack r stack' → r = t.resolveIn place stack ty ∧ stack' = stack
  | .plain h => ⟨(resolveIn_plain h).symm, rfl⟩
  | .vector => ⟨rfl, rfl⟩
  | .array h => by
    obtain ⟨rfl, rfl⟩ := h.result
    exact ⟨resolveIn_array.symm, rfl⟩
  | .struct h => by
    obtain ⟨rfl, rfl⟩ := h.result
    exact ⟨resolveIn_struct.symm, rfl⟩
  | .function hret hparams => by
    obtain ⟨heq, rfl⟩ := hret.result
    obtain ⟨rfl, rfl⟩ := hparams.result
    rw [resolveIn_function, ← heq]
    exact ⟨rfl, rfl⟩
  | .functionFails hret => by
    obtain ⟨heq, rfl⟩ := hret.result
    rw [resolveIn_function, ← heq]
    exact ⟨rfl, rfl⟩
  | .again hopen => ⟨(resolveIn_of_fault (fault?_of_mem hopen)).symm, rfl⟩
  | .unknown hnew hfind => ⟨(resolveIn_of_fault (fault?_of_unknown hnew hfind)).symm, rfl⟩
  | .undefined hnew hfind hbody =>
    ⟨(resolveIn_of_fault (fault?_of_undefined hnew hfind hbody)).symm, rfl⟩
  | .named hnew hfind hbody h => by
    -- what is popped is the name, since the call on the body left the stack as it was
    obtain ⟨rfl, rfl⟩ := h.result
    exact ⟨(resolveIn_named hnew hfind hbody).symm, rfl⟩

theorem RunsAll.result {tys : List Source.Ty} {stack stack' : List String} {r : Result (List Ty)} :
    RunsAll t place tys stack r stack' → r = tys.mapM (t.resolveIn place stack) ∧ stack' = stack
  | .nil => ⟨rfl, rfl⟩
  | .fails h => by
    obtain ⟨heq, rfl⟩ := h.result
    rw [List.mapM_cons, ← heq]
    exact ⟨rfl, rfl⟩
  | .cons h hs => by
    obtain ⟨heq, rfl⟩ := h.result
    obtain ⟨rfl, rfl⟩ := hs.result
    rw [List.mapM_cons, ← heq]
    exact ⟨rfl, rfl⟩

end

theorem runsAll_mapM {tys : List Source.Ty}
    (h : ∀ ty ∈ tys, Runs t place ty stack (t.resolveIn place stack ty) stack) :
    RunsAll t place tys stack (tys.mapM (t.resolveIn place stack)) stack := by
  induction tys with
  | nil => exact .nil
  | cons ty tys ih =>
    obtain ⟨hty, htys⟩ := List.forall_mem_cons.mp h
    rw [List.mapM_cons]
    cases hres : t.resolveIn place stack ty with
    | error e => exact .fails (hres ▸ hty)
    | ok u => exact .cons (hres ▸ hty) (ih htys)

/-- Every call ends. -/
theorem runs_resolveIn (t : TypeTable) (place : Place) (stack : List String) (ty : Source.Ty) :
    Runs t place ty stack (t.resolveIn place stack ty) stack := by
  induction stack, ty using t.call_induction with
  | step stack ty ih =>
    induction ty using shape_cases with
    | plain ty u h =>
      rw [resolveIn_plain h]
      exact .plain h
    | vector len elem => exact .vector
    | array len elem =>
      rw [resolveIn_array]
      exact .array (ih elem List.mem_cons_self (by simp))
    | struct packed fields =>
      rw [resolveIn_struct]
      exact .struct (runsAll_mapM fun field hfield => ih field hfield (by simp))
    | named name =>
      -- The three faults of a name exclude each other, in the order of the tests.
      by_cases hopen : name ∈ stack
      · rw [resolveIn_of_fault (fault?_of_mem hopen)]
        exact .again hopen
      cases hfind : t.find? name with
      | none =>
        rw [resolveIn_of_fault (fault?_of_unknown hopen hfind)]
        exact .unknown hopen hfind
      | some d =>
        cases hbody : d.body with
        | none =>
          rw [resolveIn_of_fault (fault?_of_undefined hopen hfind hbody)]
          exact .undefined hopen hfind hbody
        | some body =>
          rw [resolveIn_named hopen hfind hbody]
          refine .named hopen hfind hbody (ih body (hasPart_named hfind hbody) ?_)
          exact fun other hother heq => hopen (Source.Ty.named.inj heq ▸ hother)
    | function ret params varargs =>
      have hret : Runs t place ret stack (t.resolveIn place stack ret) stack :=
        ih ret List.mem_cons_self (by simp)
      have hparams : RunsAll t place params stack (params.mapM (t.resolveIn place stack)) stack :=
        runsAll_mapM fun param hparam => ih param (List.mem_cons_of_mem _ hparam) (by simp)
      rw [resolveIn_function]
      cases hres : t.resolveIn place stack ret with
      | error e => exact .functionFails (hres ▸ hret)
      | ok u => exact .function (hres ▸ hret) hparams

/-! ## Which types have an expansion -/

/-- No path into a type ends at a fault. -/
def Clean (t : TypeTable) (place : Place) (names : List String) (ty : Source.Ty) : Prop :=
  ∀ path, t.faultAt place names ty path = none

theorem clean_iff {ty : Source.Ty} :
    Clean t place stack ty ↔ ∃ u, t.resolveIn place stack ty = .ok u := by
  have hagrees := t.agrees_resolveIn place stack ty
  cases hres : t.resolveIn place stack ty with
  | ok u =>
    rw [hres] at hagrees
    exact ⟨fun _ => ⟨u, rfl⟩, fun _ => hagrees⟩
  | error e =>
    rw [hres] at hagrees
    obtain ⟨path, hpath, -⟩ := hagrees
    constructor
    · intro h
      rw [h path] at hpath
      cases hpath
    · rintro ⟨u, h⟩
      cases h

theorem Clean.part {ty part : Source.Ty} (h : Clean t place stack ty) (hpart : t.HasPart ty part) :
    Clean t place (opened stack ty) part := by
  intro path
  obtain ⟨i, hi⟩ := List.mem_iff_getElem?.mp hpart
  have hpath := h (i :: path)
  rwa [faultAt, hi] at hpath

/-- Names that are open stay open on the way to a type inside. -/
theorem Clean.reaches {ty inner : Source.Ty} (h : Clean t place stack ty)
    (hreaches : t.Reaches ty inner) : ∃ names, stack ⊆ names ∧ Clean t place names inner := by
  induction hreaches with
  | refl => exact ⟨stack, List.Subset.refl _, h⟩
  | @tail ty' part _ hpart ih =>
    obtain ⟨names, hsub, hclean⟩ := ih
    refine ⟨opened names ty', fun name hname => ?_, hclean.part hpart⟩
    cases ty' with
    | named name => exact List.mem_cons_of_mem _ (hsub hname)
    | _ => exact hsub hname

theorem Clean.not_containsItself (h : Clean t place stack (.named name)) :
    ¬ t.ContainsItself name := by
  intro hcycle
  obtain ⟨body, hpart, hback⟩ := Relation.TransGen.head'_iff.mp hcycle
  obtain ⟨names, hsub, hclean⟩ := (h.part hpart).reaches hback
  exact (body_of_fault?_eq_none (hclean [])).1 (hsub List.mem_cons_self)

theorem Clean.not_defect {ty : Source.Ty} (h : Clean t place stack ty) : ¬ t.Defect ty := by
  intro hdefect
  cases hdefect with
  | vector => cases h []
  | unknown hfind =>
    obtain ⟨-, d, body, hfind', -⟩ := body_of_fault?_eq_none (h [])
    rw [hfind] at hfind'
    cases hfind'
  | undefined hfind hbody =>
    obtain ⟨-, d, body, hfind', hbody', -⟩ := body_of_fault?_eq_none (h [])
    cases hfind.symm.trans hfind'
    cases hbody.symm.trans hbody'
  | itself hcycle => exact h.not_containsItself hcycle

/-- A fault on a path is one of a type that is reached, and the names that are open there contain
that type. -/
theorem reaches_of_faultAt {path : List Nat} {ty : Source.Ty}
    (h : t.faultAt place names ty path = some e)
    (hnames : ∀ name ∈ names, Relation.TransGen t.HasPart (.named name) ty) :
    ∃ inner names', t.Reaches ty inner ∧ t.fault? place names' inner = some e ∧
      ∀ name ∈ names', Relation.TransGen t.HasPart (.named name) inner := by
  induction path generalizing names ty with
  | nil => exact ⟨ty, names, .refl, h, hnames⟩
  | cons i path ih =>
    rw [faultAt, Option.bind_eq_some_iff] at h
    obtain ⟨part, hi, h⟩ := h
    have hpart : t.HasPart ty part := List.mem_of_getElem? hi
    obtain ⟨inner, names', hreaches, hrest⟩ := ih h fun name hname => by
      cases ty with
      | named other =>
        rcases List.mem_cons.mp hname with rfl | hname
        · exact .single hpart
        · exact (hnames name hname).tail hpart
      | _ => exact (hnames name hname).tail hpart
    exact ⟨inner, names', .head hpart hreaches, hrest⟩

theorem defect_of_fault? {ty : Source.Ty} (h : t.fault? place names ty = some e)
    (hnames : ∀ name ∈ names, Relation.TransGen t.HasPart (.named name) ty) : t.Defect ty := by
  cases ty with
  | vector len elem => exact .vector
  | named name =>
    rw [fault?] at h
    split at h
    next hopen => exact .itself (hnames name hopen)
    next =>
      split at h
      next hfind => exact .unknown hfind
      next hfind => exact .undefined hfind rfl
      · cases h
  | _ => cases h

/-- A name is reported to contain itself only where it is open. -/
theorem mem_of_fault? {ty : Source.Ty}
    (h : t.fault? place names ty = some (.unsupportedConstruct (.recursiveType name) place)) :
    ty = .named name ∧ name ∈ names := by
  cases ty with
  | named other =>
    rw [fault?] at h
    split at h
    next hopen =>
      cases h
      exact ⟨rfl, hopen⟩
    next => split at h <;> cases h
  | _ => cases h

/-! ## What the expansion is -/

theorem forall₂_expands_iff {tys : List Source.Ty} {us : List Ty}
    (h : ∀ ty ∈ tys, ∀ u, t.resolveIn place stack ty = .ok u → ∀ v, t.Expands ty v ↔ v = u)
    (hus : tys.mapM (t.resolveIn place stack) = .ok us) (vs : List Ty) :
    List.Forall₂ t.Expands tys vs ↔ vs = us := by
  have hall := mapM_eq_ok.mp hus
  clear hus
  induction hall generalizing vs with
  | nil => exact List.forall₂_nil_left_iff
  | cons hres _ ih =>
    obtain ⟨hty, htys⟩ := List.forall_mem_cons.mp h
    rw [List.forall₂_cons_left_iff]
    constructor
    · rintro ⟨v, rest, hv, hrest, rfl⟩
      rw [(hty _ hres v).mp hv, (ih htys rest).mp hrest]
    · rintro rfl
      exact ⟨_, _, (hty _ hres _).mpr rfl, (ih htys _).mpr rfl, rfl⟩

/-- What a type resolves to is its only expansion. -/
theorem expands_iff (t : TypeTable) (place : Place) (stack : List String) (ty : Source.Ty) :
    ∀ u, t.resolveIn place stack ty = .ok u → ∀ v, t.Expands ty v ↔ v = u := by
  induction stack, ty using t.call_induction with
  | step stack ty ih =>
    intro u hres v
    induction ty using shape_cases with
    | plain ty w h =>
      rw [resolveIn_plain h] at hres
      cases hres
      constructor
      · intro hexp
        cases hexp with
        | plain h' => exact Option.some.inj (h'.symm.trans h)
        | _ => cases h
      · rintro rfl
        exact .plain h
    | vector len elem => cases hres
    | array len elem =>
      rw [resolveIn_array, map_eq_ok] at hres
      obtain ⟨w, hw, rfl⟩ := hres
      have helem := ih elem List.mem_cons_self (by simp) w hw
      constructor
      · intro hexp
        cases hexp with
        | plain h => cases h
        | array h => rw [(helem _).mp h]
      · rintro rfl
        exact .array ((helem w).mpr rfl)
    | struct packed fields =>
      rw [resolveIn_struct, map_eq_ok] at hres
      obtain ⟨ws, hws, rfl⟩ := hres
      have hfields := forall₂_expands_iff (fun field hfield => ih field hfield (by simp)) hws
      constructor
      · intro hexp
        cases hexp with
        | plain h => cases h
        | struct h => rw [(hfields _).mp h]
      · rintro rfl
        exact .struct ((hfields ws).mpr rfl)
    -- A name on the stack would be a fault, so its body is called with a longer stack.
    | named name =>
      obtain ⟨hnew, d, body, hfind, hbody, -⟩ :=
        body_of_fault?_eq_none (clean_iff.mpr ⟨u, hres⟩ [])
      rw [resolveIn_named hnew hfind hbody] at hres
      have hinner := ih body (hasPart_named hfind hbody)
        (fun other hother heq => hnew (Source.Ty.named.inj heq ▸ hother)) u hres
      constructor
      · intro hexp
        cases hexp with
        | plain h => cases h
        | named hfind' hbody' h =>
          cases hfind.symm.trans hfind'
          cases hbody.symm.trans hbody'
          exact (hinner v).mp h
      · rintro rfl
        exact .named hfind hbody ((hinner v).mpr rfl)
    | function ret params varargs =>
      rw [resolveIn_function, bind_eq_ok] at hres
      obtain ⟨w, hw, hres⟩ := hres
      obtain ⟨ws, hws, rfl⟩ := map_eq_ok.mp hres
      have hret := ih ret List.mem_cons_self (by simp) w hw
      have hparams := forall₂_expands_iff
        (fun param hparam => ih param (List.mem_cons_of_mem _ hparam) (by simp)) hws
      constructor
      · intro hexp
        cases hexp with
        | plain h => cases h
        | function h hs => rw [(hret _).mp h, (hparams _).mp hs]
      · rintro rfl
        exact .function ((hret w).mpr rfl) ((hparams ws).mpr rfl)

/-! ## Resolution -/

theorem runs_iff {ty : Source.Ty} {r : Result Ty} {stack' : List String} :
    Runs t place ty stack r stack' ↔ r = t.resolveIn place stack ty ∧ stack' = stack := by
  refine ⟨Runs.result, ?_⟩
  rintro ⟨rfl, rfl⟩
  exact t.runs_resolveIn place stack' ty

theorem resolve_eq_error_iff {ty : Source.Ty} :
    t.resolve place ty = .error e ↔ IsFirst (t.faultAt place [] ty) e := by
  have hagrees : Agrees (t.faultAt place [] ty) (t.resolve place ty) :=
    t.agrees_resolveIn place [] ty
  constructor
  · intro hres
    rwa [hres] at hagrees
  · intro hfirst
    cases hres : t.resolve place ty with
    | ok u =>
      obtain ⟨path, hpath, -⟩ := hfirst
      rw [hres] at hagrees
      rw [hagrees path] at hpath
      cases hpath
    | error e' =>
      rw [hres] at hagrees
      rw [IsFirst.unique hagrees hfirst]

/-- A failure is that of a type that is reached, inside of all names that are open there. -/
theorem exists_fault?_of_resolve {ty : Source.Ty} (h : t.resolve place ty = .error e) :
    ∃ inner names, t.Reaches ty inner ∧ t.fault? place names inner = some e ∧
      ∀ name ∈ names, Relation.TransGen t.HasPart (.named name) inner := by
  obtain ⟨path, hpath, -⟩ := resolve_eq_error_iff.mp h
  exact reaches_of_faultAt hpath (by simp)

theorem resolve_eq_ok_iff {ty : Source.Ty} {u : Ty} :
    t.resolve place ty = .ok u ↔
      (∀ inner, t.Reaches ty inner → ¬ t.Defect inner) ∧ t.Expands ty u := by
  constructor
  · intro hres
    refine ⟨fun inner hreaches => ?_, (t.expands_iff place [] ty u hres u).mpr rfl⟩
    obtain ⟨names, -, hclean⟩ := (clean_iff.mpr ⟨u, hres⟩).reaches hreaches
    exact hclean.not_defect
  · rintro ⟨hsound, hexpands⟩
    cases hres : t.resolve place ty with
    | ok v => rw [(t.expands_iff place [] ty v hres u).mp hexpands]
    | error e =>
      obtain ⟨inner, names, hreaches, hfault, hnames⟩ := exists_fault?_of_resolve hres
      exact absurd (defect_of_fault? hfault hnames) (hsound inner hreaches)

/-- What is said to contain itself does, however often a name is used elsewhere. -/
theorem containsItself_of_resolve {ty : Source.Ty}
    (h : t.resolve place ty = .error (.unsupportedConstruct (.recursiveType name) place)) :
    t.Reaches ty (.named name) ∧ t.ContainsItself name := by
  obtain ⟨inner, names, hreaches, hfault, hnames⟩ := exists_fault?_of_resolve h
  obtain ⟨rfl, hmem⟩ := mem_of_fault? hfault
  exact ⟨hreaches, hnames name hmem⟩

end

/-- Resolution ends for every table and every type: from every stack there is one walk, and it gives
the stack back as it was, with a failure too. It succeeds if no vector, no name without a type and
no name that contains itself is reached, and then each name is replaced by its expansion; otherwise
the first of these is reported, and a name that is reported to contain itself does so. -/
theorem resolve_exact (t : TypeTable) (place : Place) (ty : Source.Ty) :
    (∀ stack, ∃ r, ∀ r' stack', Runs t place ty stack r' stack' ↔ r' = r ∧ stack' = stack) ∧
    Runs t place ty [] (t.resolve place ty) [] ∧
    (∀ u, t.resolve place ty = .ok u ↔
      (∀ inner, t.Reaches ty inner → ¬ t.Defect inner) ∧ t.Expands ty u) ∧
    (∀ e, t.resolve place ty = .error e ↔ IsFirst (t.faultAt place [] ty) e) ∧
    ∀ name, t.resolve place ty = .error (.unsupportedConstruct (.recursiveType name) place) →
      t.Reaches ty (.named name) ∧ t.ContainsItself name :=
  ⟨fun stack => ⟨t.resolveIn place stack ty, fun _ _ => runs_iff⟩, t.runs_resolveIn place [] ty,
    fun _ => resolve_eq_ok_iff, fun _ => resolve_eq_error_iff, fun _ => containsItself_of_resolve⟩

/-- A pair that is used twice in a list, which contains itself behind the pairs and before a name
that stands for nothing. -/
def listTable : TypeTable :=
  ⟨[⟨"pair", some (.struct false [.int 32, .ptr])⟩,
    ⟨"list", some (.struct false [.named "pair", .named "pair", .named "list", .named "none"])⟩]⟩

/-- The list is reported before the name that stands for nothing is reached. -/
theorem resolve_exact_list :
    Runs listTable (.global "g") (.named "list") []
      (.error (.unsupportedConstruct (.recursiveType "list") (.global "g"))) [] ∧
    listTable.ContainsItself "list" ∧ ¬ listTable.ContainsItself "pair" ∧
    listTable.Expands (.array 2 (.named "pair")) (.array 2 (.struct false [.int 32, .ptr])) := by
  obtain ⟨-, hruns, -, -, hitself⟩ := listTable.resolve_exact (.global "g") (.named "list")
  obtain ⟨-, -, hok, -⟩ := listTable.resolve_exact (.global "g") (.array 2 (.named "pair"))
  obtain ⟨hsound, hexpands⟩ := (hok _).mp rfl
  have hpair : listTable.Reaches (.array 2 (.named "pair")) (.named "pair") :=
    .single List.mem_cons_self
  exact ⟨hruns, (hitself "list" rfl).2, fun h => hsound _ hpair (.itself h), hexpands⟩

end TypeTable

end SafeIR.IR
