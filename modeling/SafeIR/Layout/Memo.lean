import SafeIR.Layout.Basic

/-!
# Remembered layouts

A table of the layouts computed so far. Asking for a layout adds its parts and then the type itself;
a type without a layout is not added, but the parts that were computed before the failure are.
-/

namespace SafeIR.Layout

/-- The layouts that were computed so far. -/
structure Memo where
  entries : List (IR.Ty × Layout) := []

namespace Memo

/-- The layout that is remembered for a type. -/
def find? (m : Memo) (ty : IR.Ty) : Option Layout := (m.entries.find? (·.1 = ty)).map Prod.snd

def insert (m : Memo) (ty : IR.Ty) (l : Layout) : Memo := ⟨(ty, l) :: m.entries⟩

def size (m : Memo) : Nat := m.entries.length

/-- The remembered layout, or else the one that `build` computes, which is remembered. -/
def remembered (ty : IR.Ty) (build : Memo → Except UnsupportedType Layout × Memo) (m : Memo) :
    Except UnsupportedType Layout × Memo :=
  match m.find? ty with
  | some l => (.ok l, m)
  | none =>
    match build m with
    | (.ok l, m) => (.ok l, m.insert ty l)
    | (.error e, m) => (.error e, m)

mutual

/-- The layout of a type, looked up or remembered. -/
def ofType (limit : Nat) : IR.Ty → Memo → Except UnsupportedType Layout × Memo
  | .array len elem => remembered (.array len elem) fun m =>
    match ofType limit elem m with
    | (.ok l, m) => (.ok (array l len), m)
    | (.error e, m) => (.error e, m)
  | .struct packed fields => remembered (.struct packed fields) fun m =>
    match ofTypes limit fields m with
    | (.ok ls, m) => (.ok (struct packed ls), m)
    | (.error e, m) => (.error e, m)
  | .function ret params varargs => remembered (.function ret params varargs) fun m =>
    match ofTypes limit params m with
    | (.error e, m) => (.error e, m)
    | (.ok ps, m) =>
      match ofType limit ret m with
      | (.ok r, m) => (.ok (function ps r varargs), m)
      | (.error e, m) => (.error e, m)
  | ty => remembered ty fun m => (ofLeaf limit ty, m)

def ofTypes (limit : Nat) : List IR.Ty → Memo → Except UnsupportedType (List Layout) × Memo
  | [], m => (.ok [], m)
  | ty :: tys, m =>
    match ofType limit ty m with
    | (.error e, m) => (.error e, m)
    | (.ok l, m) =>
      match ofTypes limit tys m with
      | (.ok ls, m) => (.ok (l :: ls), m)
      | (.error e, m) => (.error e, m)

end

end Memo

end SafeIR.Layout
