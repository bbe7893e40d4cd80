import SafeIR.Failure
import SafeIR.Memory

/-!
# Layout of types

How a type lies in guest memory, by the natural rules of C on a 64-bit machine: a scalar is aligned
to its size, a field of a structure stands at the next multiple of its alignment, and a packed
structure has no gaps.

`Layout.ofType` fails exactly on types with a part that has no layout; `size`, `align` and
`offsets` are functions of the layout.
-/

namespace SafeIR

/-- How the values of a type lie in memory. -/
inductive Layout where
  | void
  | bool
  | int (bits : Nat)
  | f32
  | f64
  | ptr
  | array (elem : Layout) (len : Nat)
  | struct (packed : Bool) (fields : List Layout)
  | function (params : List Layout) (ret : Layout) (varargs : Bool)

namespace Layout

mutual

/-- The alignment, in bytes. -/
def align : Layout → Nat
  | void | bool => 1
  | int bits => bits / 8
  | f32 => 4
  | f64 | ptr => 8
  | array elem _ => elem.align
  | struct packed fields => if packed then 1 else maxAlign fields
  | function .. => 1

/-- The largest alignment among several layouts, at least one. -/
def maxAlign : List Layout → Nat
  | [] => 1
  | l :: ls => max l.align (maxAlign ls)

end

mutual

/-- The size, in bytes. -/
def size : Layout → Nat
  | void => 0
  | bool => 1
  | int bits => bits / 8
  | f32 => 4
  | f64 | ptr => 8
  | array elem len => alignUp elem.size elem.align * len
  | struct packed fields =>
    alignUp (endOffset packed 0 fields) (if packed then 1 else maxAlign fields)
  | function .. => 0

/-- Where the last of several fields ends, when the first may start at `start`. -/
def endOffset (packed : Bool) : Nat → List Layout → Nat
  | start, [] => start
  | start, l :: ls =>
    endOffset packed (alignUp start (if packed then 1 else l.align) + l.size) ls

end

/-- The distance between two elements of an array. -/
def stride (l : Layout) : Nat := alignUp l.size l.align

/-- Where each of several fields starts, when the first may start at `start`. -/
def offsetsFrom (packed : Bool) : Nat → List Layout → List Nat
  | _, [] => []
  | start, l :: ls =>
    let offset := alignUp start (if packed then 1 else l.align)
    offset :: offsetsFrom packed (offset + l.size) ls

/-- Where the fields of a structure start. -/
def offsets : Layout → List Nat
  | struct packed fields => offsetsFrom packed 0 fields
  | _ => []

/-- The scalar, if there are no parts. -/
def scalar? : Layout → Option Scalar
  | bool => some .bool
  | int bits => some (.int bits)
  | f32 => some .f32
  | f64 => some .f64
  | ptr => some .ptr
  | _ => none

/-! ## Layouts of types -/

/-- The type has no layout. -/
def unsupported {α : Type} (ty : IR.Ty) (problem : TypeProblem) : Except UnsupportedType α :=
  .error ⟨ty.text, problem⟩

/-- The layout of a type that has no parts, where integers may have up to `limit` bits. -/
def ofLeaf (limit : Nat) (ty : IR.Ty) : Except UnsupportedType Layout :=
  match ty with
  | .void => return void
  | .int bits =>
    if bits = 1 then return bool
    else if bits ∈ [8, 16, 32, 64, 128] then
      if limit < bits then unsupported ty (.tooWide limit) else return int bits
    else unsupported ty .uncommonWidth
  | .float => return f32
  | .double => return f64
  | .half | .x86Fp80 | .fp128 => unsupported ty .uncommonFloat
  | .ptr => return ptr
  | ty => unsupported ty .notValue

mutual

/-- The layout of a type. -/
def ofType (limit : Nat) : IR.Ty → Except UnsupportedType Layout
  | .array len elem => return array (← ofType limit elem) len
  | .struct packed fields => return struct packed (← ofTypes limit fields)
  | .function ret params varargs => do
    let params ← ofTypes limit params
    return function params (← ofType limit ret) varargs
  | ty => ofLeaf limit ty

def ofTypes (limit : Nat) : List IR.Ty → Except UnsupportedType (List Layout)
  | [] => return []
  | ty :: tys => return (← ofType limit ty) :: (← ofTypes limit tys)

end

end Layout

end SafeIR
