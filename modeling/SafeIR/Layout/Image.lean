import SafeIR.Binary.Format
import SafeIR.Layout.Basic

/-!
# The image of the globals

Every global gets an address: the first free one, from the end of the guard upward, that is a
multiple of its alignment. The image holds the initial bytes of all globals from that guard on, with
initializers encoded little-endian and everything else zero.
-/

namespace SafeIR.Layout

open IR (Constant Global GlobalId)

/-- The place of one global. -/
structure Entry where
  id : GlobalId
  /-- The name of the constant that holds the address. -/
  constName : String
  address : Nat
  size : Nat
  deriving DecidableEq, Repr

/-- The globals of a module, laid out one behind the other. -/
structure Image where
  entries : List Entry := []
  bytes : List UInt8 := []

namespace Image

/-- The entry of a global. -/
def find? (entries : List Entry) (id : GlobalId) : Option Entry := entries.find? (·.id = id)

/-- The bytes with those from `start` on replaced by others. -/
def overwrite (bytes : List UInt8) (start : Nat) (new : List UInt8) : List UInt8 :=
  bytes.take start ++ new ++ bytes.drop (start + new.length)

/-- The bytes of a constant without parts at a layout; a byte string may be shorter than its
place. Nothing if the two do not fit together. -/
def leaf? (entries : List Entry) (ty : IR.Ty) (layout : Layout) (name : String) :
    Constant → Except Failure (List UInt8)
  | .zero | .undef | .null => return List.replicate layout.size 0
  | .bool b => if layout.size = 0 then .error (.noByte name) else return [if b then 1 else 0]
  | .int v =>
    match layout with
    | .bool => return [UInt8.ofNat (v % 2).toNat]
    | .int _ | .ptr => return Bytes.ofInt layout.size v
    | _ => refuse (.mismatch (.int v) ty)
  | .float bits =>
    match layout with
    | .f32 => return Bytes.ofNat 4 (Binary.narrow bits)
    | .f64 => return Bytes.ofNat 8 bits
    | _ => refuse (.mismatch (.float bits) ty)
  | .global id =>
    match layout with
    | .ptr =>
      match find? entries id with
      | some e => return Bytes.ofNat 8 e.address
      | none => refuse (.strayReference id)
    | _ => refuse (.mismatch (.global id) ty)
  | .bytes data =>
    if layout.size < data.length then refuse (.tooManyBytes data.length ty) else return data
  | c => refuse (.mismatch c ty)
where
  refuse {α : Type} (what : Construct) : Except Failure α :=
    .error (.unsupportedConstruct what (.initializer name))

mutual

/-- Write a constant of a type at a position of the image. The whole place of the constant must lie
in the image. -/
def encode (limit : Nat) (entries : List Entry) (name : String) (ty : IR.Ty) (layout : Layout)
    (position : Nat) (bytes : List UInt8) (value : Constant) : Except Failure (List UInt8) :=
  if bytes.length < position + layout.size then
    .error (.unsupportedConstruct (.overrun ty) (.initializer name))
  else match value, layout with
    | .array items, .array elem _ =>
      encodeItems limit entries name bytes
        ((List.range items.length).map fun i => position + i * elem.stride) items
    | .struct fields, .struct packed ls =>
      encodeItems limit entries name bytes
        ((Layout.struct packed ls).offsets.map (position + ·)) fields
    | value, layout => return overwrite bytes position (← leaf? entries ty layout name value)

/-- Write constants at the positions given, as long as there are both. -/
def encodeItems (limit : Nat) (entries : List Entry) (name : String) (bytes : List UInt8) :
    List Nat → List (IR.Ty × Constant) → Except Failure (List UInt8)
  | position :: positions, (ty, value) :: items =>
    match Layout.ofType limit ty with
    | .error e => .error (.unsupportedConstruct (.unmapped e) (.initializer name))
    | .ok layout => do
      let bytes ← encode limit entries name ty layout position bytes value
      encodeItems limit entries name bytes positions items
  | _, _ => return bytes

end

/-- Give every global its address, from `cursor` on; also gives the first free address. -/
def place (limit : Nat) (constName : GlobalId → String) :
    Nat → List Global → Except Failure (List Entry × Nat)
  | cursor, [] => return ([], cursor)
  | cursor, g :: gs =>
    match Layout.ofType limit g.ty with
    | .error e => .error (.unsupportedType e)
    | .ok layout => do
      let align := max (max (g.align.getD 1) layout.align) 1
      let address := alignUp cursor align
      let (entries, stop) ← place limit constName (address + layout.size) gs
      return (⟨g.id, constName g.id, address, layout.size⟩ :: entries, stop)

/-- Write the initializers of globals into the bytes. -/
def fill (limit : Nat) (entries : List Entry) :
    List UInt8 → List Global → Except Failure (List UInt8)
  | bytes, [] => return bytes
  | bytes, g :: gs =>
    match g.initializer with
    | none => fill limit entries bytes gs
    | some value =>
      match Layout.ofType limit g.ty with
      | .error e => .error (.unsupportedType e)
      | .ok layout => do
        let address := ((find? entries g.id).map Entry.address).getD nullGuard
        let bytes ←
          encode limit entries g.name g.ty layout (address - nullGuard) bytes value
        fill limit entries bytes gs

/-- Addresses and bytes of all globals. -/
def ofGlobals (limit : Nat) (constName : GlobalId → String) (globals : List Global) :
    Except Failure Image := do
  let (entries, stop) ← place limit constName nullGuard globals
  return { entries, bytes := ← fill limit entries (List.replicate (stop - nullGuard) 0) globals }

end Image

end SafeIR.Layout
