import SafeIR.IR.Read
import SafeIR.Proofs.Layout.Words

/-!
# Accesses in range

An initializer is written by accesses to the places of its pieces: a byte is set, or bytes are
copied that must be as many as there is room for. The length of a place comes from a type, and what
is copied to it from a constant, and the two need not fit together. `Image.byAccess` makes the
accesses one by one, with all numbers in machine words, and stops at the first that is out of range.
It is the same as laying out the globals where all numbers are words (`ofGlobals_eq`).

Every pair of a constant and a layout is guarded or has room, at any depth, but for one: a truth
value is written to the first byte of its place, and a place may have none (`accessed`). A position
may also be no word, as the elements that a constant has need not be as many as its type says. So
the accesses are in range exactly if writing comes to no truth value without a byte and, in a
program that checks for overflow, to no place that ends behind all words.
-/

namespace SafeIR

variable {data : List UInt8} {position : Nat}

/-! ## Words and their bytes -/

theorem Bytes.take_ofNat {n m : Nat} (h : n ≤ m) (v : Nat) : (ofNat m v).take n = ofNat n v := by
  induction n generalizing m v with
  | zero => rfl
  | succ n ih =>
    cases m with
    | zero => omega
    | succ m => rw [ofNat, ofNat, List.take_succ_cons, ih (Nat.le_of_succ_le_succ h)]

/-- The bytes of a shorter word are the first ones of a longer word. -/
theorem Bytes.take_ofInt {n m : Nat} (h : n ≤ m) (v : Int) : (ofInt m v).take n = ofInt n v := by
  have hdvd : (twoPow (8 * n) : Int) ∣ (twoPow (8 * m) : Int) := by
    obtain ⟨k, rfl⟩ := Nat.exists_eq_add_of_le h
    refine Int.natCast_dvd_natCast.mpr ⟨twoPow (8 * k), ?_⟩
    rw [Nat.mul_add, twoPow_add]
  have hpos : 0 < twoPow (8 * m) := Nat.two_pow_pos _
  have hnonneg : 0 ≤ v % (twoPow (8 * m) : Int) := Int.emod_nonneg _ (by omega)
  have hmod : (v % (twoPow (8 * m) : Int)).toNat % twoPow (8 * n)
      = (v % (twoPow (8 * n) : Int)).toNat := by
    rw [← Int.emod_emod_of_dvd v hdvd, Int.toNat_emod hnonneg (by omega), Int.toNat_natCast]
  rw [ofInt, take_ofNat h, ← ofNat_mod, hmod, ofInt]

namespace Layout.Image

open IR (Constant Global GlobalId)

/-! ## Accesses -/

/-- What writing a constant without parts does with the bytes of its place. -/
inductive Access where
  /-- All of them become zero. -/
  | clear
  /-- The first one is set. -/
  | first (byte : UInt8)
  /-- They are replaced by as many from the front of others. -/
  | front (source : List UInt8)
  /-- They are replaced by others, which must be as many. -/
  | whole (source : List UInt8)
  /-- Those at the front are replaced. -/
  | start (source : List UInt8)

/-- The bytes of a place after an access; nothing if an index or a length is out of range. -/
def Access.result? : Access → List UInt8 → Option (List UInt8)
  | clear, room => some (List.replicate room.length 0)
  | first _, [] => none
  | first byte, _ :: rest => some (byte :: rest)
  | front source, room =>
    if room.length ≤ source.length then some (source.take room.length) else none
  | whole source, room => if source.length = room.length then some source else none
  | start source, room =>
    if source.length ≤ room.length then some (source ++ room.drop source.length) else none

/-- The access that writes a constant to a place with a layout, or why the two do not fit together.
An integer is cut from a word of sixteen bytes. -/
def access? (entries : List Entry) (ty : IR.Ty) (layout : Layout) (name : String) :
    Constant → Except Failure Access
  | .zero | .undef | .null => return .clear
  | .bool b => return .first (if b then 1 else 0)
  | .int v =>
    match layout with
    | .bool => return .first (UInt8.ofNat (v % 2).toNat)
    | .int _ | .ptr => return .front (Bytes.ofInt 16 v)
    | _ => leaf?.refuse name (.mismatch (.int v) ty)
  | .float bits =>
    match layout with
    | .f32 => return .whole (Bytes.ofNat 4 (Binary.narrow bits))
    | .f64 => return .whole (Bytes.ofNat 8 bits)
    | _ => leaf?.refuse name (.mismatch (.float bits) ty)
  | .global id =>
    match layout with
    | .ptr =>
      match find? entries id with
      | some e => return .whole (Bytes.ofNat 8 e.address)
      | none => leaf?.refuse name (.strayReference id)
    | _ => leaf?.refuse name (.mismatch (.global id) ty)
  | .bytes data =>
    if layout.size < data.length then leaf?.refuse name (.tooManyBytes data.length ty)
    else return .start data
  | c => leaf?.refuse name (.mismatch c ty)

/-- How an access and the bytes that are written in its stead go together, in a place. Only a truth
value may lack a byte. -/
inductive Accessed (name : String) (value : Constant) (room : List UInt8) :
    Except Failure Access → Except Failure (List UInt8) → Prop where
  | refused (what : Construct) : Accessed name value room
      (.error (.unsupportedConstruct what (.initializer name)))
      (.error (.unsupportedConstruct what (.initializer name)))
  | written {a : Access} {data : List UInt8}
      (h : a.result? room = some (data ++ room.drop data.length)) :
      Accessed name value room (.ok a) (.ok data)
  | missing {a : Access} {b : Bool} (hvalue : value = .bool b) (hroom : room = [])
      (h : a.result? room = none) : Accessed name value room (.ok a) (.error (.noByte name))

/-- An access that replaces all of a place. -/
theorem Accessed.all {name : String} {value : Constant} {room : List UInt8} {a : Access}
    (hlen : data.length = room.length) (h : a.result? room = some data) :
    Accessed name value room (.ok a) (.ok data) := by
  refine .written ?_
  rw [h, hlen, List.drop_length, List.append_nil]

theorem Accessed.whole {name : String} {value : Constant} {room : List UInt8}
    (hlen : data.length = room.length) : Accessed name value room (.ok (.whole data)) (.ok data) :=
  .all hlen (if_pos hlen)

/-- A word has room for every integer that has a layout. -/
theorem size_int_le {limit bits : Nat} {ty : IR.Ty} (h : ofType limit ty = .ok (.int bits)) :
    (Layout.int bits).size ≤ 16 := by
  cases ty with
  | int bits' =>
    rcases ofLeaf_int h with ⟨-, h⟩ | ⟨hbits, h⟩
    · cases h
    · cases h
      simp only [List.mem_cons, List.not_mem_nil, or_false] at hbits
      rcases hbits with rfl | rfl | rfl | rfl | rfl <;> decide
  | array len elem =>
    obtain ⟨_, -, h⟩ := ofType_array_eq_ok.mp h
    cases h
  | struct packed fields =>
    obtain ⟨_, -, h⟩ := ofType_struct_eq_ok.mp h
    cases h
  | function ret params varargs =>
    simp only [ofType, bind_eq_ok, pure_eq_ok] at h
    obtain ⟨_, -, _, -, h⟩ := h
    cases h
  | void | float | double | half | x86Fp80 | fp128 | ptr | label | metadata => cases h

/-- The access to a slot, compared with the bytes of the constant. -/
theorem accessed {limit : Nat} {entries : List Entry} {name : String} {ty : IR.Ty}
    {layout : Layout} {value : Constant} {room : List UInt8}
    (hlayout : ofType limit ty = .ok layout) (hroom : room.length = layout.size) :
    Accessed name value room (access? entries ty layout name value)
      (leaf? entries ty layout name value) := by
  cases value with
  | zero | undef | null =>
    refine .all (by rw [List.length_replicate, hroom]) ?_
    rw [Access.result?, hroom]
  | bool b =>
    cases room with
    | nil =>
      have hsize : layout.size = 0 := hroom.symm
      rw [leaf?, if_pos hsize]
      exact .missing rfl rfl rfl
    | cons byte rest =>
      have hsize : layout.size ≠ 0 := by
        rw [← hroom]
        exact Nat.succ_ne_zero _
      rw [leaf?, if_neg hsize]
      exact .written rfl
  | int v =>
    -- A cut takes no more than the word has.
    have hcut : layout.size ≤ 16 → Accessed name (.int v) room (.ok (.front (Bytes.ofInt 16 v)))
        (.ok (Bytes.ofInt layout.size v)) := by
      intro hle
      have hword : (Bytes.ofInt 16 v).length = 16 := Bytes.length_ofNat ..
      refine .all ((Bytes.length_ofNat ..).trans hroom.symm) ?_
      rw [Access.result?, hword, hroom, if_pos hle, Bytes.take_ofInt hle]
    cases layout with
    | bool =>
      obtain ⟨byte, rfl⟩ := List.length_eq_one_iff.mp hroom
      exact .all rfl rfl
    | int bits => exact hcut (size_int_le hlayout)
    | ptr => exact hcut (by decide)
    | void | f32 | f64 | array | struct | function => exact .refused _
  | float bits =>
    cases layout with
    | f32 | f64 => exact .whole ((Bytes.length_ofNat ..).trans hroom.symm)
    | void | bool | int | ptr | array | struct | function => exact .refused _
  | global id =>
    cases layout with
    | ptr =>
      rw [access?, leaf?]
      cases find? entries id with
      | some e => exact .whole ((Bytes.length_ofNat ..).trans hroom.symm)
      | none => exact .refused _
    | void | bool | int | f32 | f64 | array | struct | function => exact .refused _
  | bytes data =>
    rw [access?, leaf?]
    by_cases hlong : layout.size < data.length
    · rw [if_pos hlong, if_pos hlong]
      exact .refused _
    · rw [if_neg hlong, if_neg hlong]
      exact .written (if_pos (by omega))
  | array items | struct fields => exact .refused _

/-! ## Pieces -/

/-- A constant of a type that is written at a position: a whole initializer or a part of one. -/
structure Piece where
  ty : IR.Ty
  position : Nat
  value : Constant

/-- Whether a constant is written part by part. -/
def inParts : Constant → Layout → Bool
  | .array _, .array _ _ => true
  | .struct _, .struct _ _ => true
  | _, _ => false

/-- The bytes of the image that belong to a place. -/
def room (bytes : List UInt8) (position size : Nat) : List UInt8 := (bytes.drop position).take size

theorem length_room {bytes : List UInt8} {size : Nat} (h : ¬ bytes.length < position + size) :
    (room bytes position size).length = size := by
  rw [room, List.length_take, List.length_drop]
  omega

/-- Make the access of a piece to its place. A constant with parts has no bytes other than those of
its parts. -/
def Piece.accessAt (entries : List Entry) (name : String) (bytes : List UInt8) (p : Piece)
    (layout : Layout) (start size : Nat) : Except Stop (List UInt8) :=
  if inParts p.value layout then return bytes
  else do
    let access ← (access? entries p.ty layout name p.value).mapError .refused
    match access.result? (room bytes start size) with
    | some new => return overwrite bytes start new
    | none => .error (.outOfRange name)

/-- Write a piece, if all of its place is there. -/
def Piece.write (limit : Nat) (entries : List Entry) (name : String) (bytes : List UInt8)
    (p : Piece) : Except Stop (List UInt8) :=
  match ofType limit p.ty with
  | .error e => .error (.refused (.unsupportedConstruct (.unmapped e) (.initializer name)))
  | .ok layout =>
    if bytes.length < p.position + layout.size then
      .error (.refused (.unsupportedConstruct (.overrun p.ty) (.initializer name)))
    else p.accessAt entries name bytes layout p.position layout.size

/-- A piece that cannot be written: a truth value whose place lies in the image and is empty. -/
def Piece.NoByte (limit : Nat) (bytes : List UInt8) (p : Piece) : Prop :=
  ∃ b layout, p.value = .bool b ∧ ofType limit p.ty = .ok layout ∧ layout.size = 0 ∧
    p.position ≤ bytes.length

/-- The ways in which a piece is not written. -/
inductive Piece.Stops (limit : Nat) (name : String) (bytes : List UInt8) (p : Piece) : Stop → Prop
  | refused (what : Construct) :
      Stops limit name bytes p (.refused (.unsupportedConstruct what (.initializer name)))
  | noByte (h : p.NoByte limit bytes) : Stops limit name bytes p (.outOfRange name)

/-- Bytes that are written back as they were make no difference. -/
theorem overwrite_append_room {bytes : List UInt8} {size : Nat}
    (h : ¬ bytes.length < position + size) :
    overwrite bytes position (data ++ (room bytes position size).drop data.length)
      = overwrite bytes position data := by
  have hrest : (room bytes position size).drop data.length
      = (bytes.drop (position + data.length)).take (size - data.length) := by
    rw [room, List.drop_take, List.drop_drop]
  have hback : ((room bytes position size).drop data.length).length = size - data.length := by
    rw [List.length_drop, length_room h]
  have hbehind : bytes.drop (position + (data.length + (size - data.length)))
      = (bytes.drop (position + data.length)).drop (size - data.length) := by
    rw [List.drop_drop, Nat.add_assoc]
  rw [overwrite, overwrite, List.length_append, hback, hrest, hbehind, List.append_assoc,
    List.append_assoc, List.append_assoc, List.take_append_drop]

section

variable {limit : Nat} {entries : List Entry} {name : String} {bytes : List UInt8} {p : Piece}
  {layout : Layout}

/-- A piece without parts is written as the bytes of its constant are. -/
theorem mapError_write (hlayout : ofType limit p.ty = .ok layout)
    (hparts : inParts p.value layout = false) :
    (p.write limit entries name bytes).mapError Stop.failure =
      if bytes.length < p.position + layout.size then
        .error (.unsupportedConstruct (.overrun p.ty) (.initializer name))
      else return overwrite bytes p.position (← leaf? entries p.ty layout name p.value) := by
  simp only [Piece.write, Piece.accessAt, hlayout, hparts]
  by_cases hfits : bytes.length < p.position + layout.size
  · rw [if_pos hfits, if_pos hfits]
    rfl
  · rw [if_neg hfits, if_neg hfits, if_neg Bool.false_ne_true]
    have haccessed := @accessed limit entries name p.ty layout p.value _ hlayout (length_room hfits)
    generalize access? entries p.ty layout name p.value = a at haccessed ⊢
    generalize leaf? entries p.ty layout name p.value = data at haccessed ⊢
    cases haccessed with
    | refused what => rfl
    | missing _ _ h =>
      simp only [Except.mapError, ok_bind, h]
      rfl
    | written h =>
      simp only [Except.mapError, ok_bind, h, overwrite_append_room hfits]
      rfl

/-- A piece is refused, or has no byte. -/
theorem write_fails :
    FailsWith (p.Stops limit name bytes) (p.write limit entries name bytes) := by
  rw [Piece.write]
  cases hlayout : ofType limit p.ty with
  | error e => exact .error (.refused _)
  | ok layout =>
    dsimp only
    by_cases hfits : bytes.length < p.position + layout.size
    · rw [if_pos hfits]
      exact .error (.refused _)
    · rw [if_neg hfits, Piece.accessAt]
      by_cases hparts : inParts p.value layout = true
      · rw [if_pos hparts]
        exact .ok bytes
      · rw [if_neg hparts]
        have haccessed :=
          @accessed limit entries name p.ty layout p.value _ hlayout (length_room hfits)
        generalize access? entries p.ty layout name p.value = a at haccessed ⊢
        generalize leaf? entries p.ty layout name p.value = data at haccessed
        cases haccessed with
        | refused what => exact .error (.refused what)
        | written h =>
          simp only [Except.mapError, ok_bind, h]
          exact .ok _
        | missing hvalue hroom h =>
          simp only [Except.mapError, ok_bind, h]
          have hsize : layout.size = 0 := by rw [← length_room hfits, hroom, List.length_nil]
          exact .error (.noByte ⟨_, layout, hvalue, hlayout, hsize, by omega⟩)

theorem write_of_noByte (h : p.NoByte limit bytes) :
    p.write limit entries name bytes = .error (.outOfRange name) := by
  obtain ⟨b, layout, hvalue, hlayout, hsize, hfits⟩ := h
  have hroom : room bytes p.position 0 = [] := List.take_zero
  simp only [Piece.write, Piece.accessAt, hlayout, hvalue, hsize, hroom]
  rw [if_neg (by omega)]
  rfl

end

mutual

/-- A constant and all parts of it, in the order in which they are written. -/
def pieces (limit : Nat) (ty : IR.Ty) (layout : Layout) (position : Nat) (value : Constant) :
    List Piece :=
  ⟨ty, position, value⟩ :: match value, layout with
    | .array items, .array elem _ =>
      itemPieces limit ((List.range items.length).map fun i => position + i * elem.stride) items
    | .struct fields, .struct packed ls =>
      itemPieces limit ((Layout.struct packed ls).offsets.map (position + ·)) fields
    | _, _ => []

/-- The pieces of several constants, as long as each has a position. There is nothing to tell of a
piece without a layout but that it is one. -/
def itemPieces (limit : Nat) : List Nat → List (IR.Ty × Constant) → List Piece
  | position :: positions, (ty, value) :: items =>
    match ofType limit ty with
    | .error _ => [⟨ty, position, value⟩]
    | .ok layout => pieces limit ty layout position value ++ itemPieces limit positions items
  | _, _ => []

end

/-- Writing pieces one after another, with the failure for the one that stops it. -/
def writeAll (limit : Nat) (entries : List Entry) (name : String) (bytes : List UInt8)
    (ps : List Piece) : Except Failure (List UInt8) :=
  (ps.foldlM (Piece.write limit entries name) bytes).mapError Stop.failure

section

variable {limit : Nat} {entries : List Entry} {name : String} {bytes : List UInt8}

theorem writeAll_cons (p : Piece) (ps : List Piece) :
    writeAll limit entries name bytes (p :: ps) =
      (p.write limit entries name bytes).mapError Stop.failure >>= fun bytes =>
        writeAll limit entries name bytes ps := by
  rw [writeAll, List.foldlM_cons, mapError_bind]
  rfl

theorem writeAll_append (ps qs : List Piece) :
    writeAll limit entries name bytes (ps ++ qs) =
      writeAll limit entries name bytes ps >>= fun bytes =>
        writeAll limit entries name bytes qs := by
  rw [writeAll, List.foldlM_append, mapError_bind]
  rfl

/-- A constant that is no list of parts is a piece by itself. -/
theorem encode_single {ty : IR.Ty} {layout : Layout} {value : Constant}
    (hlayout : ofType limit ty = .ok layout) (hparts : inParts value layout = false)
    (hencode : encode limit entries name ty layout position bytes value =
      if bytes.length < position + layout.size then
        .error (.unsupportedConstruct (.overrun ty) (.initializer name))
      else return overwrite bytes position (← leaf? entries ty layout name value)) :
    encode limit entries name ty layout position bytes value =
      writeAll limit entries name bytes [⟨ty, position, value⟩] := by
  rw [hencode, writeAll_cons, mapError_write hlayout hparts]
  exact (bind_pure _).symm

end

mutual

/-- Writing an initializer is writing its pieces. -/
theorem encode_eq_writeAll (limit : Nat) (entries : List Entry) (name : String) :
    (value : Constant) → (ty : IR.Ty) → (layout : Layout) → (position : Nat) →
    (bytes : List UInt8) → ofType limit ty = .ok layout →
    encode limit entries name ty layout position bytes value =
      writeAll limit entries name bytes (pieces limit ty layout position value)
  | .array items, ty, layout, position, bytes, hlayout => by
    cases layout with
    | array elem len =>
      simp only [encode, pieces, writeAll_cons, Piece.write, Piece.accessAt, hlayout, inParts]
      split
      · rfl
      · exact encodeItems_eq_writeAll limit entries name _ items bytes
    | _ =>
      simp only [pieces]
      exact encode_single hlayout rfl (by simp only [encode])
  | .struct fields, ty, layout, position, bytes, hlayout => by
    cases layout with
    | struct packed ls =>
      simp only [encode, pieces, writeAll_cons, Piece.write, Piece.accessAt, hlayout, inParts]
      split
      · rfl
      · exact encodeItems_eq_writeAll limit entries name _ fields bytes
    | _ =>
      simp only [pieces]
      exact encode_single hlayout rfl (by simp only [encode])
  | .int _, _, _, _, _, hlayout | .float _, _, _, _, _, hlayout | .bool _, _, _, _, _, hlayout
  | .null, _, _, _, _, hlayout | .undef, _, _, _, _, hlayout | .zero, _, _, _, _, hlayout
  | .bytes _, _, _, _, _, hlayout | .global _, _, _, _, _, hlayout => by
    simp only [pieces]
    exact encode_single hlayout rfl (by simp only [encode])

theorem encodeItems_eq_writeAll (limit : Nat) (entries : List Entry) (name : String) :
    (positions : List Nat) → (items : List (IR.Ty × Constant)) → (bytes : List UInt8) →
    encodeItems limit entries name bytes positions items =
      writeAll limit entries name bytes (itemPieces limit positions items)
  | position :: positions, (ty, value) :: items, bytes => by
    rw [encodeItems, itemPieces]
    cases hlayout : ofType limit ty with
    | error e =>
      simp only [writeAll_cons, Piece.write, hlayout]
      rfl
    | ok layout =>
      simp only [writeAll_append]
      rw [← encode_eq_writeAll limit entries name value ty layout position bytes hlayout]
      exact bind_congr fun bytes' =>
        encodeItems_eq_writeAll limit entries name positions items bytes'
  | [], [], _ | [], _ :: _, _ | _ :: _, [], _ => by
    simp only [encodeItems, itemPieces]
    rfl

end

/-! ## All globals -/

/-- The pieces of all initializers, each with the name of its global. -/
def allPieces (limit : Nat) (entries : List Entry) (globals : List Global) :
    List (String × Piece) :=
  globals.flatMap fun g =>
    match g.initializer, ofType limit g.ty with
    | some value, .ok layout =>
      let address := ((find? entries g.id).map Entry.address).getD nullGuard
      (pieces limit g.ty layout (address - nullGuard) value).map (g.name, ·)
    | _, _ => []

theorem fill_eq {limit : Nat} {entries : List Entry} {globals : List Global} {bytes : List UInt8}
    (hlayouts : ∀ g ∈ globals, ∃ layout, ofType limit g.ty = .ok layout) :
    fill limit entries bytes globals =
      ((allPieces limit entries globals).foldlM
        (fun bytes (q : String × Piece) => q.2.write limit entries q.1 bytes) bytes).mapError
        Stop.failure := by
  induction globals generalizing bytes with
  | nil => rfl
  | cons g gs ih =>
    obtain ⟨⟨layout, hlayout⟩, hlayouts⟩ := List.forall_mem_cons.mp hlayouts
    rw [fill, allPieces, List.flatMap_cons, List.foldlM_append, mapError_bind]
    cases g.initializer with
    | none => exact ih hlayouts
    | some value =>
      simp only [hlayout]
      rw [List.foldlM_map, encode_eq_writeAll limit entries g.name value g.ty layout _ _ hlayout]
      exact bind_congr fun bytes' => ih hlayouts

/-! ## Accesses in words -/

/-- Write a piece as a program does that computes in words. Nothing is a place that starts behind
its end. -/
def Piece.writeIn (b : Build) (limit : Nat) (entries : List Entry) (name : String)
    (bytes : List UInt8) (p : Piece) : Except Stop (List UInt8) :=
  match ofType limit p.ty with
  | .error e => .error (.refused (.unsupportedConstruct (.unmapped e) (.initializer name)))
  | .ok layout => do
    let size ← orStop name (layout.sizeIn b)
    let start ← orStop name (b.word p.position)
    let stop ← orStop name (b.word (start + size))
    if stop < start ∨ bytes.length < stop then
      .error (.refused (.unsupportedConstruct (.overrun p.ty) (.initializer name)))
    else p.accessAt entries name bytes layout start size

/-- The type of a piece has no layout, or its place ends in the words. -/
def Piece.endFits (limit : Nat) (p : Piece) : Bool :=
  match ofType limit p.ty with
  | .ok layout => p.position + layout.size < twoPow 64
  | .error _ => true

/-- The piece at the word for its position. -/
def Piece.wrapped (p : Piece) : Piece := { p with position := p.position % twoPow 64 }

/-- A piece whose access is out of range: where overflow is checked for, its place ends behind all
words; or it is a truth value without a byte. -/
def Piece.OutOfRange (b : Build) (limit : Nat) (bytes : List UInt8) (p : Piece) : Prop :=
  (b = .checked ∧ ∃ layout, ofType limit p.ty = .ok layout ∧
    twoPow 64 ≤ p.position + layout.size) ∨
  ∃ start, b.word p.position = some start ∧ Piece.NoByte limit bytes { p with position := start }

section

variable {b : Build} {limit : Nat} {entries : List Entry} {name : String} {bytes : List UInt8}
  {p : Piece} {layout : Layout}

theorem wrapped_of_lt (h : p.position < twoPow 64) : p.wrapped = p := by
  rw [Piece.wrapped, Nat.mod_eq_of_lt h]

/-- In words, a piece is written at the word for its position, if its place ends in the words. -/
theorem writeIn_eq (hlayout : ofType limit p.ty = .ok layout)
    (hfits : sizesFit limit p.ty = true) :
    p.writeIn b limit entries name bytes =
      if b = .checked ∧ twoPow 64 ≤ p.position + layout.size then .error (.outOfRange name)
      else if twoPow 64 ≤ p.wrapped.position + layout.size then
        .error (.refused (.unsupportedConstruct (.overrun p.ty) (.initializer name)))
      else p.wrapped.write limit entries name bytes := by
  have hsize := size_lt_of_sizesFit hlayout hfits
  -- a sum that is a word lies behind its first part, so only the end of the bytes is left to check
  have hbehind : ∀ start, ¬ start + layout.size < start :=
    fun start => Nat.not_lt.mpr (Nat.le_add_right ..)
  simp only [Piece.writeIn, hlayout, sizeIn_eq p.ty hlayout hfits, orStop, ok_bind]
  cases b with
  | checked =>
    by_cases hend : p.position + layout.size < twoPow 64
    · rw [wrapped_of_lt (by omega), Build.word_of_lt (by omega), if_neg (by omega),
        if_neg (by omega)]
      simp only [ok_bind, Build.word_of_lt hend, hbehind, false_or, Piece.write, hlayout]
    · rw [if_pos ⟨rfl, Nat.not_lt.mp hend⟩]
      by_cases hstart : p.position < twoPow 64
      · simp only [Build.word_of_lt hstart, ok_bind, Build.word_checked_of_ge (Nat.not_lt.mp hend)]
        rfl
      · rw [Build.word_checked_of_ge (Nat.not_lt.mp hstart)]
        rfl
  | wrapping =>
    have hstart : p.position % twoPow 64 < twoPow 64 := Nat.mod_lt _ (Nat.two_pow_pos 64)
    simp only [Build.word_wrapping, ok_bind, Piece.wrapped, Piece.write, hlayout, reduceCtorEq,
      false_and, if_false]
    by_cases hend : p.position % twoPow 64 + layout.size < twoPow 64
    · simp only [Nat.mod_eq_of_lt hend, hbehind, false_or, Nat.not_le.mpr hend, if_false]
      rfl
    · -- the end wraps around to a word before the start
      have hwraps :
          (p.position % twoPow 64 + layout.size) % twoPow 64 < p.position % twoPow 64 := by
        rw [Nat.mod_eq_sub_mod (Nat.not_lt.mp hend), Nat.mod_eq_of_lt (by omega)]
        omega
      simp only [hwraps, true_or, if_true, Nat.not_lt.mp hend]

/-- A piece whose place ends in the words is written as with exact numbers. -/
theorem writeIn_eq_write (hfits : sizesFit limit p.ty = true) (hend : p.endFits limit = true) :
    p.writeIn b limit entries name bytes = p.write limit entries name bytes := by
  cases hlayout : ofType limit p.ty with
  | error e => simp only [Piece.writeIn, Piece.write, hlayout]
  | ok layout =>
    rw [Piece.endFits, hlayout] at hend
    have hlt : p.position + layout.size < twoPow 64 := of_decide_eq_true hend
    rw [writeIn_eq hlayout hfits, wrapped_of_lt (by omega), if_neg (by omega), if_neg (by omega)]

/-- The word for a position, where overflow does not stop the program. -/
theorem word_eq_wrapped (h : ¬ (b = .checked ∧ twoPow 64 ≤ p.position + layout.size)) :
    b.word p.position = some p.wrapped.position := by
  cases b with
  | checked =>
    have hlt : p.position < twoPow 64 := by
      rw [eq_self, true_and] at h
      omega
    rw [wrapped_of_lt hlt, Build.word_of_lt hlt]
  | wrapping => exact Build.word_wrapping

/-- A piece is refused, or its access is out of range. -/
theorem writeIn_fails (hfits : sizesFit limit p.ty = true) :
    FailsWith (fun stop =>
      (∃ what, stop = .refused (.unsupportedConstruct what (.initializer name))) ∨
        stop = .outOfRange name ∧ p.OutOfRange b limit bytes)
      (p.writeIn b limit entries name bytes) := by
  cases hlayout : ofType limit p.ty with
  | error e =>
    simp only [Piece.writeIn, hlayout]
    exact .error (.inl ⟨_, rfl⟩)
  | ok layout =>
    rw [writeIn_eq hlayout hfits]
    split
    next hover => exact .error (.inr ⟨rfl, .inl ⟨hover.1, layout, hlayout, hover.2⟩⟩)
    next hover =>
      split
      next => exact .error (.inl ⟨_, rfl⟩)
      next =>
        refine write_fails.imp fun stop hstop => ?_
        cases hstop with
        | refused what => exact .inl ⟨what, rfl⟩
        | noByte h => exact .inr ⟨rfl, .inr ⟨_, word_eq_wrapped hover, h⟩⟩

theorem writeIn_of_outOfRange (hfits : sizesFit limit p.ty = true)
    (h : p.OutOfRange b limit bytes) :
    p.writeIn b limit entries name bytes = .error (.outOfRange name) := by
  rcases h with ⟨hb, layout, hlayout, hend⟩ | ⟨start, hstart, hnoByte⟩
  · rw [writeIn_eq hlayout hfits, if_pos ⟨hb, hend⟩]
  · have hwrite := @write_of_noByte limit entries name bytes _ hnoByte
    obtain ⟨-, layout, -, hlayout, hsize, -⟩ := hnoByte
    have hword : p.wrapped.position < twoPow 64 := Nat.mod_lt _ (Nat.two_pow_pos 64)
    rw [writeIn_eq (p := p) hlayout hfits]
    split
    next => rfl
    next hover =>
      obtain rfl := Option.some.inj (hstart.symm.trans (word_eq_wrapped hover))
      rw [if_neg (by omega)]
      exact hwrite

end

/-- Write a piece of the initializer of a global. -/
def writeNamed (b : Build) (limit : Nat) (entries : List Entry) (bytes : List UInt8)
    (q : String × Piece) : Except Stop (List UInt8) :=
  q.2.writeIn b limit entries q.1 bytes

/-- Write the initializers of globals piece by piece. -/
def writeGlobals (b : Build) (limit : Nat) (entries : List Entry) (bytes : List UInt8)
    (globals : List Global) : Except Stop (List UInt8) :=
  (allPieces limit entries globals).foldlM (writeNamed b limit entries) bytes

/-- Addresses and bytes of all globals, where all numbers are words and the bytes are written access
by access. -/
def byAccess (b : Build) (limit : Nat) (constName : GlobalId → String) (globals : List Global) :
    Except Stop Image := do
  let (entries, stop) ← placeIn b limit constName nullGuard globals
  let bytes ← writeGlobals b limit entries (List.replicate (stop - nullGuard) 0) globals
  return { entries, bytes }

/-- The pieces of all initializers where their globals are placed; none where that fails. -/
def placedPieces (limit : Nat) (constName : GlobalId → String) (globals : List Global) :
    List (String × Piece) :=
  match place limit constName nullGuard globals with
  | .ok (entries, _) => allPieces limit entries globals
  | .error _ => []

/-- The layout of globals fits in words: so do the places of the globals and the sizes of all types,
those that the parts of initializers carry among them. -/
structure Fits (limit : Nat) (constName : GlobalId → String) (globals : List Global) : Prop where
  places : placesFit limit nullGuard globals = true
  carried : ∀ q ∈ placedPieces limit constName globals, sizesFit limit q.2.ty = true

/-- The places of all pieces end in the words. -/
def PositionsFit (limit : Nat) (constName : GlobalId → String) (globals : List Global) : Prop :=
  ∀ q ∈ placedPieces limit constName globals, q.2.endFits limit = true

instance (limit : Nat) (constName : GlobalId → String) (globals : List Global) :
    Decidable (Fits limit constName globals) :=
  decidable_of_iff (placesFit limit nullGuard globals = true ∧
      ∀ q ∈ placedPieces limit constName globals, sizesFit limit q.2.ty = true)
    ⟨fun h => ⟨h.1, h.2⟩, fun h => ⟨h.places, h.carried⟩⟩

instance (limit : Nat) (constName : GlobalId → String) (globals : List Global) :
    Decidable (PositionsFit limit constName globals) :=
  inferInstanceAs (Decidable (∀ q ∈ placedPieces limit constName globals, _))

section

variable {b : Build} {limit : Nat} {constName : GlobalId → String} {globals : List Global}

theorem placedPieces_eq {entries : List Entry} {stop : Nat}
    (h : place limit constName nullGuard globals = .ok (entries, stop)) :
    placedPieces limit constName globals = allPieces limit entries globals := by
  rw [placedPieces, h]

theorem Fits.placeIn_eq (h : Fits limit constName globals) :
    placeIn b limit constName nullGuard globals =
      (place limit constName nullGuard globals).mapError .refused :=
  Layout.placeIn_eq h.places

theorem Fits.placeIn_eq_ok (h : Fits limit constName globals) {placed : List Entry × Nat} :
    placeIn b limit constName nullGuard globals = .ok placed ↔
      place limit constName nullGuard globals = .ok placed := by
  rw [h.placeIn_eq, mapError_eq_ok]

/-- Where all numbers are words, filling the image makes the accesses to its pieces. -/
theorem fill_eq_writeGlobals {entries : List Entry} {bytes : List UInt8}
    (hlayouts : ∀ g ∈ globals, ∃ layout, ofType limit g.ty = .ok layout)
    (hfits : ∀ q ∈ allPieces limit entries globals,
      sizesFit limit q.2.ty = true ∧ q.2.endFits limit = true) :
    fill limit entries bytes globals =
      (writeGlobals b limit entries bytes globals).mapError Stop.failure := by
  have hwrite : ∀ q ∈ allPieces limit entries globals, ∀ bytes,
      writeNamed b limit entries bytes q = q.2.write limit entries q.1 bytes :=
    fun q hq bytes => writeIn_eq_write (hfits q hq).1 (hfits q hq).2
  rw [fill_eq hlayouts, writeGlobals, foldlM_congr hwrite]

theorem Fits.carried_of_placeIn (h : Fits limit constName globals) {entries : List Entry}
    {stop : Nat} (hplace : placeIn b limit constName nullGuard globals = .ok (entries, stop)) :
    ∀ q ∈ allPieces limit entries globals, sizesFit limit q.2.ty = true :=
  placedPieces_eq (h.placeIn_eq_ok.mp hplace) ▸ h.carried

/-- Where all numbers are words, laying out globals makes these accesses, and no others. -/
theorem ofGlobals_eq (hfits : Fits limit constName globals)
    (hpositions : PositionsFit limit constName globals) :
    ofGlobals limit constName globals =
      (byAccess b limit constName globals).mapError Stop.failure := by
  rw [ofGlobals, byAccess, hfits.placeIn_eq]
  cases hplace : place limit constName nullGuard globals with
  | error e => rfl
  | ok placed =>
    obtain ⟨entries, stop⟩ := placed
    simp only [Except.mapError, ok_bind]
    have hwords : ∀ q ∈ allPieces limit entries globals,
        sizesFit limit q.2.ty = true ∧ q.2.endFits limit = true := by
      rw [← placedPieces_eq hplace]
      exact fun q hq => ⟨hfits.carried q hq, hpositions q hq⟩
    rw [fill_eq_writeGlobals (follows_of_place hplace).exists_layout hwords]
    cases writeGlobals b limit entries (List.replicate (stop - nullGuard) 0) globals <;> rfl

end

/-- Laying out globals ends with an image, or with a failure that names a type without a layout or a
global whose initializer has no encoding. -/
def Reported (globals : List Global) : Except Failure Image → Prop
  | .ok _ => True
  | .error (.unsupportedType _) => True
  | .error (.unsupportedConstruct _ (.initializer name)) => ∃ g ∈ globals, g.name = name
  | .error _ => False

/-- Writing comes to a piece of the global with a name: all pieces before it are written, which
gives the bytes. -/
def Reaches (b : Build) (limit : Nat) (constName : GlobalId → String) (globals : List Global)
    (name : String) (p : Piece) (bytes : List UInt8) : Prop :=
  ∃ entries stop before after, placeIn b limit constName nullGuard globals = .ok (entries, stop) ∧
    allPieces limit entries globals = before ++ (name, p) :: after ∧
    before.foldlM (writeNamed b limit entries) (List.replicate (stop - nullGuard) 0) = .ok bytes

section

variable {b : Build} {limit : Nat} {constName : GlobalId → String} {globals : List Global}

theorem exists_global_of_mem {entries : List Entry} {q : String × Piece}
    (h : q ∈ allPieces limit entries globals) : ∃ g ∈ globals, g.name = q.1 := by
  obtain ⟨g, hg, hq⟩ := List.mem_flatMap.mp h
  split at hq
  · obtain ⟨p, -, rfl⟩ := List.mem_map.mp hq
    exact ⟨g, hg, rfl⟩
  · cases hq

theorem place_error {cursor : Nat} :
    FailsWith (fun e => ∃ t, e = .unsupportedType t) (place limit constName cursor globals) := by
  induction globals generalizing cursor with
  | nil => exact .ok _
  | cons g gs ih =>
    rw [place]
    cases ofType limit g.ty with
    | error t => exact .error ⟨t, rfl⟩
    | ok layout => exact .bind ih fun _ _ => .ok _

/-- The two ways in which the accesses stop. -/
theorem byAccess_eq_error (hfits : Fits limit constName globals) {stop : Stop}
    (h : byAccess b limit constName globals = .error stop) :
    (∃ e, stop = .refused e ∧ Reported globals (.error e)) ∨
      ∃ name p bytes, stop = .outOfRange name ∧
        Reaches b limit constName globals name p bytes ∧ p.OutOfRange b limit bytes := by
  rw [byAccess] at h
  cases hplace : placeIn b limit constName nullGuard globals with
  | error stop' =>
    rw [hplace] at h
    cases h
    -- A placement that fits is the exact one, so it is refused for a type only.
    rw [hfits.placeIn_eq] at hplace
    cases hexact : place limit constName nullGuard globals with
    | error e =>
      rw [hexact] at hplace
      cases hplace
      obtain ⟨t, rfl⟩ := place_error e hexact
      exact .inl ⟨_, rfl, trivial⟩
    | ok placed =>
      rw [hexact] at hplace
      cases hplace
  | ok placed =>
    obtain ⟨entries, free⟩ := placed
    simp only [hplace, ok_bind] at h
    cases hfold : writeGlobals b limit entries (List.replicate (free - nullGuard) 0) globals with
    | ok bytes =>
      rw [hfold] at h
      cases h
    | error stop' =>
      rw [hfold] at h
      cases h
      obtain ⟨before, ⟨name, p⟩, after, bytes, hsplit, hbefore, hwrite⟩ := foldlM_eq_error.mp hfold
      have hmem : (name, p) ∈ allPieces limit entries globals := by
        rw [hsplit]
        exact List.mem_append_right _ List.mem_cons_self
      rcases writeIn_fails (hfits.carried_of_placeIn hplace _ hmem) _ hwrite with
        ⟨what, rfl⟩ | ⟨rfl, hrange⟩
      · exact .inl ⟨_, rfl, exists_global_of_mem hmem⟩
      · exact .inr ⟨name, p, bytes, rfl, ⟨_, _, _, _, hplace, hsplit, hbefore⟩, hrange⟩

theorem byAccess_of_reaches (hfits : Fits limit constName globals) {name : String} {p : Piece}
    {bytes : List UInt8} (h : Reaches b limit constName globals name p bytes)
    (hrange : p.OutOfRange b limit bytes) :
    byAccess b limit constName globals = .error (.outOfRange name) := by
  obtain ⟨entries, stop, before, after, hplace, hsplit, hbefore⟩ := h
  have hmem : (name, p) ∈ allPieces limit entries globals := by
    rw [hsplit]
    exact List.mem_append_right _ List.mem_cons_self
  have hwrite : writeNamed b limit entries bytes (name, p) = .error (.outOfRange name) :=
    writeIn_of_outOfRange (hfits.carried_of_placeIn hplace _ hmem) hrange
  have hfold := foldlM_eq_error.mpr ⟨before, _, after, bytes, hsplit, hbefore, hwrite⟩
  simp only [byAccess, hplace, ok_bind, writeGlobals, hfold]
  rfl

end

/-- **Accesses are in range but for truth values without a byte and overflow.** Let the layout of
globals, of any types and with any initializers, fit in words. Laying them out in words ends as it
should exactly if no access is out of range. One is exactly if writing comes to a truth value whose
type has no bytes or, where overflow is checked for, to a place that ends behind all words. If no
place does, then laying them out with exact numbers makes the same accesses. -/
theorem accesses_in_range_iff (b : Build) {limit : Nat} {constName : GlobalId → String}
    {globals : List Global} (hfits : Fits limit constName globals) :
    (PositionsFit limit constName globals → ofGlobals limit constName globals =
        (byAccess b limit constName globals).mapError Stop.failure) ∧
      (Reported globals ((byAccess b limit constName globals).mapError Stop.failure) ↔
        ∀ name, byAccess b limit constName globals ≠ .error (.outOfRange name)) ∧
      ∀ name, byAccess b limit constName globals = .error (.outOfRange name) ↔
        ∃ p bytes, Reaches b limit constName globals name p bytes ∧
          p.OutOfRange b limit bytes := by
  refine ⟨ofGlobals_eq hfits, ?_, fun name => ⟨fun h => ?_, ?_⟩⟩
  · cases h : byAccess b limit constName globals with
    | ok image => exact iff_of_true trivial (by simp)
    | error stop =>
      rcases byAccess_eq_error hfits h with ⟨e, rfl, hreported⟩ | ⟨name, _, _, rfl, -⟩
      · exact iff_of_true hreported (by simp)
      · exact iff_of_false (fun hfalse => hfalse) (by simp)
  · rcases byAccess_eq_error hfits h with ⟨e, hstop, -⟩ | ⟨name', p, bytes, hstop, hreaches, hrange⟩
    · cases hstop
    · cases hstop
      exact ⟨p, bytes, hreaches, hrange⟩
  · rintro ⟨p, bytes, hreaches, hrange⟩
    exact byAccess_of_reaches hfits hreaches hrange

/-- Constants that do not fit: too many elements, of other kinds than declared, one of them empty;
a structure with more constants than fields; an integer for a pointer, and one for a float. -/
def misfits : List Global :=
  [⟨⟨0⟩, "a", .array 2 (.int 8), false,
      some (.array [(.int 1, .bool true), (.int 16, .int 513), (.struct false [], .undef)]), none⟩,
    ⟨⟨1⟩, "s", .struct false [], false, some (.struct [(.int 1, .bool true)]), none⟩,
    ⟨⟨2⟩, "p", .ptr, false, some (.int (-1)), none⟩,
    ⟨⟨3⟩, "f", .float, false, some (.int 1), none⟩]

/-- Whatever becomes of them, no access is out of range. -/
theorem accesses_in_range_of_misfits :
    Fits 64 GlobalId.text misfits ∧ PositionsFit 64 GlobalId.text misfits ∧ ∀ b,
      (∀ name, byAccess b 64 GlobalId.text misfits ≠ .error (.outOfRange name)) ∧
      Reported misfits (ofGlobals 64 GlobalId.text misfits) := by
  have hfits : Fits 64 GlobalId.text misfits := by decide
  have hpositions : PositionsFit 64 GlobalId.text misfits := by decide
  refine ⟨hfits, hpositions, fun b => ?_⟩
  have hrange : ∀ name, byAccess b 64 GlobalId.text misfits ≠ .error (.outOfRange name) := by
    intro name h
    cases b <;> cases h
  obtain ⟨hsame, hreported, -⟩ := accesses_in_range_iff b hfits
  rw [hsame hpositions]
  exact ⟨hrange, hreported.mpr hrange⟩

/-- A truth value as the initializer of an array without elements. -/
def emptyTruthText : List UInt8 := "@x = global [0 x i8] true\n".toUTF8.toList

/-- Whether the accesses stop at one to the bytes of a global. -/
def stopsAt? (name : String) : Except Stop Image → Bool
  | .error (.outOfRange n) => n = name
  | _ => false

/-- A word, and an array without elements that has two all the same. They are so far apart that the
second one, a truth value without a byte, lies behind all words. -/
def distantGlobals : List Global :=
  [⟨⟨0⟩, "a", .int 64, false, some (.int 1), none⟩,
    ⟨⟨1⟩, "x", .array 0 (.array 2305843009213693951 (.int 64)), false,
      some (.array [(.array 0 (.int 8), .zero), (.array 0 (.int 8), .bool true)]), none⟩]

/-- Overflow stops a program that checks for it. Otherwise the position wraps around to the front of
the image, where the truth value has no byte either. -/
example : Fits 64 GlobalId.text distantGlobals ∧ ¬ PositionsFit 64 GlobalId.text distantGlobals ∧
    ∀ b ∈ [Build.checked, .wrapping],
      stopsAt? "x" (byAccess b 64 GlobalId.text distantGlobals) = true := by
  decide

theorem eq_of_stopsAt? {name : String} {x : Except Stop Image} (h : stopsAt? name x = true) :
    x = .error (.outOfRange name) := by
  unfold stopsAt? at h
  split at h
  next => rw [of_decide_eq_true h]
  next => cases h

/-- The truth value has no byte, however the program is built. -/
theorem truth_without_byte_out_of_range :
    ∃ m, IR.Module.read emptyTruthText = .ok m ∧ Fits 64 GlobalId.text m.globals ∧
      (∀ b, byAccess b 64 GlobalId.text m.globals = .error (.outOfRange "x")) ∧
      ofGlobals 64 GlobalId.text m.globals = .error (.noByte "x") ∧
      ¬ Reported m.globals (ofGlobals 64 GlobalId.text m.globals) := by
  have htest : okAnd (IR.Module.read emptyTruthText) (fun m =>
      stopsAt? "x" (byAccess .checked 64 GlobalId.text m.globals) &&
      stopsAt? "x" (byAccess .wrapping 64 GlobalId.text m.globals) &&
      decide (Fits 64 GlobalId.text m.globals ∧ PositionsFit 64 GlobalId.text m.globals)) =
      true := by
    decide +kernel
  obtain ⟨m, hm, htest⟩ := exists_of_okAnd htest
  rw [Bool.and_eq_true, Bool.and_eq_true, decide_eq_true_eq] at htest
  obtain ⟨⟨hchecked, hwrapping⟩, hfits, hpositions⟩ := htest
  have hrange : ∀ b, byAccess b 64 GlobalId.text m.globals = .error (.outOfRange "x") := by
    intro b
    cases b with
    | checked => exact eq_of_stopsAt? hchecked
    | wrapping => exact eq_of_stopsAt? hwrapping
  have hfails : ofGlobals 64 GlobalId.text m.globals = .error (.noByte "x") := by
    rw [@ofGlobals_eq .checked _ _ _ hfits hpositions, hrange]
    rfl
  refine ⟨m, hm, hfits, hrange, hfails, ?_⟩
  rw [hfails]
  exact fun hfalse => hfalse

end Layout.Image

end SafeIR
