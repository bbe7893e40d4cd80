import SafeIR.Proofs.Layout.Extent
import SafeIR.Proofs.Reader.Reference

/-!
# Globals without an image

Why the globals of a module get no image: a global has a type without a layout, an initializer does
not fit the place of its global, or a truth value stands where there are no bytes. A reference from
an initializer to a global always finds it, since all globals have their places before the first
initializer is written.
-/

namespace SafeIR.Layout.Image

open IR (Constant Global GlobalId)

variable {globals : List Global} {constName : GlobalId → String}

/-- Somewhere in a constant there is a truth value of a type without bytes. -/
inductive Bodiless (limit : Nat) : IR.Ty → Constant → Prop
  | bool {ty : IR.Ty} {layout : Layout} {b : Bool} (hlayout : ofType limit ty = .ok layout)
      (hsize : layout.size = 0) : Bodiless limit ty (.bool b)
  | array {ty : IR.Ty} {items : List (IR.Ty × Constant)} {item : IR.Ty × Constant}
      (hitem : item ∈ items) (h : Bodiless limit item.1 item.2) : Bodiless limit ty (.array items)
  | struct {ty : IR.Ty} {fields : List (IR.Ty × Constant)} {field : IR.Ty × Constant}
      (hfield : field ∈ fields) (h : Bodiless limit field.1 field.2) :
      Bodiless limit ty (.struct fields)

/-- How the initializer of a global with a name fails; `bodiless` says when a byte is missing. -/
inductive Unwritten (name : String) (bodiless : Prop) : Failure → Prop
  | construct {what : Construct} (hwhat : ∀ id, what ≠ .strayReference id) :
      Unwritten name bodiless (.unsupportedConstruct what (.initializer name))
  | noByte (h : bodiless) : Unwritten name bodiless (.noByte name)

theorem Unwritten.imp {name : String} {p q : Prop} (hpq : p → q) {e : Failure}
    (h : Unwritten name p e) : Unwritten name q e := by
  cases h with
  | construct hwhat => exact .construct hwhat
  | noByte h => exact .noByte (hpq h)

/-- The globals that are referred to have places. -/
def Finds (entries : List Entry) (rs : List IR.Reference) : Prop :=
  ∀ id, .global id ∈ rs → ∃ e, find? entries id = some e

section

variable {limit : Nat} {entries : List Entry} {name : String}

theorem leaf?_fails {ty : IR.Ty} {layout : Layout} {value : Constant}
    (hlayout : ofType limit ty = .ok layout) (hfinds : Finds entries value.references) :
    FailsWith (Unwritten name (Bodiless limit ty value)) (leaf? entries ty layout name value) := by
  cases value with
  | zero | undef | null => exact .ok _
  | bool b =>
    rw [leaf?]
    split
    next hsize => exact .error (.noByte (.bool hlayout hsize))
    next => exact .ok _
  | int v =>
    cases layout with
    | bool | int _ | ptr => exact .ok _
    | _ => exact .error (.construct (by simp))
  | float bits =>
    cases layout with
    | f32 | f64 => exact .ok _
    | _ => exact .error (.construct (by simp))
  | global id =>
    cases layout with
    | ptr =>
      -- the one look-up, and it cannot fail
      obtain ⟨e, he⟩ := hfinds id List.mem_cons_self
      rw [leaf?, he]
      exact .ok _
    | _ => exact .error (.construct (by simp))
  | bytes data =>
    rw [leaf?]
    split
    · exact .error (.construct (by simp))
    · exact .ok _
  | array items | struct fields => exact .error (.construct (by simp))

/-- A constant that is written in one piece. -/
theorem piece_fails {ty : IR.Ty} {layout : Layout} {position : Nat} {bytes : List UInt8}
    {value : Constant} (hlayout : ofType limit ty = .ok layout)
    (hfinds : Finds entries value.references) :
    FailsWith (Unwritten name (Bodiless limit ty value))
      (if bytes.length < position + layout.size then
        .error (.unsupportedConstruct (.overrun ty) (.initializer name))
      else return overwrite bytes position (← leaf? entries ty layout name value)) := by
  split
  · exact .error (.construct (by simp))
  · exact .bind (leaf?_fails hlayout hfinds) fun data _ => .ok _

mutual

theorem encode_fails (limit : Nat) (entries : List Entry) (name : String) :
    (value : Constant) → (ty : IR.Ty) → (layout : Layout) → (position : Nat) →
    (bytes : List UInt8) → ofType limit ty = .ok layout → Finds entries value.references →
    FailsWith (Unwritten name (Bodiless limit ty value))
      (encode limit entries name ty layout position bytes value)
  | .array items, ty, layout, position, bytes, hlayout, hfinds => by
    cases layout with
    | array elem len =>
      rw [encode]
      split
      · exact .error (.construct (by simp))
      · refine (encodeItems_fails limit entries name _ items bytes hfinds).imp fun e =>
          Unwritten.imp ?_
        rintro ⟨item, hitem, h⟩
        exact .array hitem h
    | _ =>
      simp only [encode]
      exact piece_fails hlayout hfinds
  | .struct fields, ty, layout, position, bytes, hlayout, hfinds => by
    cases layout with
    | struct packed ls =>
      rw [encode]
      split
      · exact .error (.construct (by simp))
      · refine (encodeItems_fails limit entries name _ fields bytes hfinds).imp fun e =>
          Unwritten.imp ?_
        rintro ⟨field, hfield, h⟩
        exact .struct hfield h
    | _ =>
      simp only [encode]
      exact piece_fails hlayout hfinds
  | .int _, _, _, _, _, hlayout, hfinds | .float _, _, _, _, _, hlayout, hfinds
  | .bool _, _, _, _, _, hlayout, hfinds | .null, _, _, _, _, hlayout, hfinds
  | .undef, _, _, _, _, hlayout, hfinds | .zero, _, _, _, _, hlayout, hfinds
  | .bytes _, _, _, _, _, hlayout, hfinds | .global _, _, _, _, _, hlayout, hfinds => by
    simp only [encode]
    exact piece_fails hlayout hfinds

theorem encodeItems_fails (limit : Nat) (entries : List Entry) (name : String) :
    (positions : List Nat) → (items : List (IR.Ty × Constant)) → (bytes : List UInt8) →
    Finds entries (Constant.itemReferences items) →
    FailsWith (Unwritten name (∃ item ∈ items, Bodiless limit item.1 item.2))
      (encodeItems limit entries name bytes positions items)
  | position :: positions, (ty, value) :: items, bytes, hfinds => by
    simp only [encodeItems]
    cases hlayout : ofType limit ty with
    | error e => exact .error (.construct (by simp))
    | ok layout =>
      refine .bind ?_ fun bytes' _ => ?_
      · refine (encode_fails limit entries name value ty layout position bytes hlayout
          fun id hid => hfinds id (List.mem_append_left _ hid)).imp fun e => Unwritten.imp ?_
        exact fun h => ⟨(ty, value), List.mem_cons_self, h⟩
      · refine (encodeItems_fails limit entries name positions items bytes'
          fun id hid => hfinds id (List.mem_append_right _ hid)).imp fun e => Unwritten.imp ?_
        rintro ⟨item, hitem, h⟩
        exact ⟨item, List.mem_cons_of_mem _ hitem, h⟩
  | [], [], _, _ | [], _ :: _, _, _ | _ :: _, [], _, _ => by
    simp only [encodeItems]
    exact .ok _

end

/-- How the globals of a module fail to get an image. -/
inductive Refuses (limit : Nat) (globals : List Global) : Failure → Prop
  | type {g : Global} (hg : g ∈ globals) {t : UnsupportedType}
      (ht : ofType limit g.ty = .error t) : Refuses limit globals (.unsupportedType t)
  | construct {g : Global} (hg : g ∈ globals) {what : Construct}
      (hwhat : ∀ id, what ≠ .strayReference id) :
      Refuses limit globals (.unsupportedConstruct what (.initializer g.name))
  | noByte {g : Global} (hg : g ∈ globals) {value : Constant}
      (hvalue : g.initializer = some value) (h : Bodiless limit g.ty value) :
      Refuses limit globals (.noByte g.name)

theorem place_fails {cursor : Nat} {gs : List Global} (hgs : gs ⊆ globals) :
    FailsWith (Refuses limit globals) (place limit constName cursor gs) := by
  induction gs generalizing cursor with
  | nil => exact .ok _
  | cons g gs ih =>
    obtain ⟨hg, hgs⟩ := List.cons_subset.mp hgs
    rw [place]
    cases ht : ofType limit g.ty with
    | error t => exact .error (.type hg ht)
    | ok layout => exact .bind (ih hgs) fun rest _ => .ok _

theorem fill_fails {bytes : List UInt8} {gs : List Global} (hgs : gs ⊆ globals)
    (hfinds : ∀ g ∈ gs, ∀ value, g.initializer = some value → Finds entries value.references) :
    FailsWith (Refuses limit globals) (fill limit entries bytes gs) := by
  induction gs generalizing bytes with
  | nil => exact .ok _
  | cons g gs ih =>
    obtain ⟨hg, hgs⟩ := List.cons_subset.mp hgs
    obtain ⟨hvalue, hvalues⟩ := List.forall_mem_cons.mp hfinds
    rw [fill]
    cases hinit : g.initializer with
    | none => exact ih hgs hvalues
    | some value =>
      cases ht : ofType limit g.ty with
      | error t => exact .error (.type hg ht)
      | ok layout =>
        refine .bind ?_ fun bytes' _ => ih hgs hvalues
        refine (encode_fails limit entries g.name value g.ty layout _ bytes ht
          (hvalue value hinit)).imp fun e he => ?_
        cases he with
        | construct hwhat => exact .construct hg hwhat
        | noByte h => exact .noByte hg hinit h

/-- Places are found for all numbers up to the number of globals. -/
theorem finds_of_place {cursor stop : Nat}
    (hids : ∀ (i : Nat) (g : Global), globals[i]? = some g → g.id = ⟨i⟩)
    (h : place limit constName cursor globals = .ok (entries, stop)) {id : GlobalId}
    (hid : id.index < globals.length) : ∃ e, find? entries id = some e := by
  refine exists_find? ?_
  rw [map_id_place h]
  have hget := List.getElem?_eq_getElem hid
  exact List.mem_map.mpr ⟨_, List.mem_of_getElem? hget, hids _ _ hget⟩

theorem ofGlobals_fails {functions : Nat}
    (hids : ∀ (i : Nat) (g : Global), globals[i]? = some g → g.id = ⟨i⟩)
    (hinit : ∀ g ∈ globals, ∀ value, g.initializer = some value →
      ∀ r ∈ value.references, r.Within globals.length functions 0 0) :
    FailsWith (Refuses limit globals) (ofGlobals limit constName globals) := by
  refine .bind (place_fails (List.Subset.refl _)) fun placed hplaced => ?_
  refine .bind (fill_fails (List.Subset.refl _) fun g hg value hvalue id hid => ?_) fun _ _ => .ok _
  exact finds_of_place hids hplaced (hinit g hg value hvalue _ hid)

end

end SafeIR.Layout.Image
