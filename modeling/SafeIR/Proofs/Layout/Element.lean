import SafeIR.Proofs.Layout.Alignment
import SafeIR.Proofs.Layout.Typed

/-!
# Elements of objects

A path of numbers leads from an object to an element inside: at an array a number is that of an
element, at a structure that of a field. `Element` gives the place of the element in a layout.

Everything comes from what holds of one number: components lie inside (`Component.le`), they follow
one another in the order of their numbers (`Component.behind`), and they are aligned unless the
structure is packed. By induction on the path elements lie inside of the object, and two elements
overlap only if one of them lies inside of the other.
-/

namespace SafeIR.Layout

open IR (Ty)

/-! ## Paths into types -/

/-- The part of a type with a number, if there is one. -/
def typeAt? : Ty → Nat → Option Ty
  | .array len elem, i => if i < len then some elem else none
  | .struct _ fields, i => fields[i]?
  | _, _ => none

/-- The type at the end of a path. -/
def inner? : Ty → (path : List Nat) → Option Ty
  | ty, [] => some ty
  | ty, i :: path => (typeAt? ty i).bind (inner? · path)

def isPacked : Ty → Bool
  | .struct packed _ => packed
  | _ => false

/-- No packed structure is entered on a path. -/
def Unpacked : Ty → (path : List Nat) → Prop
  | _, [] => True
  | ty, i :: path => isPacked ty = false ∧ ∀ part, typeAt? ty i = some part → Unpacked part path

/-! ## Paths into layouts -/

/-- A layout has another as a component with a number, from `offset` on. -/
inductive Component : Layout → Nat → (offset : Nat) → Layout → Prop where
  | element {elem : Layout} {len i : Nat} (hi : i < len) :
      Component (array elem len) i (i * elem.stride) elem
  | field {packed : Bool} {fields : List Layout} {field : Layout} {i offset : Nat}
      (hfield : fields[i]? = some field)
      (hoffset : (offsetsFrom packed 0 fields)[i]? = some offset) :
      Component (struct packed fields) i offset field

/-- A path leads to an element of a layout, which starts at `offset`. -/
inductive Element : Layout → (path : List Nat) → (offset : Nat) → Layout → Prop where
  | here {l : Layout} : Element l [] 0 l
  | inside {l c e : Layout} {i offset more : Nat} {path : List Nat}
      (hcomponent : Component l i offset c) (helement : Element c path more e) :
      Element l (i :: path) (offset + more) e

namespace Component

variable {l c c' : Layout} {i j offset offset' : Nat}

theorem unique (h : Component l i offset c) (h' : Component l i offset' c') :
    offset = offset' ∧ c = c' := by
  cases h with
  | element => cases h' with | element => exact ⟨rfl, rfl⟩
  | field hfield hoffset =>
    cases h' with
    | field hfield' hoffset' =>
      cases hfield.symm.trans hfield'
      cases hoffset.symm.trans hoffset'
      exact ⟨rfl, rfl⟩

/-- A component lies inside. -/
theorem le (h : Component l i offset c) : offset + c.size ≤ l.size := by
  cases h with
  | @element elem len i hi =>
    have hstride := size_le_stride c
    have hmul : (i + 1) * c.stride ≤ len * c.stride := Nat.mul_le_mul_right _ hi
    rw [Nat.succ_mul] at hmul
    show i * c.stride + c.size ≤ c.stride * len
    rw [Nat.mul_comm c.stride]
    omega
  | @field packed fields _ _ _ hfield hoffset =>
    have hspaced := spaced_offsets 0 packed 0 fields
    have hbounds := hspaced.bounds (p := offset) (by simpa using hoffset) hfield
    have hsize := le_alignUp (endOffset packed 0 fields) (if packed then 1 else maxAlign fields)
    rw [size]
    omega

/-- A component with a higher number starts behind the end. -/
theorem behind (h : Component l i offset c) (h' : Component l j offset' c') (hlt : i < j) :
    offset + c.size ≤ offset' := by
  cases h with
  | element =>
    cases h' with
    | element =>
      have hstride := size_le_stride c
      have hmul : (i + 1) * c.stride ≤ j * c.stride := Nat.mul_le_mul_right _ hlt
      rw [Nat.succ_mul] at hmul
      omega
  | @field packed fields _ _ _ hfield hoffset =>
    cases h' with
    | field hfield' hoffset' =>
      have hspaced := spaced_offsets 0 packed 0 fields
      exact hspaced.behind (p := offset) (q := offset') (by simpa using hoffset) hfield
        (by simpa using hoffset') hlt

end Component

/-- A field of a structure that is not packed stands at a multiple of its alignment. -/
theorem align_dvd_offset {ls : List Layout} {l : Layout} {start i offset : Nat} (hpos : 0 < l.align)
    (hl : ls[i]? = some l) (hoffset : (offsetsFrom false start ls)[i]? = some offset) :
    l.align ∣ offset := by
  induction ls generalizing start i with
  | nil => cases hl
  | cons l' ls ih =>
    cases i with
    | zero =>
      cases hl
      cases hoffset
      exact dvd_alignUp_of_pos start hpos
    | succ i => exact ih hl hoffset

/-! ## What types say about layouts -/

section

variable {limit : Nat} {ty part : Ty} {l : Layout} {i : Nat}

/-- The parts of a type are components of its layout, and aligned ones if it is not packed. -/
theorem exists_component (hl : ofType limit ty = .ok l) (hpart : typeAt? ty i = some part) :
    ∃ offset c, Component l i offset c ∧ ofType limit part = .ok c ∧
      (isPacked ty = false → c.align ∣ offset ∧ c.align ∣ l.align) := by
  cases ty with
  | array len elem =>
    obtain ⟨e, he, rfl⟩ := ofType_array_eq_ok.mp hl
    obtain ⟨hi, heq⟩ := Option.ite_none_right_eq_some.mp hpart
    cases heq
    refine ⟨_, e, .element hi, he, fun _ => ⟨?_, Nat.dvd_refl _⟩⟩
    exact Nat.dvd_mul_left_of_dvd (dvd_alignUp_of_pos _ (powerOfTwo_align part he).pos) i
  | struct packed fields =>
    obtain ⟨ls, hls, rfl⟩ := ofType_struct_eq_ok.mp hl
    obtain ⟨c, hc, hpartc⟩ := getElem?_of_mapM_left (ofTypes_eq_mapM fields ▸ hls) hpart
    have hlen : i < (offsetsFrom packed 0 ls).length := by
      have hspaced := (spaced_offsets 0 packed 0 ls).length_eq
      rw [List.length_map] at hspaced
      rw [hspaced]
      exact (List.getElem?_eq_some_iff.mp hc).1
    have hoffset := List.getElem?_eq_getElem hlen
    refine ⟨_, c, .field hc hoffset, hpartc, ?_⟩
    rintro rfl
    have hpow := powerOfTwo_align part hpartc
    exact ⟨align_dvd_offset hpow.pos hc hoffset, hpow.dvd_of_le (powerOfTwo_maxAlign fields hls)
      (align_le_maxAlign (List.mem_of_getElem? hc))⟩
  | _ => cases hpart

/-- A path into a type leads to an element of its layout. -/
theorem exists_element {path : List Nat} {final : Ty} (hl : ofType limit ty = .ok l)
    (hfinal : inner? ty path = some final) :
    ∃ offset e, Element l path offset e ∧ ofType limit final = .ok e ∧
      (Unpacked ty path → e.align ∣ offset ∧ e.align ∣ l.align) := by
  induction path generalizing ty l with
  | nil =>
    cases hfinal
    exact ⟨0, l, .here, hl, fun _ => ⟨Nat.dvd_zero _, Nat.dvd_refl _⟩⟩
  | cons i path ih =>
    obtain ⟨part, hpart, hfinal⟩ := Option.bind_eq_some_iff.mp hfinal
    obtain ⟨offset, c, hc, hpartc, halign⟩ := exists_component hl hpart
    obtain ⟨more, e, he, hfinale, hinner⟩ := ih hpartc hfinal
    refine ⟨offset + more, e, .inside hc he, hfinale, ?_⟩
    rintro ⟨hty, hrest⟩
    obtain ⟨hoffset, hdvd⟩ := halign hty
    obtain ⟨hmore, hdvd'⟩ := hinner (hrest part hpart)
    exact ⟨Nat.dvd_add (Nat.dvd_trans hdvd' hoffset) hmore, Nat.dvd_trans hdvd' hdvd⟩

end

/-! ## Elements lie inside and apart -/

namespace Element

theorem le {l e : Layout} {path : List Nat} {offset : Nat} (h : Element l path offset e) :
    offset + e.size ≤ l.size := by
  induction h with
  | here => exact Nat.le_of_eq (Nat.zero_add _)
  | inside hcomponent _ ih =>
    have hle := hcomponent.le
    omega

/-- Elements overlap only if one lies inside of the other. -/
theorem disjoint {l e e' : Layout} {path path' : List Nat} {offset offset' : Nat}
    (h : Element l path offset e) (h' : Element l path' offset' e') (hne : ¬ path <+: path')
    (hne' : ¬ path' <+: path) : Span.Disjoint ⟨offset, e.size⟩ ⟨offset', e'.size⟩ := by
  induction h generalizing path' offset' with
  | here => exact absurd List.nil_prefix hne
  | @inside l c e i offset more path hc he ih =>
    cases h' with
    | here => exact absurd List.nil_prefix hne'
    | @inside _ c' _ j offset' more' path' hc' he' =>
      have hle := he.le
      have hle' := he'.le
      rcases Nat.lt_trichotomy i j with hlt | rfl | hlt
      · -- all of the first component lies before the second
        have hbehind := hc.behind hc' hlt
        exact .inl (by simp only [Span.stop]; omega)
      · obtain ⟨rfl, rfl⟩ := hc.unique hc'
        rw [List.prefix_cons_inj] at hne hne'
        rcases ih he' hne hne' with hbefore | hbefore
        · exact .inl (by simp only [Span.stop] at hbefore ⊢; omega)
        · exact .inr (by simp only [Span.stop] at hbefore ⊢; omega)
      · have hbehind := hc'.behind hc hlt
        exact .inr (by simp only [Span.stop]; omega)

end Element

end SafeIR.Layout
