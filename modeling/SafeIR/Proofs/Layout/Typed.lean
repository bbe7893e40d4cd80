import SafeIR.Proofs.Layout.Extent
import SafeIR.Proofs.Layout.Natural

/-!
# Well-typed constants and their scalars

A constant is well typed at a type if each of its pieces carries the type that stands there in the
declaration. `Leaf` walks down to the scalars of such a constant: it has each with the offset that
the natural layout gives it.

What comes of it here are bounds. Pieces of an aggregate follow one another (`Spaced`), so a scalar
ends inside its type and a well-typed initializer is written to its own place only.
-/

namespace SafeIR.Layout

open IR (Ty Constant)

variable {limit : Nat} {l e : Layout} {c : Constant} {ls : List Layout} {elem ty : Ty}
  {ps : List Nat} {s : Scalar}

/-! ## Constants of a type -/

/-- The constant is one of the type. -/
inductive WellTyped : Ty → Constant → Prop where
  | int {bits : Nat} {v : Int} : WellTyped (.int bits) (.int v)
  | address {v : Int} : WellTyped .ptr (.int v)
  | bool {b : Bool} : WellTyped (.int 1) (.bool b)
  | double {bits : Nat} : WellTyped .double (.float bits)
  | global {id : IR.GlobalId} : WellTyped .ptr (.global id)
  | zero {ty : Ty} : WellTyped ty .zero
  | undef {ty : Ty} : WellTyped ty .undef
  | null {ty : Ty} : WellTyped ty .null
  | bytes {len : Nat} {data : List UInt8} (hlen : data.length = len) :
      WellTyped (.array len (.int 8)) (.bytes data)
  | array {len : Nat} {elem : Ty} {items : List (Ty × Constant)} (hlen : items.length = len)
      (helem : ∀ item ∈ items, item.1 = elem) (hitems : ∀ item ∈ items, WellTyped item.1 item.2) :
      WellTyped (.array len elem) (.array items)
  | struct {packed : Bool} {fields : List Ty} {items : List (Ty × Constant)}
      (hfields : items.map Prod.fst = fields) (hitems : ∀ item ∈ items, WellTyped item.1 item.2) :
      WellTyped (.struct packed fields) (.struct items)

/-- The scalar that a type is, if it has no parts. -/
def scalarOf? : Ty → Option Scalar
  | .int bits => some (if bits = 1 then .bool else .int bits)
  | .float => some .f32
  | .double => some .f64
  | .ptr => some .ptr
  | _ => none

/-- The bytes that a scalar takes. -/
def Scalar.bytes (s : Scalar) : Nat := (s.bits + 7) / 8

/-- A part of a constant. All parts of a constant without content are again without. -/
def part? : Constant → Nat → Option Constant
  | .array items, i | .struct items, i => items[i]?.map Prod.snd
  | .bytes data, i => data[i]?.map fun b => .int b.toNat
  | .zero, _ => some .zero
  | .undef, _ => some .undef
  | .null, _ => some .null
  | _, _ => none

/-- A constant of a type has, at an offset, a scalar with a value. -/
inductive Leaf : Ty → Constant → (offset : Nat) → Scalar → (value : Constant) → Prop where
  | scalar {ty : Ty} {s : Scalar} {c : Constant} (hs : scalarOf? ty = some s) : Leaf ty c 0 s c
  | element {len : Nat} {elem : Ty} {c part value : Constant} {i o size align stride : Nat}
      {s : Scalar} (hi : i < len) (hpart : part? c i = some part) (helem : Occupies elem size align)
      (hstride : LeastMultiple align size stride) (hleaf : Leaf elem part o s value) :
      Leaf (.array len elem) c (i * stride + o) s value
  | field {packed : Bool} {fields : List Ty} {ty : Ty} {c part value : Constant}
      {i o offset stop align : Nat} {offsets : List Nat} {s : Scalar}
      (hty : fields[i]? = some ty) (hpart : part? c i = some part)
      (hlays : Lays packed 0 fields offsets stop align) (hoffset : offsets[i]? = some offset)
      (hleaf : Leaf ty part o s value) : Leaf (.struct packed fields) c (offset + o) s value

theorem WellTyped.element {len : Nat} (h : WellTyped (.array len elem) c) {i : Nat} (hi : i < len) :
    ∃ part, part? c i = some part ∧ WellTyped elem part := by
  cases h with
  | zero => exact ⟨_, rfl, .zero⟩
  | undef => exact ⟨_, rfl, .undef⟩
  | null => exact ⟨_, rfl, .null⟩
  | bytes hlen =>
    rw [← hlen] at hi
    exact ⟨_, by rw [part?, List.getElem?_eq_getElem hi]; rfl, .int⟩
  | @array _ _ items hlen helem hitems =>
    rw [← hlen] at hi
    have hmem : items[i] ∈ items := List.getElem_mem hi
    refine ⟨items[i].2, by rw [part?, List.getElem?_eq_getElem hi]; rfl, ?_⟩
    exact helem _ hmem ▸ hitems _ hmem

theorem WellTyped.field {packed : Bool} {fields : List Ty} (h : WellTyped (.struct packed fields) c)
    {i : Nat} {ty : Ty} (hty : fields[i]? = some ty) :
    ∃ part, part? c i = some part ∧ WellTyped ty part := by
  cases h with
  | zero => exact ⟨_, rfl, .zero⟩
  | undef => exact ⟨_, rfl, .undef⟩
  | null => exact ⟨_, rfl, .null⟩
  | @struct _ _ items hfields hitems =>
    rw [← hfields, List.getElem?_map, Option.map_eq_some_iff] at hty
    obtain ⟨item, hitem, rfl⟩ := hty
    exact ⟨item.2, by rw [part?, hitem]; rfl, hitems _ (List.mem_of_getElem? hitem)⟩

/-- Where one constant of a type has a scalar, every well-typed one has one. -/
theorem WellTyped.exists_leaf {other v : Constant} {o : Nat} (hc : WellTyped ty c)
    (h : Leaf ty other o s v) : ∃ v', Leaf ty c o s v' := by
  induction h generalizing c with
  | scalar hs => exact ⟨c, .scalar hs⟩
  | element hi _ helem hstride _ ih =>
    obtain ⟨part, hpart, htyped⟩ := hc.element hi
    obtain ⟨v', hleaf⟩ := ih htyped
    exact ⟨v', .element hi hpart helem hstride hleaf⟩
  | field hty _ hlays hoffset _ ih =>
    obtain ⟨part, hpart, htyped⟩ := hc.field hty
    obtain ⟨v', hleaf⟩ := ih htyped
    exact ⟨v', .field hty hpart hlays hoffset hleaf⟩

/-! ## Layouts of scalars and of lists of types -/

/-- A layout of a scalar type has its bytes; there is at least one. -/
theorem size_of_scalarOf? (hs : scalarOf? ty = some s) (hl : ofType limit ty = .ok l) :
    l.size = s.bytes ∧ 0 < s.bytes := by
  cases ty with
  | int bits =>
    cases hs
    rcases ofLeaf_int hl with ⟨rfl, rfl⟩ | ⟨hbits, rfl⟩
    · exact ⟨rfl, by decide⟩
    · simp only [List.mem_cons, List.not_mem_nil, or_false] at hbits
      rcases hbits with rfl | rfl | rfl | rfl | rfl <;> exact ⟨rfl, by decide⟩
  | float | double | ptr =>
    cases hs
    cases hl
    exact ⟨rfl, by decide⟩
  | void | half | x86Fp80 | fp128 | label | metadata | array | struct | function => cases hs

theorem stride_of_leastMultiple {size align stride : Nat} (he : ofType limit elem = .ok e)
    (helem : Occupies elem size align) (hstride : LeastMultiple align size stride) :
    stride = e.stride := by
  obtain ⟨hpos, hiff⟩ := occupies_iff elem he
  obtain ⟨rfl, rfl⟩ := (hiff _ _).mp helem
  exact (leastMultiple_iff hpos).mp hstride

theorem ofType_byteArray {len : Nat} (hl : ofType limit (.array len (.int 8)) = .ok l) :
    l = array (int 8) len := by
  obtain ⟨e, he, rfl⟩ := ofType_array_eq_ok.mp hl
  rcases ofLeaf_int he with ⟨h, -⟩ | ⟨-, rfl⟩
  · cases h
  · rfl

theorem size_byteArray (len : Nat) : (array (int 8) len).size = len := Nat.one_mul len

theorem size_le_stride (l : Layout) : l.size ≤ l.stride := le_alignUp ..

/-! ## Pieces that follow one another -/

/-- Layouts at positions, each behind the one before it, between two bounds. -/
inductive Spaced : (low : Nat) → List Nat → List Layout → (high : Nat) → Prop where
  | nil {low high : Nat} (hle : low ≤ high) : Spaced low [] [] high
  | cons {low high p : Nat} {ps : List Nat} {l : Layout} {ls : List Layout} (hlow : low ≤ p)
      (hrest : Spaced (p + l.size) ps ls high) : Spaced low (p :: ps) (l :: ls) high

namespace Spaced

variable {low high : Nat}

theorem le (h : Spaced low ps ls high) : low ≤ high := by
  induction h with
  | nil hle => exact hle
  | cons hlow _ ih => omega

theorem mono (h : Spaced low ps ls high) {low' : Nat} (hle : low' ≤ low) :
    Spaced low' ps ls high := by
  cases h with
  | nil h => exact .nil (Nat.le_trans hle h)
  | cons hlow hrest => exact .cons (Nat.le_trans hle hlow) hrest

theorem length_eq (h : Spaced low ps ls high) : ps.length = ls.length := by
  induction h with
  | nil => rfl
  | cons _ _ ih => rw [List.length_cons, List.length_cons, ih]

theorem bounds (h : Spaced low ps ls high) {i p : Nat} (hp : ps[i]? = some p)
    (hl : ls[i]? = some l) : low ≤ p ∧ p + l.size ≤ high := by
  induction h generalizing i with
  | nil => cases hp
  | cons hlow hrest ih =>
    cases i with
    | zero =>
      cases hp
      cases hl
      exact ⟨hlow, hrest.le⟩
    | succ i =>
      obtain ⟨hle, hhigh⟩ := ih hp hl
      exact ⟨by omega, hhigh⟩

/-- What stands later starts behind the end of what stands before. -/
theorem behind (h : Spaced low ps ls high) {i j p q : Nat} (hp : ps[i]? = some p)
    (hl : ls[i]? = some l) (hq : ps[j]? = some q) (hlt : i < j) : p + l.size ≤ q := by
  induction h generalizing i j with
  | nil => cases hp
  | @cons _ _ _ ps _ ls _ hrest ih =>
    cases j with
    | zero => exact absurd hlt (Nat.not_lt_zero _)
    | succ j =>
      cases i with
      | zero =>
        cases hp
        cases hl
        have hlen : j < ls.length := by
          rw [← hrest.length_eq]
          exact Nat.lt_of_succ_lt_succ (List.getElem?_eq_some_iff.mp hq).1
        exact (hrest.bounds hq (List.getElem?_eq_getElem hlen)).1
      | succ i => exact ih hp hl hq (Nat.lt_of_succ_lt_succ hlt)

end Spaced

/-- The fields of a structure follow one another. -/
theorem spaced_offsets (position : Nat) (packed : Bool) (start : Nat) (ls : List Layout) :
    Spaced (position + start) ((offsetsFrom packed start ls).map (position + ·)) ls
      (position + endOffset packed start ls) := by
  induction ls generalizing start with
  | nil => exact .nil (Nat.le_refl _)
  | cons l ls ih =>
    refine .cons (Nat.add_le_add_left (le_alignUp ..) _) ?_
    rw [Nat.add_assoc]
    exact ih _

/-- And so do the elements of an array. -/
theorem spaced_elements (position : Nat) (e : Layout) (n : Nat) :
    Spaced position ((List.range n).map fun i => position + i * e.stride) (List.replicate n e)
      (position + n * e.stride) := by
  -- From the element `k` on, by induction on how many are left.
  have hfrom : ∀ n k, Spaced (position + k * e.stride)
      ((List.range' k n).map fun i => position + i * e.stride) (List.replicate n e)
      (position + (k + n) * e.stride) := by
    intro n
    induction n with
    | zero => exact fun k => .nil (Nat.le_refl _)
    | succ n ih =>
      intro k
      have hsize := size_le_stride e
      have hrest := ih (k + 1)
      rw [Nat.add_right_comm, Nat.add_assoc k n 1] at hrest
      refine .cons (Nat.le_refl _) (hrest.mono ?_)
      show position + k * e.stride + e.size ≤ position + (k + 1) * e.stride
      rw [Nat.succ_mul]
      omega
  rw [List.range_eq_range']
  simpa only [Nat.zero_mul, Nat.add_zero, Nat.zero_add] using hfrom n 0

/-! ## Bounds -/

/-- The spans of layouts at positions. -/
def places (ps : List Nat) (ls : List Layout) : List Span :=
  List.zipWith (fun p (l : Layout) => ⟨p, l.size⟩) ps ls

theorem covered_places_cons {p q : Nat} :
    Image.Covered (places (p :: ps) (l :: ls)) q ↔
      q ∈ Span.mk p l.size ∨ Image.Covered (places ps ls) q := by
  simp [places, Image.Covered]

theorem covered_places_iff {q : Nat} :
    Image.Covered (places ps ls) q ↔
      ∃ (i p : Nat) (l : Layout), ps[i]? = some p ∧ ls[i]? = some l ∧ q ∈ Span.mk p l.size := by
  simp only [Image.Covered, places, List.mem_iff_getElem?, List.getElem?_zipWith_eq_some]
  constructor
  · rintro ⟨s, ⟨i, p, l, hp, hl, rfl⟩, hq⟩
    exact ⟨i, p, l, hp, hl, hq⟩
  · rintro ⟨i, p, l, hp, hl, hq⟩
    exact ⟨_, ⟨i, p, l, hp, hl, rfl⟩, hq⟩

theorem Spaced.bounds_of_covered {low high q : Nat} (h : Spaced low ps ls high)
    (hq : Image.Covered (places ps ls) q) : low ≤ q ∧ q < high := by
  obtain ⟨i, p, l, hp, hl, hlow, hhigh⟩ := covered_places_iff.mp hq
  obtain ⟨hle, hstop⟩ := h.bounds hp hl
  exact ⟨Nat.le_trans hle hlow, Nat.lt_of_lt_of_le hhigh hstop⟩

/-- A scalar of a constant lies within its type. -/
theorem Leaf.le_size {value : Constant} {o : Nat} (h : Leaf ty c o s value)
    (hl : ofType limit ty = .ok l) : o + s.bytes ≤ l.size ∧ 0 < s.bytes := by
  induction h generalizing l with
  | scalar hs =>
    obtain ⟨hsize, hpos⟩ := size_of_scalarOf? hs hl
    exact ⟨by omega, hpos⟩
  | @element len elem _ _ _ i o _ _ _ s hi _ helem hstride _ ih =>
    obtain ⟨e, he, rfl⟩ := ofType_array_eq_ok.mp hl
    obtain rfl := stride_of_leastMultiple he helem hstride
    obtain ⟨hle, hpos⟩ := ih he
    have hsize := size_le_stride e
    have hmul : (i + 1) * e.stride ≤ len * e.stride := Nat.mul_le_mul_right _ hi
    rw [Nat.succ_mul] at hmul
    refine ⟨?_, hpos⟩
    show i * e.stride + o + s.bytes ≤ e.stride * len
    rw [Nat.mul_comm e.stride]
    omega
  | @field packed fields ty _ _ _ i o offset _ _ offsets s hty _ hlays hoffset _ ih =>
    obtain ⟨ls, hls, rfl⟩ := ofType_struct_eq_ok.mp hl
    obtain ⟨rfl, -, -⟩ := (lays_iff packed fields hls _ _ _ _).mp hlays
    rw [ofTypes_eq_mapM] at hls
    obtain ⟨l, hget, hl⟩ := getElem?_of_mapM_left hls hty
    obtain ⟨hle, hpos⟩ := ih hl
    have hspaced := spaced_offsets 0 packed 0 ls
    have hbounds := hspaced.bounds (p := offset) (by simpa using hoffset) hget
    have hsize := le_alignUp (endOffset packed 0 ls) (if packed then 1 else maxAlign ls)
    refine ⟨?_, hpos⟩
    rw [size]
    omega

/-- Items are written to their places. -/
theorem covered_itemExtents {items : List (Ty × Constant)}
    (hls : ofTypes limit (items.map Prod.fst) = .ok ls)
    (hitem : ∀ item ∈ items, ∀ {l : Layout} {position q : Nat}, ofType limit item.1 = .ok l →
      Image.Covered (Image.extents limit l position item.2) q → q ∈ Span.mk position l.size)
    {ps : List Nat} {q : Nat} (hq : Image.Covered (Image.itemExtents limit ps items) q) :
    Image.Covered (places ps ls) q := by
  induction items generalizing ps ls with
  | nil => cases ps <;> simp [Image.itemExtents] at hq
  | cons item items ih =>
    obtain ⟨ty, c⟩ := item
    cases ps with
    | nil => simp [Image.itemExtents] at hq
    | cons p ps =>
      obtain ⟨l, ls, hl, htail, rfl⟩ := ofTypes_cons_eq_ok.mp hls
      simp only [Image.itemExtents, hl, Image.covered_append] at hq
      rw [covered_places_cons]
      rcases hq with hq | hq
      · exact .inl (hitem (ty, c) List.mem_cons_self hl hq)
      · exact .inr (ih htail (fun item hmem => hitem item (List.mem_cons_of_mem _ hmem)) hq)

theorem ofTypes_replicate (he : ofType limit elem = .ok e) (n : Nat) :
    ofTypes limit (List.replicate n elem) = .ok (List.replicate n e) := by
  induction n with
  | zero => rfl
  | succ n ih =>
    rw [List.replicate_succ, ofTypes, he, ih]
    rfl

/-- The layouts of the elements that an array constant carries. -/
theorem ofTypes_elements {items : List (Ty × Constant)} (he : ofType limit elem = .ok e)
    (helem : ∀ item ∈ items, item.1 = elem) :
    ofTypes limit (items.map Prod.fst) = .ok (List.replicate items.length e) := by
  rw [List.eq_replicate_of_mem (a := elem) (l := items.map Prod.fst), List.length_map]
  · exact ofTypes_replicate he _
  · rintro ty hty
    obtain ⟨item, hitem, rfl⟩ := List.mem_map.mp hty
    exact helem item hitem

/-- A well-typed constant is written to its place only. -/
theorem WellTyped.mem_of_covered (h : WellTyped ty c) {position q : Nat}
    (hl : ofType limit ty = .ok l) (hq : Image.Covered (Image.extents limit l position c) q) :
    q ∈ Span.mk position l.size := by
  induction h generalizing l position q with
  | int | address | double | global | zero | undef | null =>
    simp only [Image.extents, Image.covered_singleton] at hq
    exact hq
  | bool =>
    cases hl
    simp only [Image.extents, Image.covered_singleton] at hq
    exact hq
  | @bytes len data hlen =>
    obtain rfl := ofType_byteArray hl
    simp only [Image.extents, Image.covered_singleton] at hq
    rw [size_byteArray, ← hlen]
    exact hq
  | @array len elem items hlen helem _ ih =>
    obtain ⟨e, he, rfl⟩ := ofType_array_eq_ok.mp hl
    rw [Image.extents] at hq
    have hplaces := covered_itemExtents (ofTypes_elements he helem) ih hq
    obtain ⟨hlow, hhigh⟩ := (spaced_elements position e items.length).bounds_of_covered hplaces
    rw [Span.mem_iff, size, ← hlen, Nat.mul_comm]
    exact ⟨hlow, hhigh⟩
  | @struct packed fields items hfields _ ih =>
    obtain ⟨ls, hls, rfl⟩ := ofType_struct_eq_ok.mp hl
    rw [Image.extents] at hq
    have hplaces := covered_itemExtents (hfields ▸ hls) ih hq
    obtain ⟨hlow, hhigh⟩ := (spaced_offsets position packed 0 ls).bounds_of_covered hplaces
    have hsize := le_alignUp (endOffset packed 0 ls) (if packed then 1 else maxAlign ls)
    exact ⟨hlow, Nat.lt_of_lt_of_le hhigh (Nat.add_le_add_left hsize position)⟩

end SafeIR.Layout
