import SafeIR.Power
import SafeIR.Proofs.Layout.Natural

/-!
# Alignments and padding

Alignments are powers of two, so of two alignments one divides the other, and every size is a
multiple of the alignment: elements of an array follow one another without gaps. The gaps of a
structure are those that the alignments of its fields force, and behind the last field that of the
structure itself.

The main theorem collects the rules for each form of type, and says which types have a layout: those
in which no part is a scalar without one.
-/

namespace SafeIR

variable {limit : Nat} {ls : List Layout} {l : Layout}

/-! ## Powers of two -/

def PowerOfTwo (n : Nat) : Prop := ∃ k, n = twoPow k

namespace PowerOfTwo

variable {a b : Nat}

theorem pos (h : PowerOfTwo a) : 0 < a := by
  obtain ⟨k, rfl⟩ := h
  exact Nat.two_pow_pos k

protected theorem max (ha : PowerOfTwo a) (hb : PowerOfTwo b) : PowerOfTwo (max a b) := by
  rcases Nat.le_total a b with hle | hle
  · rwa [Nat.max_eq_right hle]
  · rwa [Nat.max_eq_left hle]

theorem dvd_of_le (ha : PowerOfTwo a) (hb : PowerOfTwo b) (h : a ≤ b) : a ∣ b := by
  obtain ⟨i, rfl⟩ := ha
  obtain ⟨j, rfl⟩ := hb
  exact Nat.pow_dvd_pow 2 ((Nat.pow_le_pow_iff_right Nat.one_lt_two).mp h)

end PowerOfTwo

theorem dvd_alignUp_of_pos {a : Nat} (value : Nat) (ha : 0 < a) : a ∣ alignUp value a := by
  have hdvd := dvd_alignUp value a
  rwa [Nat.max_eq_left ha] at hdvd

/-- What is aligned stays where it is. -/
theorem alignUp_of_dvd {value a : Nat} (ha : 0 < a) (h : a ∣ value) : alignUp value a = value :=
  Nat.le_antisymm (alignUp_le (Nat.le_refl _) (by rwa [Nat.max_eq_left ha])) (le_alignUp ..)

namespace Layout

open IR (Ty)

/-! ## Alignments -/

mutual

/-- Alignments are powers of two. -/
theorem powerOfTwo_align : (ty : Ty) → {l : Layout} → ofType limit ty = .ok l → PowerOfTwo l.align
  | .array len elem, l, h => by
    obtain ⟨e, he, rfl⟩ := ofType_array_eq_ok.mp h
    show PowerOfTwo e.align
    exact powerOfTwo_align elem he
  | .struct packed fields, l, h => by
    obtain ⟨ls, hls, rfl⟩ := ofType_struct_eq_ok.mp h
    rw [align]
    split
    · exact ⟨0, rfl⟩
    · exact powerOfTwo_maxAlign fields hls
  | .function ret params varargs, l, h => by
    simp only [ofType, bind_eq_ok, pure_eq_ok] at h
    obtain ⟨ps, -, r, -, rfl⟩ := h
    exact ⟨0, rfl⟩
  | .int bits, l, h => by
    rcases ofLeaf_int h with ⟨-, rfl⟩ | ⟨hbits, rfl⟩
    · exact ⟨0, rfl⟩
    · simp only [List.mem_cons, List.not_mem_nil, or_false] at hbits
      rcases hbits with rfl | rfl | rfl | rfl | rfl
      exacts [⟨0, rfl⟩, ⟨1, rfl⟩, ⟨2, rfl⟩, ⟨3, rfl⟩, ⟨4, rfl⟩]
  | .void, l, h => by
    cases h
    exact ⟨0, rfl⟩
  | .float, l, h => by
    cases h
    exact ⟨2, rfl⟩
  | .double, l, h | .ptr, l, h => by
    cases h
    exact ⟨3, rfl⟩
  | .half, l, h | .x86Fp80, l, h | .fp128, l, h | .label, l, h | .metadata, l, h => by cases h

theorem powerOfTwo_maxAlign :
    (tys : List Ty) → {ls : List Layout} → ofTypes limit tys = .ok ls → PowerOfTwo (maxAlign ls)
  | [], ls, h => by
    cases h
    exact ⟨0, rfl⟩
  | ty :: tys, ls, h => by
    obtain ⟨l, ls, hl, hls, rfl⟩ := ofTypes_cons_eq_ok.mp h
    exact (powerOfTwo_align ty hl).max (powerOfTwo_maxAlign tys hls)

end

theorem align_le_maxAlign (h : l ∈ ls) : l.align ≤ maxAlign ls := by
  induction ls with
  | nil => cases h
  | cons l' ls ih =>
    rcases List.mem_cons.mp h with rfl | h
    · exact Nat.le_max_left ..
    · exact Nat.le_trans (ih h) (Nat.le_max_right ..)

/-- The largest alignment is that of one of the layouts, if these are at least one. -/
theorem maxAlign_eq (hpos : ∀ l ∈ ls, 0 < l.align) (hne : ls ≠ []) :
    ∃ l ∈ ls, maxAlign ls = l.align := by
  induction ls with
  | nil => exact absurd rfl hne
  | cons l ls ih =>
    obtain ⟨hl, hls⟩ := List.forall_mem_cons.mp hpos
    rcases Nat.le_total (maxAlign ls) l.align with hle | hle
    · exact ⟨l, List.mem_cons_self, Nat.max_eq_left hle⟩
    · cases ls with
      | nil =>
        exact ⟨l, List.mem_cons_self, Nat.max_eq_left hl⟩
      | cons l' ls =>
        obtain ⟨m, hm, heq⟩ := ih hls (List.cons_ne_nil _ _)
        exact ⟨m, List.mem_cons_of_mem _ hm, by rw [maxAlign, Nat.max_eq_right hle, heq]⟩

/-! ## Sizes -/

/-- Sizes are multiples of the alignment. -/
theorem align_dvd_size {ty : Ty} (h : ofType limit ty = .ok l) : l.align ∣ l.size := by
  cases ty with
  | array len elem =>
    obtain ⟨e, he, rfl⟩ := ofType_array_eq_ok.mp h
    exact Nat.dvd_mul_right_of_dvd (dvd_alignUp_of_pos _ (powerOfTwo_align elem he).pos) len
  | struct packed fields =>
    have hpos := (powerOfTwo_align _ h).pos
    obtain ⟨ls, -, rfl⟩ := ofType_struct_eq_ok.mp h
    exact dvd_alignUp_of_pos _ hpos
  | function ret params varargs =>
    simp only [ofType, bind_eq_ok, pure_eq_ok] at h
    obtain ⟨ps, -, r, -, rfl⟩ := h
    exact Nat.one_dvd _
  | int bits =>
    rcases ofLeaf_int h with ⟨-, rfl⟩ | ⟨-, rfl⟩
    · exact Nat.dvd_refl _
    · exact Nat.dvd_refl _
  | void =>
    cases h
    exact Nat.one_dvd _
  | float | double | ptr =>
    cases h
    exact Nat.dvd_refl _
  | half | x86Fp80 | fp128 | label | metadata => cases h

theorem stride_eq_size {ty : Ty} (h : ofType limit ty = .ok l) : l.stride = l.size :=
  alignUp_of_dvd (powerOfTwo_align ty h).pos (align_dvd_size h)

/-! ## Fields -/

/-- Fields follow one another from `start` on. The rule says where a field may stand if the one
before it ends at a position. -/
def Follow (rule : Layout → Nat → Nat → Prop) : (start : Nat) → List Layout → List Nat → Prop
  | _, [], [] => True
  | start, l :: ls, offset :: offsets =>
    rule l start offset ∧ Follow rule (offset + l.size) ls offsets
  | _, _, _ => False

/-- No field ends behind a position. -/
def Covers (ls : List Layout) (offsets : List Nat) (stop : Nat) : Prop :=
  ∀ field ∈ ls.zip offsets, field.2 + field.1.size ≤ stop

/-- The fields of a structure without a gap that is not forced by an alignment. -/
structure Padded (ls : List Layout) (l : Layout) : Prop where
  /-- Each field stands at the least multiple of its alignment behind the field before it. -/
  fields : Follow (fun field => LeastMultiple field.align) 0 ls l.offsets
  align_le : ∀ field ∈ ls, field.align ≤ l.align
  align_eq : ls ≠ [] → ∃ field ∈ ls, l.align = field.align
  align_nil : ls = [] → l.align = 1
  /-- The size is the least multiple of the alignment that leaves room for all fields. -/
  align_dvd : l.align ∣ l.size
  covers : Covers ls l.offsets l.size
  least : ∀ n, l.align ∣ n → Covers ls l.offsets n → l.size ≤ n

/-- The fields of a structure without any gap. -/
structure Packed (ls : List Layout) (l : Layout) : Prop where
  fields : Follow (fun _ start offset => offset = start) 0 ls l.offsets
  align_eq : l.align = 1
  size_eq : l.size = (ls.map size).foldr (· + ·) 0

theorem le_endOffset (packed : Bool) (start : Nat) (ls : List Layout) :
    start ≤ endOffset packed start ls := by
  induction ls generalizing start with
  | nil => exact Nat.le_refl _
  | cons l ls ih =>
    have hoffset := le_alignUp start (if packed then 1 else l.align)
    exact Nat.le_trans (by omega) (ih _)

/-- All fields are covered where the last one is. -/
theorem covers_iff {packed : Bool} {start stop : Nat} (h : start ≤ stop) :
    Covers ls (offsetsFrom packed start ls) stop ↔ endOffset packed start ls ≤ stop := by
  induction ls generalizing start with
  | nil => simpa [Covers, offsetsFrom, endOffset] using h
  | cons l ls ih =>
    have hend := le_endOffset packed (alignUp start (if packed then 1 else l.align) + l.size) ls
    rw [Covers, offsetsFrom, List.zip_cons_cons, List.forall_mem_cons, endOffset]
    constructor
    · rintro ⟨hfirst, hrest⟩
      exact (ih hfirst).mp hrest
    · intro hle
      exact ⟨Nat.le_trans hend hle, (ih (Nat.le_trans hend hle)).mpr hle⟩

theorem follow_padded (hpos : ∀ l ∈ ls, 0 < l.align) (start : Nat) :
    Follow (fun field => LeastMultiple field.align) start ls (offsetsFrom false start ls) := by
  induction ls generalizing start with
  | nil => trivial
  | cons l ls ih =>
    obtain ⟨hl, hls⟩ := List.forall_mem_cons.mp hpos
    exact ⟨(leastMultiple_iff hl).mpr rfl, ih hls _⟩

theorem alignUp_one (value : Nat) : alignUp value 1 = value :=
  alignUp_of_dvd Nat.one_pos (Nat.one_dvd _)

theorem follow_packed (ls : List Layout) (start : Nat) :
    Follow (fun _ start offset => offset = start) start ls (offsetsFrom true start ls) := by
  induction ls generalizing start with
  | nil => trivial
  | cons l ls ih => exact ⟨alignUp_one start, ih _⟩

theorem endOffset_packed (ls : List Layout) (start : Nat) :
    endOffset true start ls = start + (ls.map size).foldr (· + ·) 0 := by
  induction ls generalizing start with
  | nil => rfl
  | cons l ls ih =>
    rw [endOffset, ih, if_pos rfl, alignUp_one, List.map_cons, List.foldr_cons, Nat.add_assoc]

theorem padded_struct {fields : List Ty} (hls : ofTypes limit fields = .ok ls) :
    Padded ls (struct false ls) := by
  have hpos : ∀ l ∈ ls, 0 < l.align := by
    intro l hl
    rw [ofTypes_eq_mapM] at hls
    obtain ⟨ty, -, hty⟩ := exists_of_mem_mapM hls hl
    exact (powerOfTwo_align ty hty).pos
  have hsize : LeastMultiple (maxAlign ls) (endOffset false 0 ls) (struct false ls).size :=
    (leastMultiple_iff (maxAlign_pos ls)).mpr rfl
  exact {
    fields := follow_padded hpos 0
    align_le := fun field hfield => align_le_maxAlign hfield
    align_eq := maxAlign_eq hpos
    align_nil := by
      rintro rfl
      rfl
    align_dvd := hsize.dvd
    covers := (covers_iff (Nat.zero_le _)).mpr hsize.lower_le
    least := fun n hdvd hcovers => hsize.least n hdvd ((covers_iff (Nat.zero_le _)).mp hcovers) }

theorem packed_struct (ls : List Layout) : Packed ls (struct true ls) where
  fields := follow_packed ls 0
  align_eq := rfl
  size_eq := by
    rw [size, endOffset_packed, if_pos rfl, alignUp_one, Nat.zero_add]

/-! ## Types with a layout -/

/-- A type is a part of another, or that type itself. -/
inductive Within (part : Ty) : Ty → Prop where
  | refl : Within part part
  | array {len : Nat} {elem : Ty} (h : Within part elem) : Within part (.array len elem)
  | struct {packed : Bool} {fields : List Ty} {field : Ty} (hfield : field ∈ fields)
      (h : Within part field) : Within part (.struct packed fields)
  | ret {ret : Ty} {params : List Ty} {varargs : Bool} (h : Within part ret) :
      Within part (.function ret params varargs)
  | param {ret param : Ty} {params : List Ty} {varargs : Bool} (hparam : param ∈ params)
      (h : Within part param) : Within part (.function ret params varargs)

/-- The scalars that have no layout where integers may have up to `limit` bits. The limit is not
for truth values. -/
def NoLayout (limit : Nat) : Ty → Prop
  | .half | .x86Fp80 | .fp128 | .label | .metadata => True
  | .int bits => bits ∉ [1, 8, 16, 32, 64, 128] ∨ bits ≠ 1 ∧ limit < bits
  | _ => False

/-- No part of a type is without a layout. -/
def Mapped (limit : Nat) (ty : Ty) : Prop := ∀ part, Within part ty → ¬ NoLayout limit part

theorem mapped_array_iff {len : Nat} {elem : Ty} :
    Mapped limit (.array len elem) ↔ Mapped limit elem := by
  constructor
  · exact fun h part hpart => h part (.array hpart)
  · intro h part hpart
    cases hpart with
    | refl => exact id
    | array hpart => exact h part hpart

theorem mapped_struct_iff {packed : Bool} {fields : List Ty} :
    Mapped limit (.struct packed fields) ↔ ∀ field ∈ fields, Mapped limit field := by
  constructor
  · exact fun h field hfield part hpart => h part (.struct hfield hpart)
  · intro h part hpart
    cases hpart with
    | refl => exact id
    | struct hfield hpart => exact h _ hfield part hpart

theorem mapped_function_iff {ret : Ty} {params : List Ty} {varargs : Bool} :
    Mapped limit (.function ret params varargs) ↔
      (∀ param ∈ params, Mapped limit param) ∧ Mapped limit ret := by
  constructor
  · exact fun h =>
      ⟨fun param hparam part hpart => h part (.param hparam hpart),
        fun part hpart => h part (.ret hpart)⟩
  · rintro ⟨hparams, hret⟩ part hpart
    cases hpart with
    | refl => exact id
    | ret hpart => exact hret part hpart
    | param hparam hpart => exact hparams _ hparam part hpart

theorem mapped_int_iff {bits : Nat} :
    Mapped limit (.int bits) ↔
      bits = 1 ∨ bits ∈ [8, 16, 32, 64, 128] ∧ bits ≤ limit := by
  have hself : Mapped limit (.int bits) ↔ ¬ NoLayout limit (.int bits) := by
    constructor
    · exact fun h => h _ .refl
    · intro h part hpart
      cases hpart
      exact h
  rw [hself, NoLayout, not_or, not_not, not_and, Nat.not_lt, List.mem_cons]
  constructor
  · rintro ⟨hbits | hbits, hlimit⟩
    · exact .inl hbits
    · refine .inr ⟨hbits, hlimit ?_⟩
      rintro rfl
      exact absurd hbits (by decide)
  · rintro (hbits | ⟨hbits, hlimit⟩)
    · exact ⟨.inl hbits, fun hne => absurd hbits hne⟩
    · exact ⟨.inr hbits, fun _ => hlimit⟩

theorem exists_ofLeaf_int {bits : Nat} :
    (∃ l, ofLeaf limit (.int bits) = .ok l) ↔
      bits = 1 ∨ bits ∈ [8, 16, 32, 64, 128] ∧ bits ≤ limit := by
  simp only [ofLeaf, unsupported]
  split
  next hbits => exact ⟨fun _ => .inl hbits, fun _ => ⟨_, rfl⟩⟩
  next hbits =>
    split
    next hmem =>
      simp only [ite_error_eq_ok, pure_eq_ok, Nat.not_lt]
      constructor
      · rintro ⟨l, hle, -⟩
        exact .inr ⟨hmem, hle⟩
      · rintro (h | ⟨-, hle⟩)
        · exact absurd h hbits
        · exact ⟨_, hle, rfl⟩
    next hmem =>
      constructor
      · rintro ⟨l, h⟩
        cases h
      · rintro (h | ⟨h, -⟩)
        · exact absurd h hbits
        · exact absurd h hmem

mutual

/-- A type has a layout if all its parts do. -/
theorem exists_ofType : (ty : Ty) →
    ((∃ l, ofType limit ty = .ok l) ↔ Mapped limit ty)
  | .array len elem => by
    rw [mapped_array_iff, ← exists_ofType elem]
    simp only [ofType_array_eq_ok]
    constructor
    · rintro ⟨l, e, he, -⟩
      exact ⟨e, he⟩
    · rintro ⟨e, he⟩
      exact ⟨_, e, he, rfl⟩
  | .struct packed fields => by
    rw [mapped_struct_iff, ← exists_ofTypes fields]
    simp only [ofType_struct_eq_ok]
    constructor
    · rintro ⟨l, ls, hls, -⟩
      exact ⟨ls, hls⟩
    · rintro ⟨ls, hls⟩
      exact ⟨_, ls, hls, rfl⟩
  | .function ret params varargs => by
    rw [mapped_function_iff, ← exists_ofTypes params, ← exists_ofType ret]
    simp only [ofType, bind_eq_ok, pure_eq_ok]
    constructor
    · rintro ⟨l, ps, hps, r, hr, -⟩
      exact ⟨⟨ps, hps⟩, r, hr⟩
    · rintro ⟨⟨ps, hps⟩, r, hr⟩
      exact ⟨_, ps, hps, r, hr, rfl⟩
  | .int bits => by
    show (∃ l, ofLeaf limit (.int bits) = .ok l) ↔ _
    rw [exists_ofLeaf_int, mapped_int_iff]
  | .void | .float | .double | .ptr => by
    refine ⟨fun _ part hpart => ?_, fun _ => ⟨_, rfl⟩⟩
    cases hpart
    exact id
  | .half | .x86Fp80 | .fp128 | .label | .metadata => by
    constructor
    · rintro ⟨l, h⟩
      cases h
    · exact fun h => absurd trivial (h _ .refl)

theorem exists_ofTypes : (tys : List Ty) →
    ((∃ ls, ofTypes limit tys = .ok ls) ↔ ∀ ty ∈ tys, Mapped limit ty)
  | [] => by
    refine ⟨fun _ ty hty => ?_, fun _ => ⟨_, rfl⟩⟩
    cases hty
  | ty :: tys => by
    rw [List.forall_mem_cons, ← exists_ofType ty, ← exists_ofTypes tys]
    simp only [ofTypes_cons_eq_ok]
    constructor
    · rintro ⟨-, l, ls, hl, hls, -⟩
      exact ⟨⟨l, hl⟩, ls, hls⟩
    · rintro ⟨⟨l, hl⟩, ls, hls⟩
      exact ⟨_, l, ls, hl, hls, rfl⟩

end

theorem ofType_fails_iff {ty : Ty} :
    (∃ e, ofType limit ty = .error e) ↔ ∃ part, Within part ty ∧ NoLayout limit part := by
  have hmapped := @exists_ofType limit ty
  cases h : ofType limit ty with
  | ok l =>
    have hall := hmapped.mp ⟨l, h⟩
    constructor
    · rintro ⟨e, he⟩
      cases he
    · rintro ⟨part, hpart, hnone⟩
      exact absurd hnone (hall part hpart)
  | error e =>
    refine ⟨fun _ => ?_, fun _ => ⟨e, rfl⟩⟩
    by_contra hno
    obtain ⟨l, hl⟩ := hmapped.mpr fun part hpart hnone => hno ⟨part, hpart, hnone⟩
    rw [h] at hl
    cases hl

/-- Every layout is natural, and a type has none exactly if a scalar without one occurs in it. -/
theorem layout_natural (limit : Nat) (ty : Ty) :
    (∀ l, ofType limit ty = .ok l →
      PowerOfTwo l.align ∧ l.align ∣ l.size ∧ l.stride = l.size ∧
      (∀ fields, ty = .struct false fields →
        ∃ ls, List.Forall₂ (fun field l => ofType limit field = .ok l) fields ls ∧ Padded ls l) ∧
      (∀ fields, ty = .struct true fields →
        ∃ ls, List.Forall₂ (fun field l => ofType limit field = .ok l) fields ls ∧ Packed ls l) ∧
      ∀ len elem, ty = .array len elem →
        ∃ e, ofType limit elem = .ok e ∧ l.align = e.align ∧ l.size = len * e.size) ∧
    ((∃ e, ofType limit ty = .error e) ↔ ∃ part, Within part ty ∧ NoLayout limit part) := by
  refine ⟨fun l h => ⟨powerOfTwo_align ty h, align_dvd_size h, stride_eq_size h, ?_, ?_, ?_⟩,
    ofType_fails_iff⟩
  · rintro fields rfl
    obtain ⟨ls, hls, rfl⟩ := ofType_struct_eq_ok.mp h
    exact ⟨ls, mapM_eq_ok.mp (ofTypes_eq_mapM fields ▸ hls), padded_struct hls⟩
  · rintro fields rfl
    obtain ⟨ls, hls, rfl⟩ := ofType_struct_eq_ok.mp h
    exact ⟨ls, mapM_eq_ok.mp (ofTypes_eq_mapM fields ▸ hls), packed_struct ls⟩
  · rintro len elem rfl
    obtain ⟨e, he, rfl⟩ := ofType_array_eq_ok.mp h
    refine ⟨e, he, rfl, ?_⟩
    show e.stride * len = len * e.size
    rw [stride_eq_size he, Nat.mul_comm]

/-- A byte, two pairs that end with padding, and a byte. -/
def recordTy : Ty := .struct false [.int 8, .array 2 (.struct false [.int 32, .int 8]), .int 8]

/-- The pairs start at 4, and the record ends with three bytes of padding. -/
theorem layout_natural_record :
    (∃ l, ofType 64 recordTy = .ok l ∧ l.offsets = [0, 4, 20] ∧ l.size = 24 ∧ l.align = 4 ∧
      l.stride = 24 ∧ ∃ ls, Padded ls l) ∧
    ∃ e, ofType 64 (.array 3 (.struct true [recordTy, .int 128])) = .error e := by
  obtain ⟨-, -, hstride, hpadded, -⟩ := (layout_natural 64 recordTy).1 _ rfl
  obtain ⟨ls, -, hls⟩ := hpadded _ rfl
  refine ⟨⟨_, rfl, rfl, rfl, rfl, hstride, ls, hls⟩, (layout_natural 64 _).2.mpr ⟨.int 128, ?_, ?_⟩⟩
  · exact .array (.struct (List.mem_cons_of_mem _ List.mem_cons_self) .refl)
  · exact .inr (by decide)

end Layout

end SafeIR
