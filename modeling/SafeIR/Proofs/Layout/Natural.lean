import SafeIR.Layout.Basic
import SafeIR.Proofs.Memory.Span

/-!
# The natural layout

The rules of C for a 64-bit machine, as a relation on types: which sizes and alignments a type has
and where the fields of a structure lie. Nothing is computed by it; padding is described as the
least multiple of an alignment that leaves room for what stands before.

`occupies_iff` and `lays_iff` say that layouts follow the rules: the size, the alignment and the
offsets of a layout are the only ones that the relation has for the type.
-/

namespace SafeIR.Layout

open IR (Ty)

/-- `n` is the least multiple of `a` that is not below `lower`. -/
structure LeastMultiple (a lower n : Nat) : Prop where
  dvd : a ∣ n
  lower_le : lower ≤ n
  least : ∀ k, a ∣ k → lower ≤ k → n ≤ k

theorem LeastMultiple.unique {a lower n k : Nat} (hn : LeastMultiple a lower n)
    (hk : LeastMultiple a lower k) : n = k :=
  Nat.le_antisymm (hn.least k hk.dvd hk.lower_le) (hk.least n hn.dvd hn.lower_le)

theorem leastMultiple_iff {a lower n : Nat} (ha : 0 < a) :
    LeastMultiple a lower n ↔ n = alignUp lower a := by
  have hmax : max a 1 = a := Nat.max_eq_left ha
  have halign : LeastMultiple a lower (alignUp lower a) :=
    ⟨by simpa only [hmax] using dvd_alignUp lower a, le_alignUp lower a,
      fun k hdvd hle => alignUp_le hle (by rwa [hmax])⟩
  exact ⟨fun h => h.unique halign, fun h => h ▸ halign⟩

mutual

/-- Values of a type take `size` bytes, from a multiple of `align` on. -/
inductive Occupies : Ty → (size align : Nat) → Prop where
  | void : Occupies .void 0 1
  | bit : Occupies (.int 1) 1 1
  | int {bits : Nat} (hbits : bits ∈ [8, 16, 32, 64, 128]) :
      Occupies (.int bits) (bits / 8) (bits / 8)
  | float : Occupies .float 4 4
  | double : Occupies .double 8 8
  | ptr : Occupies .ptr 8 8
  /-- Elements follow one another, each at the alignment of its type. -/
  | array {len : Nat} {elem : Ty} {size align stride : Nat} (helem : Occupies elem size align)
      (hstride : LeastMultiple align size stride) : Occupies (.array len elem) (stride * len) align
  /-- A structure takes as many bytes as bring the next one to its alignment. -/
  | struct {packed : Bool} {fields : List Ty} {offsets : List Nat} {stop size align : Nat}
      (hfields : Lays packed 0 fields offsets stop align) (hsize : LeastMultiple align stop size) :
      Occupies (.struct packed fields) size align
  | function {ret : Ty} {params : List Ty} {varargs : Bool} :
      Occupies (.function ret params varargs) 0 1

/-- Fields that follow one another from `start` on lie at `offsets` and end at `stop`. A field of a
packed structure may lie anywhere. -/
inductive Lays : (packed : Bool) → (start : Nat) → List Ty → (offsets : List Nat) →
    (stop align : Nat) → Prop where
  | nil {packed : Bool} {start : Nat} : Lays packed start [] [] start 1
  | cons {packed : Bool} {start : Nat} {ty : Ty} {tys : List Ty} {size align offset : Nat}
      {offsets : List Nat} {stop rest : Nat} (hty : Occupies ty size align)
      (hoffset : LeastMultiple (if packed then 1 else align) start offset)
      (htys : Lays packed (offset + size) tys offsets stop rest) :
      Lays packed start (ty :: tys) (offset :: offsets) stop
        (max (if packed then 1 else align) rest)

end

/-! ## Layouts of types with parts -/

section

variable {limit : Nat} {l : Layout}

theorem ofType_array_eq_ok {len : Nat} {elem : Ty} :
    ofType limit (.array len elem) = .ok l ↔ ∃ e, ofType limit elem = .ok e ∧ array e len = l := by
  simp only [ofType, bind_eq_ok, pure_eq_ok]

theorem ofType_struct_eq_ok {packed : Bool} {fields : List Ty} :
    ofType limit (.struct packed fields) = .ok l ↔
      ∃ ls, ofTypes limit fields = .ok ls ∧ struct packed ls = l := by
  simp only [ofType, bind_eq_ok, pure_eq_ok]

theorem ofTypes_cons_eq_ok {ty : Ty} {tys : List Ty} {ls : List Layout} :
    ofTypes limit (ty :: tys) = .ok ls ↔
      ∃ l rest, ofType limit ty = .ok l ∧ ofTypes limit tys = .ok rest ∧ l :: rest = ls := by
  simp only [ofTypes, bind_eq_ok, pure_eq_ok, exists_and_left]

theorem ofTypes_eq_mapM (tys : List Ty) : ofTypes limit tys = tys.mapM (ofType limit) := by
  induction tys with
  | nil => rfl
  | cons ty tys ih => rw [ofTypes, List.mapM_cons, ih]

end

/-! ## Layouts follow the rules -/

theorem maxAlign_pos (ls : List Layout) : 0 < maxAlign ls := by
  cases ls with
  | nil => exact Nat.one_pos
  | cons l ls => exact Nat.lt_of_lt_of_le (maxAlign_pos ls) (Nat.le_max_right ..)

/-- The types without parts that have a layout. -/
theorem ofLeaf_int {limit bits : Nat} {l : Layout} (h : ofLeaf limit (.int bits) = .ok l) :
    (bits = 1 ∧ l = bool) ∨ (bits ∈ [8, 16, 32, 64, 128] ∧ l = int bits) := by
  simp only [ofLeaf, unsupported] at h
  split at h
  next hbits =>
    cases h
    exact .inl ⟨hbits, rfl⟩
  next =>
    split at h
    next hbits =>
      rw [ite_error_eq_ok] at h
      exact .inr ⟨hbits, (pure_eq_ok.mp h.2).symm⟩
    next => cases h

theorem occupies_int_iff {bits size align : Nat} (hbits : bits ∈ [8, 16, 32, 64, 128]) :
    Occupies (.int bits) size align ↔ size = bits / 8 ∧ align = bits / 8 := by
  constructor
  · intro h
    cases h with
    | bit => exact absurd hbits (by decide)
    | int => exact ⟨rfl, rfl⟩
  · rintro ⟨rfl, rfl⟩
    exact .int hbits

theorem occupies_bit_iff {size align : Nat} :
    Occupies (.int 1) size align ↔ size = 1 ∧ align = 1 := by
  constructor
  · intro h
    cases h with
    | bit => exact ⟨rfl, rfl⟩
    | int hbits => exact absurd hbits (by decide)
  · rintro ⟨rfl, rfl⟩
    exact .bit

mutual

/-- A layout has the only size and the only alignment that its type may have. -/
theorem occupies_iff {limit : Nat} : (ty : Ty) → {l : Layout} → ofType limit ty = .ok l →
    0 < l.align ∧ ∀ size align, Occupies ty size align ↔ size = l.size ∧ align = l.align
  | .array len elem, l, h => by
    obtain ⟨e, he, rfl⟩ := ofType_array_eq_ok.mp h
    obtain ⟨hpos, helem⟩ := occupies_iff elem he
    refine ⟨hpos, fun size align => ⟨fun h => ?_, ?_⟩⟩
    · cases h with
      | array hocc hstride =>
        obtain ⟨rfl, rfl⟩ := (helem _ _).mp hocc
        obtain rfl := (leastMultiple_iff hpos).mp hstride
        exact ⟨rfl, rfl⟩
    · rintro ⟨rfl, rfl⟩
      exact .array ((helem _ _).mpr ⟨rfl, rfl⟩) ((leastMultiple_iff hpos).mpr rfl)
  | .struct packed fields, l, h => by
    obtain ⟨ls, hls, rfl⟩ := ofType_struct_eq_ok.mp h
    have hfields := lays_iff packed fields hls
    have hpos : 0 < (struct packed ls).align := by
      rw [align]
      split
      · exact Nat.one_pos
      · exact maxAlign_pos ls
    -- The fields determine where they end, and that with the alignment the size.
    refine ⟨hpos, fun size align => ⟨fun h => ?_, ?_⟩⟩
    · cases h with
      | struct hlays hsize =>
        obtain ⟨rfl, rfl, rfl⟩ := (hfields 0 _ _ _).mp hlays
        exact ⟨(leastMultiple_iff hpos).mp hsize, rfl⟩
    · rintro ⟨rfl, rfl⟩
      exact .struct ((hfields 0 _ _ _).mpr ⟨rfl, rfl, rfl⟩) ((leastMultiple_iff hpos).mpr rfl)
  | .function ret params varargs, l, h => by
    simp only [ofType, bind_eq_ok, pure_eq_ok] at h
    obtain ⟨ps, -, r, -, rfl⟩ := h
    refine ⟨Nat.one_pos, fun size align => ⟨fun h => ?_, ?_⟩⟩
    · cases h
      exact ⟨rfl, rfl⟩
    · rintro ⟨rfl, rfl⟩
      exact .function
  | .int bits, l, h => by
    rcases ofLeaf_int h with ⟨rfl, rfl⟩ | ⟨hbits, rfl⟩
    · exact ⟨Nat.one_pos, fun _ _ => occupies_bit_iff⟩
    · refine ⟨?_, fun _ _ => occupies_int_iff hbits⟩
      show 0 < bits / 8
      simp only [List.mem_cons, List.not_mem_nil, or_false] at hbits
      omega
  | .void, l, h => by
    cases h
    refine ⟨Nat.one_pos, fun size align => ⟨fun h => by cases h; exact ⟨rfl, rfl⟩, ?_⟩⟩
    rintro ⟨rfl, rfl⟩
    exact .void
  | .float, l, h => by
    cases h
    refine ⟨by decide, fun size align => ⟨fun h => by cases h; exact ⟨rfl, rfl⟩, ?_⟩⟩
    rintro ⟨rfl, rfl⟩
    exact .float
  | .double, l, h => by
    cases h
    refine ⟨by decide, fun size align => ⟨fun h => by cases h; exact ⟨rfl, rfl⟩, ?_⟩⟩
    rintro ⟨rfl, rfl⟩
    exact .double
  | .ptr, l, h => by
    cases h
    refine ⟨by decide, fun size align => ⟨fun h => by cases h; exact ⟨rfl, rfl⟩, ?_⟩⟩
    rintro ⟨rfl, rfl⟩
    exact .ptr
  | .half, l, h | .x86Fp80, l, h | .fp128, l, h | .label, l, h | .metadata, l, h => by cases h

/-- The fields of a layout lie where those of the type may lie. -/
theorem lays_iff {limit : Nat} (packed : Bool) : (tys : List Ty) → {ls : List Layout} →
    ofTypes limit tys = .ok ls → ∀ start offsets stop align,
    Lays packed start tys offsets stop align ↔ offsets = offsetsFrom packed start ls ∧
      stop = endOffset packed start ls ∧ align = if packed then 1 else maxAlign ls
  | [], ls, h, start, offsets, stop, align => by
    cases h
    constructor
    · intro h
      cases h
      exact ⟨rfl, rfl, by cases packed <;> rfl⟩
    · rintro ⟨rfl, rfl, rfl⟩
      cases packed <;> exact .nil
  | ty :: tys, ls, h, start, offsets, stop, align => by
    obtain ⟨l, ls, hl, hls, rfl⟩ := ofTypes_cons_eq_ok.mp h
    obtain ⟨hpos, hty⟩ := occupies_iff ty hl
    have htys := lays_iff packed tys hls
    -- In a packed structure every alignment counts as one.
    have hapos : 0 < if packed then 1 else l.align := by cases packed <;> simp [hpos]
    have hmax : max (if packed then 1 else l.align) (if packed then 1 else maxAlign ls)
        = if packed then 1 else maxAlign (l :: ls) := by cases packed <;> rfl
    constructor
    · intro h
      cases h with
      | cons hocc hoffset hrest =>
        obtain ⟨rfl, rfl⟩ := (hty _ _).mp hocc
        obtain rfl := (leastMultiple_iff hapos).mp hoffset
        obtain ⟨rfl, rfl, rfl⟩ := (htys _ _ _ _).mp hrest
        exact ⟨rfl, rfl, hmax⟩
    · rintro ⟨rfl, rfl, rfl⟩
      rw [← hmax]
      exact .cons ((hty _ _).mpr ⟨rfl, rfl⟩) ((leastMultiple_iff hapos).mpr rfl)
        ((htys _ _ _ _).mpr ⟨rfl, rfl, rfl⟩)

end

end SafeIR.Layout
