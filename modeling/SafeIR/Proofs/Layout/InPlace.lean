import SafeIR.Proofs.Layout.Typed

/-!
# Constants in place

A constant is in place (`Shows`) if the bytes of each of its scalars spell the word that the scalar
is, and the bytes between them are zero.

Writing a well-typed constant over zeros brings it in place (`WellTyped.lands`). The argument for
aggregates is the same at every depth: constants that come one after another to places behind one
another do not disturb each other (`AllPlaced.shows`).
-/

namespace SafeIR

/-! ## Words and their bytes -/

/-- Only the bits that fit into the bytes matter. -/
theorem Bytes.ofNat_mod (n v : Nat) : Bytes.ofNat n (v % twoPow (8 * n)) = Bytes.ofNat n v := by
  induction n generalizing v with
  | zero => rfl
  | succ n ih =>
    have hpow : twoPow (8 * (n + 1)) = 256 * twoPow (8 * n) := by
      rw [Nat.mul_succ, twoPow_add, Nat.mul_comm]
      rfl
    rw [Bytes.ofNat, Bytes.ofNat, hpow, Nat.mod_mul_right_mod, Nat.mod_mul_right_div_self, ih]

theorem Bytes.ofNat_zero (n : Nat) : Bytes.ofNat n 0 = List.replicate n 0 := by
  induction n with
  | zero => rfl
  | succ n ih =>
    rw [Bytes.ofNat, List.replicate_succ, Nat.zero_div, ih]
    rfl

namespace Layout

open IR (Ty Constant)
open Image (Covered)

variable {entries : List Entry} {c v : Constant} {limit position : Nat} {ty : Ty}
  {bytes : List UInt8} {s : Scalar} {l : Layout} {name : String} {ls : List Layout}

/-- The word that a constant is as a scalar of `n` bits. A reference is an address. -/
def word? (entries : List Entry) (n : Nat) : Constant → Option (BitVec n)
  | .int v => some (BitVec.ofInt n v)
  | .bool b => some (BitVec.ofNat n b.toNat)
  | .float bits => some (BitVec.ofNat n bits)
  | .global id => (Image.find? entries id).map fun e => BitVec.ofNat n e.address
  | .zero | .undef | .null => some 0
  | .bytes _ | .array _ | .struct _ => none

/-! ## Constants in place -/

/-- The bytes of a constant of a type are in place: those of each scalar spell its word, and there
are zeros between them. -/
structure Shows (entries : List Entry) (bytes : List UInt8) (place : Span) (ty : Ty)
    (c : Constant) : Prop where
  leaf {o : Nat} {s : Scalar} {v : Constant} (h : Leaf ty c o s v) :
    ∃ w, word? entries s.bits v = some w ∧
      ∀ i < s.bytes, bytes[place.start + o + i]? = (Bytes.ofNat s.bytes w.toNat)[i]?
  rest {q : Nat} (hq : q ∈ place)
    (h : ∀ o s v, Leaf ty c o s v → q ∉ Span.mk (place.start + o) s.bytes) : bytes[q]? = some 0

/-- Only the bytes of the place matter. -/
theorem Shows.congr {bytes' : List UInt8} (hl : ofType limit ty = .ok l)
    (h : Shows entries bytes ⟨position, l.size⟩ ty c)
    (hsame : ∀ q ∈ Span.mk position l.size, bytes'[q]? = bytes[q]?) :
    Shows entries bytes' ⟨position, l.size⟩ ty c where
  leaf hleaf := by
    obtain ⟨w, hw, hbytes⟩ := h.leaf hleaf
    refine ⟨w, hw, fun i hi => ?_⟩
    have hle := (hleaf.le_size hl).1
    rw [← hbytes i hi, hsame _ (Span.mem_iff.mpr (by simp only; omega))]
  rest hq hleaf := by rw [hsame _ hq, h.rest hq hleaf]

/-- A scalar is in place if its bytes are. -/
theorem shows_scalar (hs : scalarOf? ty = some s) (hl : ofType limit ty = .ok l) {w : BitVec s.bits}
    (hw : word? entries s.bits c = some w)
    (hbytes : ∀ i < s.bytes, bytes[position + i]? = (Bytes.ofNat s.bytes w.toNat)[i]?) :
    Shows entries bytes ⟨position, l.size⟩ ty c where
  leaf h := by
    cases h with
    | scalar hs' =>
      cases hs.symm.trans hs'
      exact ⟨w, hw, hbytes⟩
    | element | field => cases hs
  rest hq h := by
    have hout := h 0 s c (.scalar hs)
    rw [(size_of_scalarOf? hs hl).1] at hq
    exact absurd hq hout

/-- Constants without content. -/
def Blank (c : Constant) : Prop := c = .zero ∨ c = .undef ∨ c = .null

theorem Blank.word? (h : Blank c) (entries : List Entry) (n : Nat) :
    word? entries n c = some 0 := by
  rcases h with rfl | rfl | rfl <;> rfl

theorem Blank.part? {part : Constant} (h : Blank c) {i : Nat} (hpart : part? c i = some part) :
    Blank part := by
  rcases h with rfl | rfl | rfl <;> cases hpart
  exacts [.inl rfl, .inr (.inl rfl), .inr (.inr rfl)]

theorem Leaf.blank {o : Nat} (h : Leaf ty c o s v) (hc : Blank c) : Blank v := by
  induction h with
  | scalar => exact hc
  | element _ hpart _ _ _ ih => exact ih (hc.part? hpart)
  | field _ hpart _ _ _ ih => exact ih (hc.part? hpart)

/-- Zeros show a constant without content, of any type. -/
theorem shows_of_zeros (hc : Blank c) (hl : ofType limit ty = .ok l)
    (hzero : ∀ q ∈ Span.mk position l.size, bytes[q]? = some 0) :
    Shows entries bytes ⟨position, l.size⟩ ty c where
  leaf {o s v} h := by
    refine ⟨0, (h.blank hc).word? entries s.bits, fun i hi => ?_⟩
    have hle := (h.le_size hl).1
    show bytes[position + o + i]? = (Bytes.ofNat s.bytes 0)[i]?
    rw [hzero _ (Span.mem_iff.mpr (by simp only; omega)), Bytes.ofNat_zero,
      List.getElem?_replicate, if_pos hi]
  rest hq _ := hzero _ hq

/-! ## Constants with parts -/

/-- The scalars of the parts of a constant, where the parts have types and offsets. -/
def PartLeaf (tys : List Ty) (offsets : List Nat) (c : Constant) (o : Nat) (s : Scalar)
    (v : Constant) : Prop :=
  ∃ (i : Nat) (t : Ty) (offset : Nat) (part : Constant) (o' : Nat), tys[i]? = some t ∧
    offsets[i]? = some offset ∧ part? c i = some part ∧ Leaf t part o' s v ∧ o = offset + o'

theorem leaf_struct_iff {packed : Bool} {fields : List Ty} (hls : ofTypes limit fields = .ok ls)
    {o : Nat} :
    Leaf (.struct packed fields) c o s v ↔ PartLeaf fields (offsetsFrom packed 0 ls) c o s v := by
  have hlays := lays_iff packed fields hls
  constructor
  · intro h
    cases h with
    | scalar hs => cases hs
    | field hty hpart hlay hoffset hleaf =>
      obtain ⟨rfl, -, -⟩ := (hlays _ _ _ _).mp hlay
      exact ⟨_, _, _, _, _, hty, hoffset, hpart, hleaf, rfl⟩
  · rintro ⟨i, t, offset, part, o', hty, hoffset, hpart, hleaf, rfl⟩
    exact .field hty hpart ((hlays _ _ _ _).mpr ⟨rfl, rfl, rfl⟩) hoffset hleaf

theorem leaf_array_iff {len : Nat} {elem : Ty} {e : Layout} (he : ofType limit elem = .ok e)
    {o : Nat} :
    Leaf (.array len elem) c o s v ↔
      PartLeaf (List.replicate len elem) ((List.range len).map (· * e.stride)) c o s v := by
  obtain ⟨hpos, hocc⟩ := occupies_iff elem he
  constructor
  · intro h
    cases h with
    | scalar hs => cases hs
    | element hi hpart helem hstride hleaf =>
      obtain rfl := stride_of_leastMultiple he helem hstride
      refine ⟨_, _, _, _, _, ?_, ?_, hpart, hleaf, rfl⟩
      · rw [List.getElem?_replicate, if_pos hi]
      · rw [List.getElem?_map, List.getElem?_range hi]
        rfl
  · rintro ⟨i, t, offset, part, o', ht, hoffset, hpart, hleaf, rfl⟩
    rw [List.getElem?_replicate, Option.ite_none_right_eq_some] at ht
    obtain ⟨hi, ht⟩ := ht
    cases ht
    rw [List.getElem?_map, List.getElem?_range hi] at hoffset
    cases hoffset
    exact .element hi hpart ((hocc _ _).mpr ⟨rfl, rfl⟩) ((leastMultiple_iff hpos).mpr rfl) hleaf

/-- A constant is in place if its parts are and what is outside of them is zero. -/
theorem shows_of_parts {size : Nat} {tys : List Ty} {offsets : List Nat}
    (hleaf : ∀ {o s v}, Leaf ty c o s v ↔ PartLeaf tys offsets c o s v)
    (hls : ofTypes limit tys = .ok ls) (hpart : ∀ i < ls.length, ∃ part, part? c i = some part)
    (hshows : ∀ {i : Nat} {t : Ty} {offset : Nat} {l : Layout} {part : Constant},
      tys[i]? = some t → offsets[i]? = some offset → ls[i]? = some l → part? c i = some part →
      Shows entries bytes ⟨position + offset, l.size⟩ t part)
    (hrest : ∀ q ∈ Span.mk position size, ¬ Covered (places (offsets.map (position + ·)) ls) q →
      bytes[q]? = some 0) : Shows entries bytes ⟨position, size⟩ ty c where
  leaf h := by
    obtain ⟨i, t, offset, part, o, ht, hoffset, hp, hinner, rfl⟩ := hleaf.mp h
    rw [ofTypes_eq_mapM] at hls
    obtain ⟨l, hl, -⟩ := getElem?_of_mapM_left hls ht
    obtain ⟨w, hw, hbytes⟩ := (hshows ht hoffset hl hp).leaf hinner
    refine ⟨w, hw, fun k hk => ?_⟩
    rw [← hbytes k hk, ← Nat.add_assoc]
  rest {q} hq h := by
    by_cases hcov : Covered (places (offsets.map (position + ·)) ls) q
    · -- The byte belongs to a part, and to no scalar of it.
      obtain ⟨i, p, l, hp, hl, hmem⟩ := covered_places_iff.mp hcov
      rw [List.getElem?_map, Option.map_eq_some_iff] at hp
      obtain ⟨offset, hoffset, rfl⟩ := hp
      obtain ⟨part, hp⟩ := hpart i (List.getElem?_eq_some_iff.mp hl).1
      rw [ofTypes_eq_mapM] at hls
      obtain ⟨t, ht, -⟩ := getElem?_of_mapM hls hl
      refine (hshows ht hoffset hl hp).rest hmem fun o s v hinner => ?_
      have hout := h (offset + o) s v
        (hleaf.mpr ⟨i, t, offset, part, o, ht, hoffset, hp, hinner, rfl⟩)
      rwa [← Nat.add_assoc] at hout
    · exact hrest q hq hcov

/-! ## Constants written one after another -/

/-- Writing a constant over zeros brings it in place. -/
def Lands (limit : Nat) (entries : List Entry) (ty : Ty) (c : Constant) : Prop :=
  ∀ {name : String} {l : Layout} {p : Nat} {bytes bytes' : List UInt8}, ofType limit ty = .ok l →
    (∀ q ∈ Span.mk p l.size, bytes[q]? = some 0) →
    Image.encode limit entries name ty l p bytes c = .ok bytes' →
    Shows entries bytes' ⟨p, l.size⟩ ty c

/-- Writing a constant changes nothing outside of its place. -/
def Keeps (limit : Nat) (entries : List Entry) (ty : Ty) (c : Constant) : Prop :=
  ∀ {name : String} {l : Layout} {p : Nat} {bytes bytes' : List UInt8}, ofType limit ty = .ok l →
    Image.encode limit entries name ty l p bytes c = .ok bytes' →
    ∀ {q : Nat}, q ∉ Span.mk p l.size → bytes'[q]? = bytes[q]?

theorem WellTyped.keeps (h : WellTyped ty c) : Keeps limit entries ty c := by
  intro name l p bytes bytes' hl hencode q hq
  refine (Image.writes_encode limit entries name c ty l p).frame hencode q fun hcov => hq ?_
  exact h.mem_of_covered hl hcov

/-- One constant comes to its place: it is written there, or it has no content and is left out. -/
inductive Placed (limit : Nat) (entries : List Entry) (p : Nat) (l : Layout) (ty : Ty) :
    List UInt8 → Constant → List UInt8 → Prop where
  | written {name : String} {bytes bytes' : List UInt8} {c : Constant}
      (h : Image.encode limit entries name ty l p bytes c = .ok bytes') :
      Placed limit entries p l ty bytes c bytes'
  | omitted {bytes : List UInt8} : Placed limit entries p l ty bytes .zero bytes

/-- Several constants come to their places in turn. -/
inductive AllPlaced (limit : Nat) (entries : List Entry) : List UInt8 → List Nat → List Layout →
    List (Ty × Constant) → List UInt8 → Prop where
  | nil {bytes : List UInt8} : AllPlaced limit entries bytes [] [] [] bytes
  | cons {bytes mid bytes' : List UInt8} {p : Nat} {ps : List Nat} {l : Layout} {ls : List Layout}
      {ty : Ty} {c : Constant} {items : List (Ty × Constant)}
      (hhead : Placed limit entries p l ty bytes c mid)
      (hrest : AllPlaced limit entries mid ps ls items bytes') :
      AllPlaced limit entries bytes (p :: ps) (l :: ls) ((ty, c) :: items) bytes'

section

variable {bytes' : List UInt8} {ps : List Nat} {items : List (Ty × Constant)}

theorem allPlaced_of_encodeItems (hls : ofTypes limit (items.map Prod.fst) = .ok ls)
    (hlen : ps.length = ls.length)
    (h : Image.encodeItems limit entries name bytes ps items = .ok bytes') :
    AllPlaced limit entries bytes ps ls items bytes' := by
  induction items generalizing ls ps bytes with
  | nil =>
    cases hls
    obtain rfl := List.length_eq_zero_iff.mp hlen
    cases h
    exact .nil
  | cons item items ih =>
    obtain ⟨ty, c⟩ := item
    obtain ⟨l, ls, hl, htail, rfl⟩ := ofTypes_cons_eq_ok.mp hls
    cases ps with
    | nil => cases hlen
    | cons p ps =>
      simp only [Image.encodeItems, hl, bind_eq_ok] at h
      obtain ⟨mid, hmid, h⟩ := h
      exact .cons (.written hmid) (ih htail (Nat.succ.inj hlen) h)

theorem Placed.frame {p : Nat} (h : Placed limit entries p l ty bytes c bytes')
    (hl : ofType limit ty = .ok l) (hkeeps : Keeps limit entries ty c) {q : Nat}
    (hq : q ∉ Span.mk p l.size) : bytes'[q]? = bytes[q]? := by
  cases h with
  | omitted => rfl
  | written h => exact hkeeps hl h hq

theorem Placed.shows {p : Nat} (h : Placed limit entries p l ty bytes c bytes')
    (hl : ofType limit ty = .ok l) (hlands : Lands limit entries ty c)
    (hzero : ∀ q ∈ Span.mk p l.size, bytes[q]? = some 0) :
    Shows entries bytes' ⟨p, l.size⟩ ty c := by
  cases h with
  | written h => exact hlands hl hzero h
  | omitted => exact shows_of_zeros (.inl rfl) hl hzero

theorem AllPlaced.frame (h : AllPlaced limit entries bytes ps ls items bytes')
    (hls : ofTypes limit (items.map Prod.fst) = .ok ls)
    (hkeeps : ∀ item ∈ items, Keeps limit entries item.1 item.2) {q : Nat}
    (hq : ¬ Covered (places ps ls) q) : bytes'[q]? = bytes[q]? := by
  induction h with
  | nil => rfl
  | cons hhead _ ih =>
    obtain ⟨_, _, hl, htail, heq⟩ := ofTypes_cons_eq_ok.mp hls
    cases heq
    rw [covered_places_cons, not_or] at hq
    rw [List.forall_mem_cons] at hkeeps
    rw [ih htail hkeeps.2 hq.2, hhead.frame hl hkeeps.1 hq.1]

/-- Of constants that come over zeros, to places behind one another, each that lands is in place in
the end. -/
theorem AllPlaced.shows (h : AllPlaced limit entries bytes ps ls items bytes')
    (hls : ofTypes limit (items.map Prod.fst) = .ok ls)
    (hkeeps : ∀ item ∈ items, Keeps limit entries item.1 item.2)
    {low high : Nat} (hspaced : Spaced low ps ls high)
    (hzero : ∀ q, low ≤ q → q < high → bytes[q]? = some 0)
    {i p : Nat} {l : Layout} {ty : Ty} {c : Constant} (hp : ps[i]? = some p) (hl : ls[i]? = some l)
    (hc : items[i]? = some (ty, c)) (hlands : Lands limit entries ty c) :
    Shows entries bytes' ⟨p, l.size⟩ ty c := by
  induction h generalizing i low with
  | nil => cases hp
  | @cons bytes mid bytes' p' ps l' ls ty' c' items hhead hrest ih =>
    obtain ⟨_, _, hl', htail, heq⟩ := ofTypes_cons_eq_ok.mp hls
    cases heq
    rw [List.forall_mem_cons] at hkeeps
    cases hspaced with
    | cons hlow hspaced =>
      have hle := hspaced.le
      cases i with
      | zero =>
        cases hp
        cases hl
        cases hc
        -- The rest lies behind the first constant and leaves it as it is.
        have hhere : Shows entries mid ⟨p, l.size⟩ ty c :=
          hhead.shows hl' hlands fun q hq => hzero q (Nat.le_trans hlow hq.1)
            (Nat.lt_of_lt_of_le hq.2 hle)
        refine hhere.congr hl' fun q hq => hrest.frame htail hkeeps.2 fun hcov => ?_
        exact absurd hq.2 (Nat.not_lt.mpr (hspaced.bounds_of_covered hcov).1)
      | succ i =>
        refine ih htail hkeeps.2 hspaced (fun q hq hhigh => ?_) hp hl hc
        rw [hhead.frame hl' hkeeps.1 fun hmem => absurd hmem.2 (Nat.not_lt.mpr hq)]
        exact hzero q (by omega) hhigh

end

/-! ## Well-typed constants land -/

theorem ofInt_eq (n : Nat) (v : Int) {w : BitVec (8 * n)} (hw : w = BitVec.ofInt (8 * n) v) :
    Bytes.ofInt n v = Bytes.ofNat n w.toNat := by
  rw [hw, BitVec.toNat_ofInt, Bytes.ofInt]
  rfl

/-- The bytes of a well-typed scalar spell its word. -/
theorem WellTyped.leaf?_eq (h : WellTyped ty c) (hs : scalarOf? ty = some s)
    (hl : ofType limit ty = .ok l) {data : List UInt8}
    (hdata : Image.leaf? entries ty l name c = .ok data) :
    ∃ w, word? entries s.bits c = some w ∧ data = Bytes.ofNat s.bytes w.toNat := by
  cases h with
  | @int bits v =>
    cases hs
    rcases ofLeaf_int hl with ⟨rfl, rfl⟩ | ⟨hbits, rfl⟩
    -- A truth value takes a byte, whose upper bits are zero.
    · cases hdata
      refine ⟨BitVec.ofInt 1 v, rfl, ?_⟩
      have hlt : (v % 2).toNat < 256 := by omega
      have hword : (BitVec.ofInt 1 v).toNat = (v % 2).toNat := BitVec.toNat_ofInt ..
      show [UInt8.ofNat (v % 2).toNat] = [UInt8.ofNat ((BitVec.ofInt 1 v).toNat % 256)]
      rw [hword, Nat.mod_eq_of_lt hlt]
    · cases hdata
      simp only [List.mem_cons, List.not_mem_nil, or_false] at hbits
      rcases hbits with rfl | rfl | rfl | rfl | rfl <;> exact ⟨_, rfl, ofInt_eq _ _ rfl⟩
  | address =>
    cases hs
    cases hl
    cases hdata
    exact ⟨_, rfl, ofInt_eq _ _ rfl⟩
  | @bool b =>
    cases hs
    cases hl
    cases hdata
    exact ⟨BitVec.ofNat 1 b.toNat, rfl, by cases b <;> rfl⟩
  | @double bits =>
    cases hs
    cases hl
    cases hdata
    exact ⟨_, rfl, (Bytes.ofNat_mod 8 bits).symm⟩
  | @global id =>
    cases hs
    cases hl
    cases he : Image.find? entries id with
    | none => simp [Image.leaf?, he, Image.leaf?.refuse] at hdata
    | some e =>
      simp only [Image.leaf?, he, pure_eq_ok] at hdata
      refine ⟨BitVec.ofNat 64 e.address, by rw [word?, he]; rfl, ?_⟩
      rw [← hdata]
      exact (Bytes.ofNat_mod 8 e.address).symm
  | zero | undef | null =>
    cases hdata
    refine ⟨0, rfl, ?_⟩
    rw [(size_of_scalarOf? hs hl).1]
    exact (Bytes.ofNat_zero _).symm
  | bytes | array | struct => cases hs

/-- What is written to a place is there. -/
theorem getElem?_overwrite_add {new : List UInt8} {start i : Nat}
    (h : start + new.length ≤ bytes.length) (hi : i < new.length) :
    (Image.overwrite bytes start new)[start + i]? = new[i]? := by
  rw [Image.getElem?_overwrite h, if_pos (Span.mem_iff.mpr (by simp only; omega)),
    Nat.add_sub_cancel_left]

/-- A constant of a scalar type is written in one piece. -/
theorem encode_of_scalar (hs : scalarOf? ty = some s) (hl : ofType limit ty = .ok l) (p : Nat)
    (bytes : List UInt8) (c : Constant) :
    Image.encode limit entries name ty l p bytes c = if bytes.length < p + l.size then
        .error (.unsupportedConstruct (.overrun ty) (.initializer name))
      else return Image.overwrite bytes p (← Image.leaf? entries ty l name c) := by
  cases ty with
  | int bits =>
    rcases ofLeaf_int hl with ⟨rfl, rfl⟩ | ⟨-, rfl⟩ <;> cases c <;> simp only [Image.encode]
  | float | double | ptr =>
    cases hl
    cases c <;> simp only [Image.encode]
  | void | half | x86Fp80 | fp128 | label | metadata | array | struct | function => cases hs

theorem WellTyped.lands_scalar (h : WellTyped ty c) (hs : scalarOf? ty = some s) :
    Lands limit entries ty c := by
  intro name l p bytes bytes' hl _ hencode
  rw [encode_of_scalar hs hl, ite_error_eq_ok, Nat.not_lt, bind_eq_ok] at hencode
  obtain ⟨hfits, data, hdata, hencode⟩ := hencode
  obtain rfl := pure_eq_ok.mp hencode
  obtain ⟨w, hw, rfl⟩ := h.leaf?_eq hs hl hdata
  have hlen := Bytes.length_ofNat s.bytes w.toNat
  rw [(size_of_scalarOf? hs hl).1] at hfits
  refine shows_scalar hs hl hw fun i hi => ?_
  exact getElem?_overwrite_add (by rwa [hlen]) (by rwa [hlen])

theorem Blank.lands (h : Blank c) : Lands limit entries ty c := by
  intro name l p bytes bytes' hl hzero hencode
  have hopen : ¬ bytes.length < p + l.size ∧
      Image.overwrite bytes p (List.replicate l.size 0) = bytes' := by
    rcases h with rfl | rfl | rfl <;>
      · simp only [Image.encode] at hencode
        rw [ite_error_eq_ok] at hencode
        exact ⟨hencode.1, Except.ok.inj hencode.2⟩
  obtain ⟨hfits, rfl⟩ := hopen
  refine shows_of_zeros h hl fun q hq => ?_
  rw [Image.getElem?_overwrite (by rw [List.length_replicate]; omega), List.length_replicate,
    if_pos hq, List.getElem?_replicate, if_pos]
  have := hq.1
  have := hq.2
  simp only [Span.stop] at *
  omega

theorem ofNat_byte (b : UInt8) :
    b = UInt8.ofNat ((BitVec.ofInt 8 (b.toNat : Int)).toNat % 256) := by
  have hlt : b.toNat < 256 := b.toNat_lt
  have hword : (BitVec.ofInt 8 (b.toNat : Int)).toNat = b.toNat := by
    rw [BitVec.toNat_ofInt]
    omega
  rw [hword, Nat.mod_eq_of_lt hlt, UInt8.ofNat_toNat]

/-- The bytes of a string are its elements. -/
theorem lands_bytes {len : Nat} {data : List UInt8} (hlen : data.length = len) :
    Lands limit entries (.array len (.int 8)) (.bytes data) := by
  intro name l p bytes bytes' hl hzero hencode
  have hbyte : ofType limit (.int 8) = .ok (int 8) := by
    obtain ⟨e, he, -⟩ := ofType_array_eq_ok.mp hl
    rcases ofLeaf_int he with ⟨h, -⟩ | ⟨-, rfl⟩
    · cases h
    · exact he
  obtain rfl := ofType_byteArray hl
  simp only [Image.encode, ite_error_eq_ok, bind_eq_ok, pure_eq_ok, Image.leaf?,
    Image.leaf?.refuse, size_byteArray] at hencode
  obtain ⟨hfits, _, ⟨-, rfl⟩, rfl⟩ := hencode
  have hfits : p + data.length ≤ bytes.length := by omega
  have hstride : (int 8).stride = 1 := rfl
  have hoffset : ∀ {i offset : Nat}, ((List.range len).map (· * (int 8).stride))[i]? = some offset →
      i < len ∧ offset = i := by
    intro i offset h
    rw [List.getElem?_map, Option.map_eq_some_iff] at h
    obtain ⟨k, hk, rfl⟩ := h
    obtain ⟨hi, rfl⟩ := List.getElem?_eq_some_iff.mp hk
    rw [List.getElem_range, hstride, Nat.mul_one]
    exact ⟨by simpa using hi, rfl⟩
  refine shows_of_parts (leaf_array_iff hbyte) (ofTypes_replicate hbyte len) ?_ ?_ ?_
  case refine_1 =>
    intro i hi
    rw [List.length_replicate, ← hlen] at hi
    exact ⟨_, by rw [part?, List.getElem?_eq_getElem hi]; rfl⟩
  case refine_2 =>
    intro i t offset l part ht ho hl hpart
    obtain ⟨hi, rfl⟩ := hoffset ho
    rw [List.getElem?_replicate, if_pos hi] at ht hl
    cases ht
    cases hl
    rw [part?, Option.map_eq_some_iff] at hpart
    obtain ⟨b, hb, rfl⟩ := hpart
    refine shows_scalar rfl hbyte rfl fun k hk => ?_
    obtain rfl : k = 0 := Nat.lt_one_iff.mp hk
    rw [Nat.add_zero, getElem?_overwrite_add hfits (hlen ▸ hi), hb]
    exact congrArg some (ofNat_byte b)
  case refine_3 =>
    -- Every position of the place is that of an element.
    intro q hq hcov
    have hlow : p ≤ q := hq.1
    have hhigh : q < p + len := size_byteArray len ▸ hq.2
    refine absurd (covered_places_iff.mpr ⟨q - p, q, int 8, ?_, ?_, ?_⟩) hcov
    · rw [List.getElem?_map, List.getElem?_map, List.getElem?_range (by omega), hstride]
      show some (p + (q - p) * 1) = some q
      rw [Nat.mul_one, Nat.add_sub_cancel' hlow]
    · rw [List.getElem?_replicate, if_pos (by omega)]
    · exact ⟨Nat.le_refl _, Nat.lt_succ_self _⟩

/-- Items that are written to the offsets of their types make up the constant that has them as its
parts. -/
theorem shows_of_encodeItems
    {bytes' : List UInt8} {p size : Nat} {offsets : List Nat}
    {items : List (Ty × Constant)}
    (hls : ofTypes limit (items.map Prod.fst) = .ok ls)
    (hleaf : ∀ {o s v}, Leaf ty c o s v ↔ PartLeaf (items.map Prod.fst) offsets c o s v)
    (hparts : ∀ i, part? c i = items[i]?.map Prod.snd)
    (hkeeps : ∀ item ∈ items, Keeps limit entries item.1 item.2)
    (hlands : ∀ item ∈ items, Lands limit entries item.1 item.2)
    {high : Nat} (hspaced : Spaced p (offsets.map (p + ·)) ls high) (hhigh : high ≤ p + size)
    (hzero : ∀ q ∈ Span.mk p size, bytes[q]? = some 0)
    (hencode : Image.encodeItems limit entries name bytes (offsets.map (p + ·)) items
      = .ok bytes') :
    Shows entries bytes' ⟨p, size⟩ ty c := by
  have hplaced := allPlaced_of_encodeItems hls hspaced.length_eq hencode
  have hlen : ls.length = items.length := by
    rw [ofTypes_eq_mapM] at hls
    rw [length_of_mapM hls, List.length_map]
  refine shows_of_parts hleaf hls ?_ ?_ ?_
  case refine_1 =>
    intro i hi
    rw [hlen] at hi
    exact ⟨_, by rw [hparts, List.getElem?_eq_getElem hi]; rfl⟩
  case refine_2 =>
    intro i t offset l part ht hoffset hl hpart
    rw [hparts, Option.map_eq_some_iff] at hpart
    obtain ⟨⟨t', part'⟩, hitem, rfl⟩ := hpart
    rw [List.getElem?_map, hitem] at ht
    cases ht
    refine hplaced.shows hls hkeeps hspaced (fun q hlow hq => ?_) ?_ hl hitem
      (hlands _ (List.mem_of_getElem? hitem))
    · exact hzero q ⟨hlow, Nat.lt_of_lt_of_le hq hhigh⟩
    · rw [List.getElem?_map, hoffset]
      rfl
  case refine_3 =>
    intro q hq hcov
    rw [hplaced.frame hls hkeeps hcov, hzero q hq]

/-- A well-typed constant lands, whatever it is made of. -/
theorem WellTyped.lands (h : WellTyped ty c) : Lands limit entries ty c := by
  -- By induction on the typing: the parts of an aggregate land, one behind the other.
  induction h with
  | zero => exact Blank.lands (.inl rfl)
  | undef => exact Blank.lands (.inr (.inl rfl))
  | null => exact Blank.lands (.inr (.inr rfl))
  | bytes hlen => exact lands_bytes hlen
  | int => exact WellTyped.int.lands_scalar rfl
  | address => exact WellTyped.address.lands_scalar rfl
  | bool => exact WellTyped.bool.lands_scalar rfl
  | double => exact WellTyped.double.lands_scalar rfl
  | global => exact WellTyped.global.lands_scalar rfl
  | @array len elem items hlen helem hitems ih =>
    intro name l p bytes bytes' hl hzero hencode
    obtain ⟨e, he, rfl⟩ := ofType_array_eq_ok.mp hl
    subst hlen
    rw [Image.encode, ite_error_eq_ok] at hencode
    have htys : items.map Prod.fst = List.replicate items.length elem := by
      refine List.eq_replicate_iff.mpr ⟨List.length_map .., fun ty hty => ?_⟩
      obtain ⟨item, hitem, rfl⟩ := List.mem_map.mp hty
      exact helem item hitem
    have hmap : (List.range items.length).map (fun i => p + i * e.stride) =
        ((List.range items.length).map (· * e.stride)).map (p + ·) := by
      rw [List.map_map]
      rfl
    have hspaced := spaced_elements p e items.length
    rw [hmap] at hspaced hencode
    refine shows_of_encodeItems (ofTypes_elements he helem) ?_ (fun _ => rfl)
      (fun item hitem => (hitems item hitem).keeps) ih hspaced ?_ hzero hencode.2
    · rw [htys]
      exact leaf_array_iff he
    · rw [Nat.mul_comm]
      exact Nat.le_refl _
  | @struct packed fields items hfields hitems ih =>
    intro name l p bytes bytes' hl hzero hencode
    obtain ⟨ls, hls, rfl⟩ := ofType_struct_eq_ok.mp hl
    subst hfields
    rw [Image.encode, ite_error_eq_ok] at hencode
    exact shows_of_encodeItems hls (leaf_struct_iff hls) (fun _ => rfl)
      (fun item hitem => (hitems item hitem).keeps) ih (spaced_offsets p packed 0 ls)
      (Nat.add_le_add_left (le_alignUp ..) p) hzero hencode.2

end Layout

end SafeIR
