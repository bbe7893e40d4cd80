import SafeIR.Proofs.Memory.Regions

/-!
# Typed access

There is one array of bytes, and every typed access is a view of some of them, lowest byte first.
`loadWord_eq_ok` says so for a word of any width: a load gives the one word whose bytes stand at its
positions. What a store leaves behind, at its own positions and at all others, follows from there
for accesses of every type at every address, also where two of them overlap.
-/

namespace SafeIR

variable {addr : UInt64} {n : Nat} {w : BitVec (8 * n)}

/-! ## Bytes of words -/

namespace Bytes

theorem toNat_lt (bs : List UInt8) : toNat bs < twoPow (8 * bs.length) := by
  induction bs with
  | nil => exact Nat.one_pos
  | cons b bs ih =>
    have hb : b.toNat < 256 := b.toNat_lt
    have hbyte : twoPow 8 = 256 := rfl
    rw [toNat, List.length_cons, Nat.mul_succ, twoPow_add, hbyte]
    omega

theorem ofNat_toNat (bs : List UInt8) : ofNat bs.length (toNat bs) = bs := by
  induction bs with
  | nil => rfl
  | cons b bs ih =>
    have hb : b.toNat < 256 := b.toNat_lt
    have hlow : (b.toNat + 256 * toNat bs) % 256 = b.toNat := by omega
    have hhigh : (b.toNat + 256 * toNat bs) / 256 = toNat bs := by omega
    rw [toNat, List.length_cons, ofNat, hlow, hhigh, ih, UInt8.ofNat_toNat]

theorem getElem?_ofNat {k : Nat} (v : Nat) (hk : k < n) :
    (ofNat n v)[k]? = some (UInt8.ofNat (v >>> (8 * k))) := by
  induction n generalizing v k with
  | zero => omega
  | succ n ih =>
    cases k with
    | zero =>
      refine congrArg some (UInt8.toNat_inj.mp ?_)
      simp
    | succ k =>
      have hshift : (v / 256) >>> (8 * k) = v >>> (8 * (k + 1)) := by
        rw [Nat.mul_succ, Nat.add_comm, Nat.shiftRight_add, Nat.shiftRight_eq_div_pow v 8]
      rw [ofNat, List.getElem?_cons_succ, ih (v / 256) (Nat.lt_of_succ_lt_succ hk), hshift]

/-- The bytes of a word are its bits, eight by eight. -/
theorem getElem?_ofNat_word {k : Nat} (w : BitVec (8 * n)) (hk : k < n) :
    (ofNat n w.toNat)[k]? = some ⟨w.extractLsb' (8 * k) 8⟩ :=
  getElem?_ofNat w.toNat hk

end Bytes

namespace Memory

variable {m m' : Memory}

/-! ## Words -/

/-- A load gives the word whose bytes stand at its positions. -/
theorem loadWord_eq_ok :
    m.loadWord n addr = .ok w ↔
      (nullGuard ≤ addr.toNat ∧ addr.toNat + n ≤ m.size) ∧
        ∀ k < n, m.byte? (addr.toNat + k) = some ⟨w.extractLsb' (8 * k) 8⟩ := by
  have hlen := Bytes.length_ofNat n w.toNat
  rw [loadWord, bind_eq_ok]
  simp only [check_eq_ok, pure_eq_ok]
  constructor
  · rintro ⟨_, hrange, rfl⟩
    refine ⟨hrange, fun k hk => ?_⟩
    have hslice := length_slice hrange.2
    have hlt := Bytes.toNat_lt (m.slice addr.toNat n)
    have hbytes := Bytes.ofNat_toNat (m.slice addr.toNat n)
    rw [hslice] at hlt hbytes
    have hword : (BitVec.ofNat (8 * n) (Bytes.toNat (m.slice addr.toNat n))).toNat
        = Bytes.toNat (m.slice addr.toNat n) := Nat.mod_eq_of_lt hlt
    rw [← getElem?_slice hk, ← Bytes.getElem?_ofNat_word _ hk, hword, hbytes]
  · rintro ⟨hrange, hbytes⟩
    refine ⟨(), hrange, ?_⟩
    have hslice : m.slice addr.toNat (Bytes.ofNat n w.toNat).length = Bytes.ofNat n w.toNat := by
      refine slice_eq (by rw [hlen]; exact hrange.2) fun k hk => ?_
      rw [hlen] at hk
      rw [hbytes k hk, Bytes.getElem?_ofNat_word w hk]
    rw [hlen] at hslice
    have hword : w.toNat % twoPow (8 * n) = w.toNat := Nat.mod_eq_of_lt w.isLt
    rw [hslice, Bytes.toNat_ofNat, hword, BitVec.ofNat_toNat, BitVec.setWidth_eq]

theorem storeWord_eq_ok :
    m.storeWord n addr w = .ok m' ↔
      (nullGuard ≤ addr.toNat ∧ addr.toNat + n ≤ m.size) ∧
        m.patch addr.toNat (Bytes.ofNat n w.toNat) = m' := by
  rw [storeWord, write_eq_ok, Bytes.length_ofNat]

/-- What stands at a position after a word was stored. -/
theorem byte?_storeWord (h : m.storeWord n addr w = .ok m') (p : Nat) :
    m'.byte? p =
      if p ∈ Span.mk addr.toNat n then (Bytes.ofNat n w.toNat)[p - addr.toNat]? else m.byte? p := by
  obtain ⟨hrange, rfl⟩ := storeWord_eq_ok.mp h
  rw [byte?_patch (by rw [Bytes.length_ofNat]; exact hrange.2), Bytes.length_ofNat]

/-- A word that was stored is there, byte by byte. -/
theorem byte?_stored {k : Nat} (h : m.storeWord n addr w = .ok m') (hk : k < n) :
    m'.byte? (addr.toNat + k) = some ⟨w.extractLsb' (8 * k) 8⟩ := by
  have hmem : addr.toNat + k ∈ Span.mk addr.toNat n :=
    Span.mem_iff.mpr ⟨Nat.le_add_right .., Nat.add_lt_add_left hk _⟩
  rw [byte?_storeWord h, if_pos hmem, Nat.add_sub_cancel_left, Bytes.getElem?_ofNat_word w hk]

theorem size_storeWord (h : m.storeWord n addr w = .ok m') : m'.size = m.size := by
  obtain ⟨-, rfl⟩ := storeWord_eq_ok.mp h
  exact size_patch ..

/-- A load depends on the size and on the bytes at its positions only. -/
theorem loadWord_congr (hsize : m'.size = m.size)
    (hbytes : ∀ k < n, m'.byte? (addr.toNat + k) = m.byte? (addr.toNat + k)) :
    m'.loadWord n addr = m.loadWord n addr := by
  have hcheck : m'.check addr.toNat n = m.check addr.toNat n := by rw [check, check, hsize]
  cases h : m.loadWord n addr with
  | ok w =>
    obtain ⟨hrange, hword⟩ := loadWord_eq_ok.mp h
    exact loadWord_eq_ok.mpr ⟨hsize ▸ hrange, fun k hk => (hbytes k hk).trans (hword k hk)⟩
  | error t =>
    rw [loadWord] at h ⊢
    rw [hcheck]
    cases hresult : m.check addr.toNat n with
    | ok u =>
      rw [hresult] at h
      cases h
    | error t' =>
      rw [hresult] at h
      exact h

/-! ## Traps -/

/-- The trap that a computation ends with. -/
def trap? {α : Type} : Except Trap α → Option Trap
  | .ok _ => none
  | .error t => some t

/-- The trap for `width` bytes at an address: the guard comes first, then the end of all addresses
and the end of the array. -/
def rangeTrap? (m : Memory) (addr : UInt64) (width : Nat) : Option Trap :=
  if addr.toNat < nullGuard then some .nullDereference
  else if twoPow 64 ≤ addr.toNat + width ∨ m.size < addr.toNat + width then some .outOfBounds
  else none

/-- A range behind the last address is behind the end of the array too. -/
theorem trap?_check (hsize : m.size < twoPow 64) (addr : UInt64) (width : Nat) :
    trap? (m.check addr.toNat width) = m.rangeTrap? addr width := by
  unfold rangeTrap?
  split
  next h => rw [check_of_lt h]; rfl
  next hguard =>
    split
    next h => rw [check_of_gt (Nat.not_lt.mp hguard) (by omega)]; rfl
    next h => rw [check_eq_ok (u := ()).mpr ⟨Nat.not_lt.mp hguard, by omega⟩]; rfl

theorem trap?_bind_pure {α β : Type} (x : Except Trap α) (f : α → β) :
    trap? (do return f (← x)) = trap? x := by
  cases x <;> rfl

theorem trap?_map {α β : Type} (x : Except Trap α) (f : α → β) : trap? (x.map f) = trap? x := by
  cases x <;> rfl

theorem trap?_loadWord (hsize : m.size < twoPow 64) (n : Nat) (addr : UInt64) :
    trap? (m.loadWord n addr) = m.rangeTrap? addr n := by
  rw [loadWord, trap?_bind_pure, trap?_check hsize]

theorem trap?_storeWord (hsize : m.size < twoPow 64) (addr : UInt64) (w : BitVec (8 * n)) :
    trap? (m.storeWord n addr w) = m.rangeTrap? addr n := by
  rw [storeWord, write, trap?_bind_pure, trap?_check hsize, Bytes.length_ofNat]

/-! ## Types -/

/-- The types of values that are loaded and stored. -/
inductive Access where
  | bool | i8 | i16 | i32 | i64 | i128 | f32 | f64 | ptr
  deriving DecidableEq, Repr

namespace Access

/-- The number of bytes. -/
def width : Access → Nat
  | bool | i8 => 1
  | i16 => 2
  | i32 | f32 => 4
  | i64 | f64 | ptr => 8
  | i128 => 16

/-- The values of a type: integers in two's complement, and floats by their bits. -/
def Value : Access → Type
  | bool => Bool
  | a => BitVec (8 * a.width)

/-- A read of the width of an access. -/
def load (m : Memory) (addr : UInt64) : (a : Access) → Except Trap a.Value
  | bool => m.loadBool addr
  | i8 => m.loadWord 1 addr
  | i16 => m.loadWord 2 addr
  | i32 | f32 => m.loadWord 4 addr
  | i64 | f64 | ptr => m.loadWord 8 addr
  | i128 => m.loadWord 16 addr

/-- A write of the width of an access. -/
def store (m : Memory) (addr : UInt64) : (a : Access) → a.Value → Except Trap Memory
  | bool, v => m.storeBool addr v
  | i8, v => m.storeWord 1 addr v
  | i16, v => m.storeWord 2 addr v
  | i32, v | f32, v => m.storeWord 4 addr v
  | i64, v | f64, v | ptr, v => m.storeWord 8 addr v
  | i128, v => m.storeWord 16 addr v

/-- The bits that stand for a value. -/
def toBits : (a : Access) → a.Value → BitVec (8 * a.width)
  | bool, (v : Bool) => if v then 1 else 0
  | i8, v | i16, v | i32, v | i64, v | i128, v | f32, v | f64, v | ptr, v => v

/-- The value that bits are read as. Of a truth value only the lowest bit counts. -/
def ofBits : (a : Access) → BitVec (8 * a.width) → a.Value
  | bool, w => w.getLsbD 0
  | i8, w | i16, w | i32, w | i64, w | i128, w | f32, w | f64, w | ptr, w => w

theorem ofBits_toBits (a : Access) (v : a.Value) : a.ofBits (a.toBits v) = v := by
  cases a with
  | bool => cases v <;> rfl
  | i8 | i16 | i32 | i64 | i128 | f32 | f64 | ptr => rfl

theorem load_eq (m : Memory) (addr : UInt64) (a : Access) :
    load m addr a = (m.loadWord a.width addr).map a.ofBits := by
  cases a with
  | bool =>
    show m.loadBool addr = (m.loadWord 1 addr).map _
    rw [loadBool]
    cases m.loadWord 1 addr <;> rfl
  | i8 | i16 | i32 | i64 | i128 | f32 | f64 | ptr =>
    exact (id_map (m.loadWord _ addr)).symm

theorem store_eq (m : Memory) (addr : UInt64) (a : Access) (v : a.Value) :
    store m addr a v = m.storeWord a.width addr (a.toBits v) := by
  cases a with
  | bool | i8 | i16 | i32 | i64 | i128 | f32 | f64 | ptr => rfl

/-- The byte at a position, as an access of its own. -/
theorem load_byte {k : Nat} {w : BitVec n} (hsize : m.size < twoPow 64)
    (hguard : nullGuard ≤ addr.toNat) (hend : addr.toNat + k < m.size)
    (hbyte : m.byte? (addr.toNat + k) = some ⟨w.extractLsb' (8 * k) 8⟩) :
    load m (addr + UInt64.ofNat k) i8 = .ok (w.extractLsb' (8 * k) 8) := by
  have hlt : addr.toNat + k < twoPow 64 := Nat.lt_trans hend hsize
  have hk : (UInt64.ofNat k).toNat = k :=
    UInt64.toNat_ofNat_of_lt' (Nat.lt_of_le_of_lt (Nat.le_add_left ..) hlt)
  have hsum : (addr + UInt64.ofNat k).toNat = addr.toNat + k := by
    rw [UInt64.toNat_add, hk]
    exact Nat.mod_eq_of_lt hlt
  refine loadWord_eq_ok.mpr ⟨by rw [hsum]; omega, fun j hj => ?_⟩
  obtain rfl : j = 0 := by omega
  rw [hsum, Nat.add_zero, hbyte]
  simp

end Access

/-- Typed access to a memory whose size is a word, for every type and address. Whether an access
traps, and with which trap, depends on its range alone. A load reads the bits that loads of single
bytes give, from the lowest on. After a store the load gives the value, loads of single bytes give
its bits, and every other byte is as it was, and so is every load that shares no byte with the
store. -/
theorem typed_access_little_endian (m : Memory) (hsize : m.size < twoPow 64) :
    (∀ a addr, trap? (Access.load m addr a) = m.rangeTrap? addr a.width ∧
      ∀ v, trap? (Access.store m addr a v) = m.rangeTrap? addr a.width) ∧
    (∀ a addr v, Access.load m addr a = .ok v →
      ∃ w, v = a.ofBits w ∧ ∀ k < a.width,
        Access.load m (addr + UInt64.ofNat k) .i8 = .ok (w.extractLsb' (8 * k) 8)) ∧
    ∀ a addr v m', Access.store m addr a v = .ok m' →
      Access.load m' addr a = .ok v ∧
      (∀ k < a.width,
        Access.load m' (addr + UInt64.ofNat k) .i8 = .ok ((a.toBits v).extractLsb' (8 * k) 8)) ∧
      m'.size = m.size ∧
      (∀ p, p ∉ Span.mk addr.toNat a.width → m'.byte? p = m.byte? p) ∧
      ∀ b addr', Span.Disjoint ⟨addr'.toNat, b.width⟩ ⟨addr.toNat, a.width⟩ →
        Access.load m' addr' b = Access.load m addr' b := by
  refine ⟨fun a addr => ⟨?_, fun v => ?_⟩, fun a addr v hload => ?_, fun a addr v m' hstore => ?_⟩
  · rw [Access.load_eq, trap?_map, trap?_loadWord hsize]
  · rw [Access.store_eq, trap?_storeWord hsize]
  · rw [Access.load_eq, map_eq_ok] at hload
    obtain ⟨w, hw, rfl⟩ := hload
    obtain ⟨⟨hguard, hend⟩, hbytes⟩ := loadWord_eq_ok.mp hw
    exact ⟨w, rfl, fun k hk => Access.load_byte hsize hguard (by omega) (hbytes k hk)⟩
  · rw [Access.store_eq] at hstore
    have hsame := size_storeWord hstore
    obtain ⟨⟨hguard, hend⟩, -⟩ := storeWord_eq_ok.mp hstore
    have hframe : ∀ p, p ∉ Span.mk addr.toNat a.width → m'.byte? p = m.byte? p := by
      intro p hp
      rw [byte?_storeWord hstore, if_neg hp]
    refine ⟨?_, fun k hk => ?_, hsame, hframe, fun b addr' hdisjoint => ?_⟩
    · have hload : m'.loadWord a.width addr = .ok (a.toBits v) :=
        loadWord_eq_ok.mpr ⟨by rw [hsame]; exact ⟨hguard, hend⟩, fun k hk => byte?_stored hstore hk⟩
      rw [Access.load_eq, hload]
      exact congrArg Except.ok (a.ofBits_toBits v)
    · exact Access.load_byte (by rwa [hsame]) hguard (by rw [hsame]; omega) (byte?_stored hstore hk)
    · rw [Access.load_eq, Access.load_eq, loadWord_congr hsame fun k hk => hframe _ fun hmem => ?_]
      -- A byte of the load is none of the store.
      rw [Span.mem_iff] at hmem
      simp only [Span.Disjoint, Span.stop] at hdisjoint hmem
      omega

/-- A word over the end of the globals, and what accesses of other widths find: a byte of it, and
the globals before it. There is no room for a word at the last byte of the guard, in the last three
bytes and at the end of all addresses. -/
theorem typed_access_overlapping :
    ∃ m m', m = withConfig [1, 2, 3, 4] ⟨64, 64⟩ ∧ m.size = 208 ∧
      Access.store m 66 .i32 0x80706050#32 = .ok m' ∧
      Access.load m' 66 .f32 = .ok 0x80706050#32 ∧ Access.load m' 68 .i8 = .ok 0x70#8 ∧
      Access.load m' 64 .i16 = .ok 0x0201#16 ∧
      trap? (Access.load m 63 .i32) = some .nullDereference ∧
      trap? (Access.store m 205 .f32 0#32) = some .outOfBounds ∧
      trap? (Access.load m 0xfffffffffffffffe .i32) = some .outOfBounds := by
  have hsize : (withConfig [1, 2, 3, 4] ⟨64, 64⟩).size = 208 := by
    rw [size_withConfig]
    rfl
  obtain ⟨htraps, -, hstores⟩ := typed_access_little_endian (withConfig [1, 2, 3, 4] ⟨64, 64⟩)
    (by rw [hsize]; decide)
  obtain ⟨m', hstore⟩ : ∃ m', Access.store (withConfig [1, 2, 3, 4] ⟨64, 64⟩) 66 .i32 0x80706050#32
      = .ok m' := ⟨_, storeWord_eq_ok.mpr ⟨by rw [hsize]; decide, rfl⟩⟩
  obtain ⟨hload, hbytes, -, -, hapart⟩ := hstores _ _ _ _ hstore
  refine ⟨_, m', rfl, hsize, hstore, hload, hbytes 2 (by decide), ?_, ?_, ?_, ?_⟩
  · rw [hapart .i16 64 (.inl (by decide))]
    show loadWord _ 2 64 = .ok 0x0201#16
    decide +kernel
  · rw [(htraps .i32 63).1]
    rfl
  · rw [(htraps .f32 205).2 0#32, rangeTrap?, hsize]
    rfl
  · rw [(htraps .i32 0xfffffffffffffffe).1, rangeTrap?, hsize]
    rfl

end Memory

end SafeIR
