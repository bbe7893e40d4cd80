import SafeIR.Proofs.Memory.Span

/-!
# Regions of memory

The guard, the globals, the stack and the heap lie one after the other, and the two cursors stay in
their regions. `Regions` says so, together with what the heap knows of its latest block.

Operations are data here, `Op`, so that a program is a list of them. What any of them can do to a
memory is said once, by `Effect`: it has one case for each way in which bytes or cursors move, and
every invariant is a case analysis of it. The main statements are `Regions.effect` for one operation
and `Regions.runAll` for all of a program.
-/

namespace SafeIR.Memory

/-- The regions lie in order and the cursors in their regions. Every position is a word. -/
structure Regions (m : Memory) : Prop where
  guard_le : nullGuard ≤ m.stackBase
  aligned : 16 ∣ m.stackBase
  base_le : m.stackBase ≤ m.sp
  sp_le : m.sp ≤ m.stackEnd
  end_le : m.stackEnd ≤ m.heapNext
  next_le : m.heapNext ≤ m.size
  last : ∀ addr, m.heapLast = some addr → m.stackEnd ≤ addr ∧ addr < m.heapNext
  addressable : m.size < twoPow 64

/-! ## A new memory -/

theorem size_withConfig (image : List UInt8) (config : Config) :
    (withConfig image config).size =
      alignUp (nullGuard + image.length) 16 + config.stack.toNat + config.heap.toNat := by
  have hle := le_alignUp (nullGuard + image.length) 16
  simp only [size, withConfig, Array.size_append, Array.size_replicate, List.size_toArray]
  omega

theorem regions_withConfig {image : List UInt8} {config : Config}
    (h : (withConfig image config).size < twoPow 64) : (withConfig image config).Regions where
  guard_le := Nat.le_trans (Nat.le_add_right ..) (le_alignUp ..)
  aligned := dvd_alignUp _ 16
  base_le := Nat.le_refl _
  sp_le := Nat.le_add_right ..
  end_le := Nat.le_refl _
  next_le := by
    rw [size_withConfig]
    exact Nat.le_add_right ..
  last := nofun
  addressable := h

/-- The globals stand behind the guard and everything behind them is zero. -/
theorem byte?_withConfig (image : List UInt8) (config : Config) {p : Nat} (hguard : nullGuard ≤ p)
    (hp : p < (withConfig image config).size) :
    (withConfig image config).byte? p =
      if p < nullGuard + image.length then image[p - nullGuard]? else some 0 := by
  have hsize := size_withConfig image config
  have hle := le_alignUp (nullGuard + image.length) 16
  simp only [byte?, withConfig, Array.getElem?_append, Array.size_append, Array.size_replicate,
    List.size_toArray, List.getElem?_toArray, Array.getElem?_replicate]
  split
  next h => rw [if_neg (by omega)]
  next => rw [if_pos (by omega)]

/-! ## What an operation can do -/

/-- How a memory may look after an operation. -/
inductive Effect (m : Memory) : Memory → Prop where
  /-- Nothing moves. -/
  | keep : Effect m m
  /-- Bytes above the guard are replaced. -/
  | store {start : Nat} {data : List UInt8} (hguard : nullGuard ≤ start)
      (hend : start + data.length ≤ m.size) : Effect m (m.patch start data)
  /-- The stack grows over bytes that are set to zero. -/
  | push {addr len : Nat} (hstart : m.sp ≤ addr) (hend : addr + len ≤ m.stackEnd) :
      Effect m { m.patch addr (List.replicate len 0) with sp := addr + len }
  /-- The stack pointer goes to a place in the stack. -/
  | pop {sp : Nat} (hbase : m.stackBase ≤ sp) (hend : sp ≤ m.stackEnd) : Effect m { m with sp }
  /-- A block is cut from the heap and set to zero in part. -/
  | cut {addr len zeroed : Nat} (hstart : m.heapNext ≤ addr) (hlen : 0 < len)
      (hend : addr + len ≤ m.size) (hzeroed : zeroed ≤ len) :
      Effect m { m.patch addr (List.replicate zeroed 0) with
        heapNext := addr + len, heapLast := some addr }
  /-- The latest block is given back. -/
  | reclaim {addr : Nat} (hlast : m.heapLast = some addr) :
      Effect m { m with heapNext := addr, heapLast := none }

variable {m m' : Memory}

theorem Effect.size_eq (h : Effect m m') : m'.size = m.size := by
  cases h with
  | keep | pop | reclaim => rfl
  | store | push | cut => exact size_overwrite ..

/-- No operation moves a cursor out of its region. -/
theorem Regions.effect (hm : m.Regions) (h : Effect m m') : m'.Regions := by
  have haddressable : m'.size < twoPow 64 := h.size_eq ▸ hm.addressable
  have hsize := h.size_eq
  obtain ⟨hguard, haligned, hbase, hsp, hend, hnext, hlast, -⟩ := hm
  cases h with
  | keep => exact ⟨hguard, haligned, hbase, hsp, hend, hnext, hlast, haddressable⟩
  | store =>
    exact ⟨hguard, haligned, hbase, hsp, hend, hsize.symm ▸ hnext, hlast, haddressable⟩
  | push hstart hstop =>
    exact ⟨hguard, haligned, Nat.le_trans hbase (Nat.le_trans hstart (Nat.le_add_right ..)), hstop,
      hend, hsize.symm ▸ hnext, hlast, haddressable⟩
  | pop hlow hhigh => exact ⟨hguard, haligned, hlow, hhigh, hend, hnext, hlast, haddressable⟩
  | @cut addr len zeroed hstart hlen hstop =>
    refine ⟨hguard, haligned, hbase, hsp, ?_, hsize.symm ▸ hstop, ?_, haddressable⟩
    · exact Nat.le_trans hend (Nat.le_trans hstart (Nat.le_add_right ..))
    · rintro _ ⟨⟩
      exact ⟨Nat.le_trans hend hstart, Nat.lt_add_of_pos_right hlen⟩
  | reclaim hreclaim =>
    have hblock := hlast _ hreclaim
    exact ⟨hguard, haligned, hbase, hsp, hblock.1, Nat.le_trans (Nat.le_of_lt hblock.2) hnext,
      nofun, haddressable⟩

/-! ## Stack and heap -/

/-- A place in the stack or the heap is a word. -/
theorem Regions.toNat_ofNat (hm : m.Regions) {p : Nat} (hp : p ≤ m.size) :
    (UInt64.ofNat p).toNat = p :=
  UInt64.toNat_ofNat_of_lt' (Nat.lt_of_le_of_lt hp hm.addressable)

theorem alloca_eq_ok {size align addr : UInt64} :
    m.alloca size align = .ok (addr, m') ↔
      alignUp m.sp align.toNat + size.toNat ≤ m.stackEnd ∧
        UInt64.ofNat (alignUp m.sp align.toNat) = addr ∧
        { m.patch (alignUp m.sp align.toNat) (List.replicate size.toNat 0) with
          sp := alignUp m.sp align.toNat + size.toNat } = m' := by
  rw [alloca, ite_error_eq_ok, Nat.not_lt, Except.ok.injEq, Prod.mk.injEq]

theorem effect_of_alloca {size align addr : UInt64} (h : m.alloca size align = .ok (addr, m')) :
    Effect m m' := by
  obtain ⟨hroom, -, rfl⟩ := alloca_eq_ok.mp h
  exact .push (le_alignUp ..) hroom

/-- The heap gives a block when there is room for it, and else the null pointer. -/
theorem malloc_cases (m : Memory) (size : UInt64) :
    (m.size < alignUp m.heapNext 16 + max size.toNat 1 ∧ m.malloc size = (0, m)) ∨
      (alignUp m.heapNext 16 + max size.toNat 1 ≤ m.size ∧
        m.malloc size = (UInt64.ofNat (alignUp m.heapNext 16),
          { m with
            heapNext := alignUp m.heapNext 16 + max size.toNat 1
            heapLast := some (alignUp m.heapNext 16) })) := by
  by_cases h : m.size < alignUp m.heapNext 16 + max size.toNat 1
  · exact .inl ⟨h, if_pos h⟩
  · exact .inr ⟨Nat.not_lt.mp h, if_neg h⟩

/-- A block of the heap does not start at the null pointer. -/
theorem Regions.block_ne_zero (hm : m.Regions)
    (h : alignUp m.heapNext 16 ≤ m.size) : UInt64.ofNat (alignUp m.heapNext 16) ≠ 0 := by
  intro hzero
  have hnat := hm.toNat_ofNat h
  rw [hzero] at hnat
  have hstart := le_alignUp m.heapNext 16
  have hguard : nullGuard = 64 := rfl
  have := hm.guard_le
  have := hm.base_le
  have := hm.sp_le
  have := hm.end_le
  simp only [UInt64.toNat_zero] at hnat
  omega

/-- A zeroed block is a block of as many bytes as the product says, if that is a word. -/
theorem Regions.calloc_cases (hm : m.Regions) (count size : UInt64) :
    m.calloc count size = (0, m) ∨
      (count.toNat * size.toNat < twoPow 64 ∧
        alignUp m.heapNext 16 + max (count.toNat * size.toNat) 1 ≤ m.size ∧
        m.calloc count size = (UInt64.ofNat (alignUp m.heapNext 16),
          { m.patch (alignUp m.heapNext 16) (List.replicate (count.toNat * size.toNat) 0) with
            heapNext := alignUp m.heapNext 16 + max (count.toNat * size.toNat) 1
            heapLast := some (alignUp m.heapNext 16) })) := by
  rw [calloc]
  by_cases hbig : twoPow 64 ≤ count.toNat * size.toNat
  · exact .inl (if_pos hbig)
  have hword : (UInt64.ofNat (count.toNat * size.toNat)).toNat = count.toNat * size.toNat :=
    UInt64.toNat_ofNat_of_lt' (Nat.not_le.mp hbig)
  simp only [if_neg hbig]
  rcases malloc_cases m (UInt64.ofNat (count.toNat * size.toNat)) with ⟨-, h⟩ | ⟨hroom, h⟩
  · rw [h]
    exact .inl (if_pos rfl)
  · rw [hword] at hroom h
    have hplace : alignUp m.heapNext 16 ≤ m.size := Nat.le_trans (Nat.le_add_right ..) hroom
    refine .inr ⟨Nat.not_le.mp hbig, hroom, ?_⟩
    rw [h]
    simp only [if_neg (hm.block_ne_zero hplace), hm.toNat_ofNat hplace]
    rfl

theorem free_cases (m : Memory) (addr : UInt64) :
    m.free addr = m ∨
      (m.heapLast = some addr.toNat ∧
        m.free addr = { m with heapNext := addr.toNat, heapLast := none }) := by
  by_cases h : addr ≠ 0 ∧ m.heapLast = some addr.toNat
  · exact .inr ⟨h.2, if_pos h⟩
  · exact .inl (if_neg h)

/-! ## Bulk and typed access -/

theorem write_eq_ok {addr : UInt64} {data : List UInt8} :
    m.write addr data = .ok m' ↔
      (nullGuard ≤ addr.toNat ∧ addr.toNat + data.length ≤ m.size) ∧
        m.patch addr.toNat data = m' := by
  rw [write, bind_eq_ok]
  simp only [check_eq_ok, pure_eq_ok]
  constructor
  · rintro ⟨_, hrange, heq⟩
    exact ⟨hrange, heq⟩
  · rintro ⟨hrange, heq⟩
    exact ⟨(), hrange, heq⟩

theorem effect_of_write {addr : UInt64} {data : List UInt8} (h : m.write addr data = .ok m') :
    Effect m m' := by
  obtain ⟨⟨hguard, hend⟩, rfl⟩ := write_eq_ok.mp h
  exact .store hguard hend

theorem effect_of_fill {dst len : UInt64} {byte : UInt8} (h : m.fill dst byte len = .ok m') :
    Effect m m' := by
  unfold fill at h
  split at h
  next =>
    cases h
    exact .keep
  next =>
    obtain ⟨_, hcheck, h⟩ := bind_eq_ok.mp h
    obtain ⟨hguard, hend⟩ := check_eq_ok.mp hcheck
    cases h
    exact .store hguard (by rwa [List.length_replicate])

theorem effect_of_copy {dst src len : UInt64} (h : m.copy dst src len = .ok m') : Effect m m' := by
  unfold copy at h
  split at h
  next =>
    cases h
    exact .keep
  next =>
    obtain ⟨_, hsrc, h⟩ := bind_eq_ok.mp h
    obtain ⟨_, hdst, h⟩ := bind_eq_ok.mp h
    cases h
    exact .store (check_eq_ok.mp hdst).1
      (by rw [length_slice (check_eq_ok.mp hsrc).2]; exact (check_eq_ok.mp hdst).2)

/-! ## Programs -/

/-- A call of an operation on memory, with its arguments. -/
inductive Op where
  | alloca (size align : UInt64)
  | enterFrame
  | leaveFrame (frame : Frame)
  | malloc (size : UInt64)
  | calloc (count size : UInt64)
  | free (addr : UInt64)
  | copy (dst src len : UInt64)
  | fill (dst : UInt64) (byte : UInt8) (len : UInt64)
  | read (addr len : UInt64)
  | write (addr : UInt64) (data : List UInt8)
  | readCString (addr : UInt64)
  | loadBool (addr : UInt64)
  | storeBool (addr : UInt64) (value : Bool)
  | loadWord (n : Nat) (addr : UInt64)
  | storeWord (n : Nat) (addr : UInt64) (value : BitVec (8 * n))

/-- What an operation answers when it does not trap. -/
inductive Answer where
  | unit
  | frame (f : Frame)
  | address (addr : UInt64)
  | bytes (data : List UInt8)
  | bool (b : Bool)
  | word (n : Nat) (v : BitVec (8 * n))

/-- How an operation that only looks leaves a memory. -/
def looked (m : Memory) (result : Except Trap Answer) : Except Trap Answer × Memory := (result, m)

/-- How an operation that stores leaves a memory. -/
def stored (m : Memory) : Except Trap Memory → Except Trap Answer × Memory
  | .ok m' => (.ok .unit, m')
  | .error t => (.error t, m)

/-- Call an operation: what it answers, and the memory afterwards. -/
def Op.apply (m : Memory) : Op → Except Trap Answer × Memory
  | .alloca size align =>
    match m.alloca size align with
    | .ok (addr, m') => (.ok (.address addr), m')
    | .error t => (.error t, m)
  | .enterFrame => (.ok (.frame m.enterFrame), m)
  | .leaveFrame frame => (.ok .unit, m.leaveFrame frame)
  | .malloc size => (.ok (.address (m.malloc size).1), (m.malloc size).2)
  | .calloc count size => (.ok (.address (m.calloc count size).1), (m.calloc count size).2)
  | .free addr => (.ok .unit, m.free addr)
  | .copy dst src len => m.stored (m.copy dst src len)
  | .fill dst byte len => m.stored (m.fill dst byte len)
  | .read addr len => m.looked ((m.read addr len).map .bytes)
  | .write addr data => m.stored (m.write addr data)
  | .readCString addr => m.looked ((m.readCString addr).map .bytes)
  | .loadBool addr => m.looked ((m.loadBool addr).map .bool)
  | .storeBool addr value => m.stored (m.storeBool addr value)
  | .loadWord n addr => m.looked ((m.loadWord n addr).map (.word n))
  | .storeWord n addr value => m.stored (m.storeWord n addr value)

/-- The memory after a program. -/
def runAll (ops : List Op) (m : Memory) : Memory := ops.foldl (fun m op => (op.apply m).2) m

theorem effect_stored {result : Except Trap Memory} (h : ∀ m', result = .ok m' → Effect m m') :
    Effect m (m.stored result).2 := by
  cases result with
  | error t => exact .keep
  | ok m' => exact h m' rfl

/-- Every operation moves bytes and cursors in one of the ways of `Effect`. -/
theorem Regions.effect_apply (hm : m.Regions) (op : Op) : Effect m (op.apply m).2 := by
  cases op with
  | alloca size align =>
    simp only [Op.apply]
    split
    next h => exact effect_of_alloca h
    next => exact .keep
  | leaveFrame frame =>
    exact .pop (Nat.le_max_left ..)
      (Nat.max_le.mpr ⟨Nat.le_trans hm.base_le hm.sp_le, Nat.min_le_right ..⟩)
  | malloc size =>
    simp only [Op.apply]
    rcases malloc_cases m size with ⟨-, h⟩ | ⟨hroom, h⟩ <;> rw [h]
    · exact .keep
    · exact .cut (le_alignUp ..) (by omega) hroom (Nat.zero_le _)
  | calloc count size =>
    simp only [Op.apply]
    rcases hm.calloc_cases count size with h | ⟨-, hroom, h⟩ <;> rw [h]
    · exact .keep
    · exact .cut (le_alignUp ..) (by omega) hroom (Nat.le_max_left ..)
  | free addr =>
    simp only [Op.apply]
    rcases free_cases m addr with h | ⟨hlast, h⟩ <;> rw [h]
    · exact .keep
    · exact .reclaim hlast
  | copy => exact effect_stored fun _ => effect_of_copy
  | fill => exact effect_stored fun _ => effect_of_fill
  | write | storeBool | storeWord => exact effect_stored fun _ => effect_of_write
  | enterFrame | read | readCString | loadBool | loadWord => exact .keep

/-- The regions stay in order and the size stays the same, whatever a program does. -/
theorem Regions.runAll (hm : m.Regions) (ops : List Op) :
    (runAll ops m).Regions ∧ (runAll ops m).size = m.size := by
  induction ops generalizing m with
  | nil => exact ⟨hm, rfl⟩
  | cons op ops ih =>
    have heffect := hm.effect_apply op
    obtain ⟨hregions, hsize⟩ := ih (hm.effect heffect)
    exact ⟨hregions, hsize.trans heffect.size_eq⟩

end SafeIR.Memory
