import SafeIR.Proofs.Memory.Regions

/-!
# Operations step by step

On a machine, an operation is a routine: it changes the memory in place, what it did stays done also
if it then fails, sums are words that can overflow, and an index outside of the array is the end of
everything, for which `slip` stands. The operations of a memory are written on naturals and answer
with a new memory, so none of this shows in them.

Here each operation is also a `Routine`, one effect after the other. `Regions.perform_eq` says that
the two agree: on a memory whose regions are in order no routine slips, and one that fails has
changed nothing.
-/

namespace SafeIR.Memory

/-- How a routine ends. -/
inductive Ending (α : Type) where
  | done (a : α)
  | trap (t : Trap)
  /-- An index outside of the array, or a sum past the last word that nothing checks. -/
  | slip

def Ending.ofResult {α : Type} : Except Trap α → Ending α
  | .ok a => .done a
  | .error t => .trap t

/-- A computation on a memory in place. -/
structure Routine (α : Type) where
  run : Memory → Ending α × Memory

namespace Routine

variable {α β : Type}

instance : Monad Routine where
  pure a := ⟨fun m => (.done a, m)⟩
  bind r f := ⟨fun m =>
    match r.run m with
    | (.done a, m') => (f a).run m'
    | (.trap t, m') => (.trap t, m')
    | (.slip, m') => (.slip, m')⟩

/-! ## Steps -/

/-- The routine ends with a trap. -/
def trap (t : Trap) : Routine α := ⟨fun m => (.trap t, m)⟩

/-- The routine leaves the array. -/
def slip : Routine α := ⟨fun m => (.slip, m)⟩

/-- The memory as it is now. -/
def memory : Routine Memory := ⟨fun m => (.done m, m)⟩

/-- A change of the memory. -/
def update (f : Memory → Memory) : Routine Unit := ⟨fun m => (.done (), f m)⟩

def orTrap (t : Trap) : Option α → Routine α
  | some a => pure a
  | none => trap t

def orSlip : Option α → Routine α
  | some a => pure a
  | none => slip

/-- Go on only if something holds. -/
def ensure (p : Prop) [Decidable p] (t : Trap) : Routine Unit := if p then pure () else trap t

/-- The number itself, if it is a word. -/
def word? (n : Nat) : Option Nat := if n < twoPow 64 then some n else none

/-- The least multiple of `align` not below `value`, if it is a word. -/
def alignUp? (value align : Nat) : Option Nat :=
  if value % max align 1 = 0 then some value
  else word? (value + (max align 1 - value % max align 1))

/-- Index the array from `start` to `stop`. -/
def take (start stop : Nat) : Routine (List UInt8) := ⟨fun m =>
  if start ≤ stop ∧ stop ≤ m.size then (.done (m.slice start (stop - start)), m) else (.slip, m)⟩

/-- Index the array from `start` to `stop` and store bytes there, as many as there is place for. -/
def put (start stop : Nat) (data : List UInt8) : Routine Unit := ⟨fun m =>
  if start ≤ stop ∧ stop ≤ m.size ∧ data.length = stop - start then (.done (), m.patch start data)
  else (.slip, m)⟩

/-- Check a range, and give the end of it. -/
def range (addr : UInt64) (len : Nat) : Routine Nat := do
  ensure (nullGuard ≤ addr.toNat) .nullDereference
  let stop ← orTrap .outOfBounds (word? (addr.toNat + len))
  ensure (stop ≤ (← memory).size) .outOfBounds
  return stop

/-! ## Operations -/

def alloca (size align : UInt64) : Routine UInt64 := do
  let m ← memory
  let addr ← orTrap .stackOverflow (alignUp? m.sp align.toNat)
  let stop ← orTrap .stackOverflow (word? (addr + size.toNat))
  ensure (stop ≤ m.stackEnd) .stackOverflow
  put addr stop (List.replicate size.toNat 0)
  update fun m => { m with sp := stop }
  return UInt64.ofNat addr

def malloc (size : UInt64) : Routine UInt64 := do
  let m ← memory
  match (alignUp? m.heapNext 16).bind fun addr =>
      (word? (addr + max size.toNat 1)).map fun stop => (addr, stop) with
  | none => return 0
  | some (addr, stop) =>
    if stop ≤ m.size then
      update fun m => { m with heapNext := stop, heapLast := some addr }
      return UInt64.ofNat addr
    else return 0

def calloc (count size : UInt64) : Routine UInt64 :=
  match word? (count.toNat * size.toNat) with
  | none => return 0
  | some total => do
    let addr ← malloc (UInt64.ofNat total)
    if addr = 0 then return addr
    else
      -- This sum is not checked.
      let stop ← orSlip (word? (addr.toNat + total))
      put addr.toNat stop (List.replicate total 0)
      return addr

def free (addr : UInt64) : Routine Unit := do
  if addr ≠ 0 ∧ (← memory).heapLast = some addr.toNat then
    update fun m => { m with heapNext := addr.toNat, heapLast := none }
  else return ()

/-- Bytes are copied as if through a buffer. -/
def copy (dst src len : UInt64) : Routine Unit :=
  if len = 0 then return ()
  else do
    let sourceStop ← range src len.toNat
    let targetStop ← range dst len.toNat
    put dst.toNat targetStop (← take src.toNat sourceStop)

/-- A byte is written many times. -/
def fill (dst : UInt64) (byte : UInt8) (len : UInt64) : Routine Unit :=
  if len = 0 then return ()
  else do
    let stop ← range dst len.toNat
    put dst.toNat stop (List.replicate len.toNat byte)

def read (addr len : UInt64) : Routine (List UInt8) := do
  let stop ← range addr len.toNat
  take addr.toNat stop

def write (addr : UInt64) (data : List UInt8) : Routine Unit := do
  let stop ← range addr data.length
  put addr.toNat stop data

/-- The bytes before the first zero. -/
def readCString (addr : UInt64) : Routine (List UInt8) := do
  let _ ← range addr 1
  let tail ← take addr.toNat (← memory).size
  let len ← orTrap .outOfBounds (tail.findIdx? (· == 0))
  take addr.toNat (addr.toNat + len)

/-- A typed access asks for its range once more, with a trap in place of a slip. -/
def again (stop : Nat) : Routine Unit := do
  ensure (stop ≤ (← memory).size) .outOfBounds

def loadWord (n : Nat) (addr : UInt64) : Routine (BitVec (8 * n)) := do
  let stop ← range addr n
  again stop
  return BitVec.ofNat (8 * n) (Bytes.toNat (← take addr.toNat stop))

def storeWord (n : Nat) (addr : UInt64) (value : BitVec (8 * n)) : Routine Unit := do
  let stop ← range addr n
  again stop
  put addr.toNat stop (Bytes.ofNat n value.toNat)

end Routine

/-- An operation as a routine. -/
def Op.perform : Op → Routine Answer
  | .alloca size align => return .address (← Routine.alloca size align)
  | .enterFrame => return .frame (← Routine.memory).enterFrame
  | .leaveFrame frame => do
    Routine.update (·.leaveFrame frame)
    return .unit
  | .malloc size => return .address (← Routine.malloc size)
  | .calloc count size => return .address (← Routine.calloc count size)
  | .free addr => do
    Routine.free addr
    return .unit
  | .copy dst src len => do
    Routine.copy dst src len
    return .unit
  | .fill dst byte len => do
    Routine.fill dst byte len
    return .unit
  | .read addr len => return .bytes (← Routine.read addr len)
  | .write addr data => do
    Routine.write addr data
    return .unit
  | .readCString addr => return .bytes (← Routine.readCString addr)
  | .loadBool addr => return .bool ((← Routine.loadWord 1 addr).getLsbD 0)
  | .storeBool addr value => do
    Routine.storeWord 1 addr (if value then 1 else 0)
    return .unit
  | .loadWord n addr => return .word n (← Routine.loadWord n addr)
  | .storeWord n addr value => do
    Routine.storeWord n addr value
    return .unit

/-! ## What the steps do -/

namespace Routine

variable {α β : Type} {m m' : Memory}

@[simp] theorem run_pure (a : α) : (pure a : Routine α).run m = (.done a, m) := rfl

@[simp] theorem run_update (f : Memory → Memory) : (update f).run m = (.done (), f m) := rfl

theorem run_bind_done {r : Routine α} {f : α → Routine β} {a : α} (h : r.run m = (.done a, m')) :
    (r >>= f).run m = (f a).run m' := by
  show (match r.run m with
    | (.done a, m') => (f a).run m' | (.trap t, m') => _ | (.slip, m') => _) = _
  rw [h]

theorem run_bind_trap {r : Routine α} {f : α → Routine β} {t : Trap}
    (h : r.run m = (.trap t, m')) : (r >>= f).run m = (.trap t, m') := by
  show (match r.run m with
    | (.done a, m') => (f a).run m' | (.trap t, m') => _ | (.slip, m') => _) = _
  rw [h]

theorem run_memory_bind (f : Memory → Routine β) : (memory >>= f).run m = (f m).run m := rfl

/-- What stands behind a check runs exactly if the check passes. -/
theorem run_ensure_bind {p : Prop} [Decidable p] {t : Trap} {f : Unit → Routine β} :
    (ensure p t >>= f).run m = if p then (f ()).run m else (.trap t, m) := by
  by_cases h : p <;> simp only [ensure, h, if_true, if_false] <;> rfl

theorem run_orTrap_word {n : Nat} {t : Trap} {f : Nat → Routine β} :
    (orTrap t (word? n) >>= f).run m = if n < twoPow 64 then (f n).run m else (.trap t, m) := by
  by_cases h : n < twoPow 64 <;> simp only [word?, h, if_true, if_false] <;> rfl

theorem word?_of_lt {n : Nat} (h : n < twoPow 64) : word? n = some n := if_pos h

theorem word?_of_ge {n : Nat} (h : twoPow 64 ≤ n) : word? n = none := if_neg (Nat.not_lt.mpr h)

/-- Aligning a word stays in the words exactly when the multiple is one. -/
theorem alignUp?_eq {value : Nat} (align : Nat) (h : value < twoPow 64) :
    alignUp? value align = word? (alignUp value align) := by
  unfold alignUp? alignUp
  split
  next => exact (if_pos h).symm
  next => rfl

theorem run_take {start stop : Nat} (hle : start ≤ stop) (hend : stop ≤ m.size) :
    (take start stop).run m = (.done (m.slice start (stop - start)), m) := if_pos ⟨hle, hend⟩

theorem run_put {start stop : Nat} {data : List UInt8} (hlen : start + data.length = stop)
    (hend : stop ≤ m.size) : (put start stop data).run m = (.done (), m.patch start data) :=
  if_pos ⟨by omega, hend, by omega⟩

/-- The check of a range on words is the check on naturals. -/
theorem run_range_bind (hsize : m.size < twoPow 64) (addr : UInt64) (len : Nat)
    (f : Nat → Routine β) :
    (range addr len >>= f).run m =
      match m.check addr.toNat len with
      | .ok _ => (f (addr.toNat + len)).run m
      | .error t => (.trap t, m) := by
  have hrun : (range addr len).run m =
      (Ending.ofResult ((m.check addr.toNat len).map fun _ => addr.toNat + len), m) := by
    unfold range
    rw [run_ensure_bind, run_orTrap_word, run_memory_bind, run_ensure_bind, run_pure]
    by_cases hguard : nullGuard ≤ addr.toNat
    · by_cases hend : addr.toNat + len ≤ m.size
      · rw [if_pos hguard, if_pos (by omega), if_pos hend, check_eq_ok (u := ()).mpr ⟨hguard, hend⟩]
        rfl
      · rw [if_pos hguard, check_of_gt hguard (Nat.not_le.mp hend), if_neg hend, ite_self]
        rfl
    · rw [if_neg hguard, check_of_lt (Nat.not_le.mp hguard)]
      rfl
  cases h : m.check addr.toNat len with
  | ok u => exact run_bind_done (hrun.trans (by rw [h]; rfl))
  | error t => exact run_bind_trap (hrun.trans (by rw [h]; rfl))

/-! ## What the operations do -/

/-- How a routine that stores ends, if it agrees with an operation. -/
def inPlace (m : Memory) : Except Trap Memory → Ending Unit × Memory
  | .ok m' => (.done (), m')
  | .error t => (.trap t, m)

theorem run_alloca (hm : m.Regions) (size align : UInt64) :
    (alloca size align).run m =
      match m.alloca size align with
      | .ok (addr, m') => (.done addr, m')
      | .error t => (.trap t, m) := by
  have haddressable := hm.addressable
  have hend := hm.end_le
  have hnext := hm.next_le
  have hsp : m.sp < twoPow 64 := by have := hm.sp_le; omega
  unfold alloca
  rw [run_memory_bind, alignUp?_eq _ hsp, run_orTrap_word, run_orTrap_word, run_ensure_bind,
    Memory.alloca]
  by_cases hroom : alignUp m.sp align.toNat + size.toNat ≤ m.stackEnd
  · rw [if_pos (by omega), if_pos (by omega), if_pos hroom, if_neg (Nat.not_lt.mpr hroom),
      run_bind_done (run_put (by rw [List.length_replicate]) (by omega))]
    rfl
  · rw [if_neg hroom, ite_self, ite_self, if_pos (Nat.not_le.mp hroom)]

/-- The routine is the operation of the memory. -/
theorem run_malloc (hm : m.Regions) (size : UInt64) :
    (malloc size).run m = (.done (m.malloc size).1, (m.malloc size).2) := by
  have haddressable := hm.addressable
  have hnext : m.heapNext < twoPow 64 := by have := hm.next_le; omega
  unfold malloc
  rw [run_memory_bind, alignUp?_eq _ hnext]
  rcases malloc_cases m size with ⟨hfull, h⟩ | ⟨hroom, h⟩
  · rw [h]
    -- The heap is full: one of the two sums is no word, or the block ends behind the array.
    rcases Nat.lt_or_ge (alignUp m.heapNext 16) (twoPow 64) with haddr | haddr
    · rw [word?_of_lt haddr, Option.bind_some]
      rcases Nat.lt_or_ge (alignUp m.heapNext 16 + max size.toNat 1) (twoPow 64) with hstop | hstop
      · rw [word?_of_lt hstop]
        simp only [Option.map_some, if_neg (Nat.not_le.mpr hfull), run_pure]
      · rw [word?_of_ge hstop]
        rfl
    · rw [word?_of_ge haddr]
      rfl
  · have hstop : alignUp m.heapNext 16 + max size.toNat 1 < twoPow 64 := by omega
    rw [h, word?_of_lt (by omega), Option.bind_some, word?_of_lt hstop]
    simp only [Option.map_some, if_pos hroom]
    rfl

theorem run_calloc (hm : m.Regions) (count size : UInt64) :
    (calloc count size).run m = (.done (m.calloc count size).1, (m.calloc count size).2) := by
  have haddressable := hm.addressable
  unfold calloc Memory.calloc
  rcases Nat.lt_or_ge (count.toNat * size.toNat) (twoPow 64) with hword | hbig
  · have hnat : (UInt64.ofNat (count.toNat * size.toNat)).toNat = count.toNat * size.toNat :=
      UInt64.toNat_ofNat_of_lt' hword
    simp only [word?_of_lt hword, if_neg (Nat.not_le.mpr hword)]
    rw [run_bind_done (run_malloc hm _)]
    rcases malloc_cases m (UInt64.ofNat (count.toNat * size.toNat)) with ⟨-, h⟩ | ⟨hroom, h⟩
    · rw [h]
      rfl
    · rw [hnat] at hroom
      have hplace : alignUp m.heapNext 16 ≤ m.size := Nat.le_trans (Nat.le_add_right ..) hroom
      have hstop : alignUp m.heapNext 16 + count.toNat * size.toNat ≤ m.size := by omega
      rw [h]
      simp only [if_neg (hm.block_ne_zero hplace), hm.toNat_ofNat hplace,
        word?_of_lt (Nat.lt_of_le_of_lt hstop haddressable)]
      -- The block ends in the array, so the sum is a word and the index is inside.
      rw [run_bind_done (r := orSlip (some _)) rfl, run_bind_done (run_put ?_ ?_)]
      · rfl
      · rw [List.length_replicate]
      · exact hstop
  · simp only [word?_of_ge hbig, if_pos hbig, run_pure]

theorem run_free (addr : UInt64) : (free addr).run m = (.done (), m.free addr) := by
  unfold free Memory.free
  rw [run_memory_bind]
  by_cases h : addr ≠ 0 ∧ m.heapLast = some addr.toNat
  · rw [if_pos h, if_pos h, run_update]
  · rw [if_neg h, if_neg h, run_pure]

theorem run_copy (hsize : m.size < twoPow 64) (dst src len : UInt64) :
    (copy dst src len).run m = inPlace m (m.copy dst src len) := by
  unfold copy Memory.copy
  by_cases hlen : len = 0
  · rw [if_pos hlen, if_pos hlen]
    rfl
  rw [if_neg hlen, if_neg hlen, run_range_bind hsize]
  cases hsrc : m.check src.toNat len.toNat with
  | error t => rfl
  | ok u =>
    show (range dst len.toNat >>= _).run m = _
    rw [run_range_bind hsize]
    cases hdst : m.check dst.toNat len.toNat with
    | error t => rfl
    | ok u =>
      obtain ⟨-, hsrcEnd⟩ := check_eq_ok.mp hsrc
      obtain ⟨-, hdstEnd⟩ := check_eq_ok.mp hdst
      show (take src.toNat (src.toNat + len.toNat) >>= _).run m = _
      rw [run_bind_done (run_take (Nat.le_add_right ..) hsrcEnd), Nat.add_sub_cancel_left,
        run_put (by rw [length_slice hsrcEnd]) hdstEnd]
      rfl

theorem run_fill (hsize : m.size < twoPow 64) (dst : UInt64) (byte : UInt8) (len : UInt64) :
    (fill dst byte len).run m = inPlace m (m.fill dst byte len) := by
  unfold fill Memory.fill
  by_cases hlen : len = 0
  · rw [if_pos hlen, if_pos hlen]
    rfl
  rw [if_neg hlen, if_neg hlen, run_range_bind hsize]
  cases hdst : m.check dst.toNat len.toNat with
  | error t => rfl
  | ok u =>
    exact run_put (by rw [List.length_replicate]) (check_eq_ok.mp hdst).2

theorem run_read (hsize : m.size < twoPow 64) (addr len : UInt64) :
    (read addr len).run m = (Ending.ofResult (m.read addr len), m) := by
  unfold read Memory.read
  rw [run_range_bind hsize]
  cases h : m.check addr.toNat len.toNat with
  | error t => rfl
  | ok u =>
    show (take addr.toNat (addr.toNat + len.toNat)).run m = _
    rw [run_take (Nat.le_add_right ..) (check_eq_ok.mp h).2, Nat.add_sub_cancel_left]
    rfl

theorem run_write (hsize : m.size < twoPow 64) (addr : UInt64) (data : List UInt8) :
    (write addr data).run m = inPlace m (m.write addr data) := by
  unfold write Memory.write
  rw [run_range_bind hsize]
  cases h : m.check addr.toNat data.length with
  | error t => rfl
  | ok u => exact run_put rfl (check_eq_ok.mp h).2

theorem run_again {stop : Nat} (h : stop ≤ m.size) : (again stop).run m = (.done (), m) := by
  rw [again, run_memory_bind, ensure, if_pos h, run_pure]

theorem run_loadWord (hsize : m.size < twoPow 64) (n : Nat) (addr : UInt64) :
    (loadWord n addr).run m = (Ending.ofResult (m.loadWord n addr), m) := by
  unfold loadWord Memory.loadWord
  rw [run_range_bind hsize]
  cases h : m.check addr.toNat n with
  | error t => rfl
  | ok u =>
    have hend := (check_eq_ok.mp h).2
    show (again (addr.toNat + n) >>= _).run m = _
    rw [run_bind_done (run_again hend),
      run_bind_done (run_take (Nat.le_add_right ..) hend), Nat.add_sub_cancel_left]
    rfl

theorem run_storeWord (hsize : m.size < twoPow 64) (n : Nat) (addr : UInt64)
    (value : BitVec (8 * n)) :
    (storeWord n addr value).run m = inPlace m (m.storeWord n addr value) := by
  unfold storeWord Memory.storeWord Memory.write
  rw [run_range_bind hsize, Bytes.length_ofNat]
  cases h : m.check addr.toNat n with
  | error t => rfl
  | ok u =>
    have hend := (check_eq_ok.mp h).2
    show (again (addr.toNat + n) >>= _).run m = _
    rw [run_bind_done (run_again hend),
      run_put (by rw [Bytes.length_ofNat]) hend]
    rfl

/-- A search for the end of a string fails exactly where there is none. -/
theorem contains_of_findIdx?_none {tail : List UInt8} (h : tail.findIdx? (· == 0) = none) :
    tail.contains 0 = false := by
  rw [Bool.eq_false_iff, Ne, List.contains_iff_mem]
  intro hmem
  exact absurd (List.findIdx?_eq_none_iff.mp h 0 hmem) (by decide)

/-- The string ends where the search ends. -/
theorem takeWhile_of_findIdx?_some {tail : List UInt8} {len : Nat}
    (h : tail.findIdx? (· == 0) = some len) :
    len < tail.length ∧ tail.contains 0 = true ∧ tail.takeWhile (· != 0) = tail.take len := by
  obtain ⟨hlen, hidx⟩ := List.findIdx?_eq_some_iff_findIdx_eq.mp h
  refine ⟨hlen, ?_, ?_⟩
  · obtain ⟨b, hb, hzero⟩ := List.findIdx_lt_length.mp (hidx ▸ hlen)
    rw [List.contains_iff_mem, ← eq_of_beq hzero]
    exact hb
  · rw [List.takeWhile_eq_take_findIdx_not]
    simp only [bne, Bool.not_not, hidx]

theorem run_readCString (hsize : m.size < twoPow 64) (addr : UInt64) :
    (readCString addr).run m = (Ending.ofResult (m.readCString addr), m) := by
  unfold readCString Memory.readCString
  rw [run_range_bind hsize]
  cases h : m.check addr.toNat 1 with
  | error t => rfl
  | ok u =>
    have hend := (check_eq_ok.mp h).2
    show (memory >>= _).run m = _
    rw [run_memory_bind, run_bind_done (run_take (by omega) (Nat.le_refl _)), ok_bind]
    cases hzero : (m.slice addr.toNat (m.size - addr.toNat)).findIdx? (· == 0) with
    | none =>
      simp only [contains_of_findIdx?_none hzero]
      rfl
    | some len =>
      obtain ⟨hlen, hcontains, hstring⟩ := takeWhile_of_findIdx?_some hzero
      rw [length_slice (by omega)] at hlen
      rw [take_slice (Nat.le_of_lt hlen)] at hstring
      simp only [hcontains, if_true, hstring]
      rw [run_bind_done (r := orTrap _ (some len)) rfl,
        run_take (Nat.le_add_right ..) (by omega), Nat.add_sub_cancel_left]
      rfl

end Routine

/-! ## Agreement -/

/-- An answer that is no address, or the address null. A pointer that was loaded may be null too. -/
def Answer.IsNull : Answer → Prop
  | .address addr => addr = 0
  | .word _ v => v = 0
  | _ => False

/-- An operation that trapped or gave null in place of a block. -/
def Failed : Except Trap Answer → Prop
  | .ok a => a.IsNull
  | .error _ => True

variable {m : Memory}

theorem run_stored {r : Routine Unit} {result : Except Trap Memory}
    (h : r.run m = Routine.inPlace m result) :
    (do r; return Answer.unit).run m =
      (Ending.ofResult (m.stored result).1, (m.stored result).2) := by
  cases result with
  | ok m' => exact Routine.run_bind_done h
  | error t => exact Routine.run_bind_trap h

theorem run_looked {α : Type} {r : Routine α} {result : Except Trap α} (f : α → Answer)
    (h : r.run m = (Ending.ofResult result, m)) :
    (do return f (← r)).run m =
      (Ending.ofResult (m.looked (result.map f)).1, (m.looked (result.map f)).2) := by
  cases result with
  | ok a => exact Routine.run_bind_done h
  | error t => exact Routine.run_bind_trap h

/-- Every routine ends as its operation says, so none of them slips. -/
theorem Regions.perform_eq (hm : m.Regions) (op : Op) :
    op.perform.run m = (Ending.ofResult (op.apply m).1, (op.apply m).2) := by
  cases op with
  | alloca size align =>
    have h := Routine.run_alloca hm size align
    simp only [Op.perform, Op.apply]
    cases hresult : m.alloca size align with
    | ok r => exact Routine.run_bind_done (h.trans (by rw [hresult]))
    | error t => exact Routine.run_bind_trap (h.trans (by rw [hresult]))
  | enterFrame | leaveFrame => rfl
  | malloc size => exact Routine.run_bind_done (Routine.run_malloc hm size)
  | calloc count size => exact Routine.run_bind_done (Routine.run_calloc hm count size)
  | free addr => exact Routine.run_bind_done (Routine.run_free addr)
  | copy dst src len => exact run_stored (Routine.run_copy hm.addressable dst src len)
  | fill dst byte len => exact run_stored (Routine.run_fill hm.addressable dst byte len)
  | read addr len => exact run_looked .bytes (Routine.run_read hm.addressable addr len)
  | write addr data => exact run_stored (Routine.run_write hm.addressable addr data)
  | readCString addr => exact run_looked .bytes (Routine.run_readCString hm.addressable addr)
  | loadBool addr =>
    have h := run_looked (fun v => .bool (v.getLsbD 0)) (Routine.run_loadWord hm.addressable 1 addr)
    refine h.trans ?_
    simp only [Op.apply, looked, Memory.loadBool]
    cases m.loadWord 1 addr <;> rfl
  | storeBool addr value => exact run_stored (Routine.run_storeWord hm.addressable 1 addr _)
  | loadWord n addr => exact run_looked (.word n) (Routine.run_loadWord hm.addressable n addr)
  | storeWord n addr value => exact run_stored (Routine.run_storeWord hm.addressable n addr value)

theorem stored_of_failed {result : Except Trap Memory} (h : Failed (m.stored result).1) :
    (m.stored result).2 = m := by
  cases result with
  | ok m' => exact h.elim
  | error t => rfl

/-- An operation that failed has changed nothing. -/
theorem Regions.apply_of_failed (hm : m.Regions) (op : Op) (h : Failed (op.apply m).1) :
    (op.apply m).2 = m := by
  cases op with
  | alloca size align =>
    simp only [Op.apply] at h ⊢
    split at h
    next addr m' hok =>
      -- A block of the stack lies above the guard, so its address is not null.
      obtain ⟨hroom, rfl, -⟩ := alloca_eq_ok.mp hok
      have hstart := le_alignUp m.sp align.toNat
      have hnat := hm.toNat_ofNat (p := alignUp m.sp align.toNat)
        (by have := hm.end_le; have := hm.next_le; omega)
      rw [show UInt64.ofNat _ = 0 from h, UInt64.toNat_zero] at hnat
      have hguard : nullGuard = 64 := rfl
      have := hm.guard_le
      have := hm.base_le
      omega
    next => rfl
  | malloc size =>
    simp only [Op.apply] at h ⊢
    rcases malloc_cases m size with ⟨-, heq⟩ | ⟨hroom, heq⟩ <;> rw [heq] at h ⊢
    exact absurd h (hm.block_ne_zero (Nat.le_trans (Nat.le_add_right ..) hroom))
  | calloc count size =>
    simp only [Op.apply] at h ⊢
    rcases hm.calloc_cases count size with heq | ⟨-, hroom, heq⟩ <;> rw [heq] at h ⊢
    exact absurd h (hm.block_ne_zero (Nat.le_trans (Nat.le_add_right ..) hroom))
  | leaveFrame | free => exact h.elim
  | copy | fill | write | storeBool | storeWord => exact stored_of_failed h
  | enterFrame | read | readCString | loadBool | loadWord => rfl

/-- Whatever a program does to a new memory whose size is a word, the regions stay in order and the
size stays the same. Any operation then ends as a routine the way it answers, with no index outside
of the array, and leaves the memory as it was if it traps or gives null. -/
theorem regions_hold_and_failures_are_atomic (image : List UInt8) (config : Config)
    (hsize : (withConfig image config).size < twoPow 64) (ops : List Op) :
    (runAll ops (withConfig image config)).Regions ∧
      (runAll ops (withConfig image config)).size = (withConfig image config).size ∧
      ∀ op : Op, ∃ answer after,
        op.apply (runAll ops (withConfig image config)) = (answer, after) ∧
        op.perform.run (runAll ops (withConfig image config)) =
          (Ending.ofResult answer, after) ∧
        (Failed answer → after = runAll ops (withConfig image config)) := by
  obtain ⟨hregions, hsame⟩ := (regions_withConfig hsize).runAll ops
  exact ⟨hregions, hsame, fun op =>
    ⟨_, _, rfl, hregions.perform_eq op, hregions.apply_of_failed op⟩⟩

/-- Calls that ask for too much, name no block, leave a frame of another memory or reach past the
last address. -/
def hostileCalls : List Op :=
  [.alloca 65 1, .malloc 8, .leaveFrame ⟨4096⟩, .free 0, .free 144, .calloc 4294967296 4294967296,
    .copy 64 0xffffffffffffffff 2, .alloca 1 0xffffffffffffffff]

/-- The stack pointer ends at the end of the stack. A block of more bytes than the heap has is null
and changes nothing. -/
theorem regions_hold_under_hostile_calls :
    ∃ m, m = runAll hostileCalls (withConfig [1, 2, 3, 4] ⟨64, 64⟩) ∧
      (withConfig [1, 2, 3, 4] ⟨64, 64⟩).size < twoPow 64 ∧ m.Regions ∧
      (m.sp, m.stackEnd, m.heapNext) = (144, 144, 144) ∧ (m.malloc 65).1 = 0 ∧
      ((Op.malloc 65).apply m).2 = m := by
  have hsize : (withConfig [1, 2, 3, 4] ⟨64, 64⟩).size < twoPow 64 := by
    rw [size_withConfig]
    decide
  refine ⟨_, rfl, hsize, ?_⟩
  obtain ⟨hregions, -, hops⟩ := regions_hold_and_failures_are_atomic _ _ hsize hostileCalls
  have hnull : ((runAll hostileCalls (withConfig [1, 2, 3, 4] ⟨64, 64⟩)).malloc 65).1 = 0 := by
    decide +kernel
  refine ⟨hregions, by decide +kernel, hnull, ?_⟩
  generalize runAll _ _ = m at hops hnull ⊢
  obtain ⟨answer, after, happly, -, hfailed⟩ := hops (.malloc 65)
  obtain ⟨rfl, rfl⟩ := Prod.mk.inj happly
  exact hfailed hnull

end SafeIR.Memory
