import SafeIR.Fault
import SafeIR.Power
import SafeIR.Word.Bytes

/-!
# Guest memory

One flat array of bytes that 64-bit guest addresses index. From low to high it holds a guard that
no access may touch, the image of the globals, the stack, which grows upward and is released frame
by frame, and a heap from which blocks are cut in order.

Every access checks its range: an address inside the guard is a null dereference, a range that
leaves the array is out of bounds. Arguments are words; positions inside are naturals, so that a
range that passes the end of the address space is past the end of the array too.
-/

namespace SafeIR

/-- Addresses below this one are the guard. -/
def nullGuard : Nat := 64

/-- The least multiple of `align` not below `value`; alignments of zero and one change nothing. -/
def alignUp (value align : Nat) : Nat :=
  if value % max align 1 = 0 then value else value + (max align 1 - value % max align 1)

/-- The guard, the globals, the stack and the heap, in one array of bytes. -/
structure Memory where
  bytes : Array UInt8
  stackBase : Nat
  stackEnd : Nat
  /-- The stack pointer: the next free byte of the stack. -/
  sp : Nat
  /-- The next free byte of the heap. -/
  heapNext : Nat
  /-- The start of the latest block, if it is still allocated. -/
  heapLast : Option Nat

/-- The sizes of the two growing regions. -/
structure Memory.Config where
  stack : UInt64 := 262144
  heap : UInt64 := 1048576

/-- A saved stack pointer. -/
structure Memory.Frame where
  sp : Nat
  deriving DecidableEq, Repr

namespace Memory

/-- A memory whose globals region holds `image`, with everything else zero. -/
def withConfig (image : List UInt8) (config : Config) : Memory :=
  let globalsEnd := nullGuard + image.length
  let stackBase := alignUp globalsEnd 16
  let stackEnd := stackBase + config.stack.toNat
  { bytes := Array.replicate nullGuard 0 ++ image.toArray ++
      Array.replicate (stackEnd + config.heap.toNat - globalsEnd) 0
    stackBase, stackEnd, sp := stackBase, heapNext := stackEnd, heapLast := none }

/-- A memory with an image of globals. -/
def withGlobals (image : List UInt8) : Memory := withConfig image {}

def size (m : Memory) : Nat := m.bytes.size

/-! ## Ranges -/

/-- Check that `[addr, addr + len)` lies between the guard and the end. -/
def check (m : Memory) (addr len : Nat) : Except Trap Unit :=
  if addr < nullGuard then .error .nullDereference
  else if m.size < addr + len then .error .outOfBounds
  else .ok ()

/-- The bytes of a range that lies in the array. -/
def slice (m : Memory) (start len : Nat) : List UInt8 :=
  (m.bytes.extract start (start + len)).toList

/-- Write bytes one after the other from `start` on. -/
def overwrite (bytes : Array UInt8) (start : Nat) : List UInt8 → Array UInt8
  | [] => bytes
  | b :: bs => overwrite (bytes.setIfInBounds start b) (start + 1) bs

/-- The memory with `data` in place from `start` on. -/
def patch (m : Memory) (start : Nat) (data : List UInt8) : Memory :=
  { m with bytes := overwrite m.bytes start data }

/-! ## Stack -/

/-- Remember the stack pointer. -/
def enterFrame (m : Memory) : Frame := ⟨m.sp⟩

/-- Release what was allocated since the frame was entered. A frame of another memory is brought
into this memory's stack. -/
def leaveFrame (m : Memory) (frame : Frame) : Memory :=
  { m with sp := max m.stackBase (min frame.sp m.stackEnd) }

/-- Reserve `size` zeroed bytes on the stack at a multiple of `align`. -/
def alloca (m : Memory) (size align : UInt64) : Except Trap (UInt64 × Memory) :=
  let addr := alignUp m.sp align.toNat
  let last := addr + size.toNat
  if m.stackEnd < last then .error .stackOverflow
  else .ok (UInt64.ofNat addr, { m.patch addr (List.replicate size.toNat 0) with sp := last })

/-! ## Heap -/

/-- Cut a block from the heap; null when the heap is exhausted. An empty block takes one byte, so
that blocks have addresses of their own. -/
def malloc (m : Memory) (size : UInt64) : UInt64 × Memory :=
  let addr := alignUp m.heapNext 16
  let last := addr + max size.toNat 1
  if m.size < last then (0, m)
  else (UInt64.ofNat addr, { m with heapNext := last, heapLast := some addr })

/-- A zeroed block of `count * size` bytes; null also when that product is no word. -/
def calloc (m : Memory) (count size : UInt64) : UInt64 × Memory :=
  let total := count.toNat * size.toNat
  if twoPow 64 ≤ total then (0, m)
  else
    let (addr, m) := m.malloc (UInt64.ofNat total)
    if addr = 0 then (addr, m) else (addr, m.patch addr.toNat (List.replicate total 0))

/-- Give a block back. Only the latest block is taken; every other call changes nothing. -/
def free (m : Memory) (addr : UInt64) : Memory :=
  if addr ≠ 0 ∧ m.heapLast = some addr.toNat then
    { m with heapNext := addr.toNat, heapLast := none }
  else m

/-! ## Bulk access -/

/-- Copy a range as if through a buffer, so the two may overlap. The source is checked first. -/
def copy (m : Memory) (dst src len : UInt64) : Except Trap Memory :=
  if len = 0 then .ok m
  else do
    m.check src.toNat len.toNat
    m.check dst.toNat len.toNat
    return m.patch dst.toNat (m.slice src.toNat len.toNat)

/-- Write a byte many times. -/
def fill (m : Memory) (dst : UInt64) (byte : UInt8) (len : UInt64) : Except Trap Memory :=
  if len = 0 then .ok m
  else do
    m.check dst.toNat len.toNat
    return m.patch dst.toNat (List.replicate len.toNat byte)

/-- Read bytes. -/
def read (m : Memory) (addr len : UInt64) : Except Trap (List UInt8) := do
  m.check addr.toNat len.toNat
  return m.slice addr.toNat len.toNat

/-- Write bytes. -/
def write (m : Memory) (addr : UInt64) (data : List UInt8) : Except Trap Memory := do
  m.check addr.toNat data.length
  return m.patch addr.toNat data

/-- The bytes from `addr` up to the next zero byte, which has to exist. -/
def readCString (m : Memory) (addr : UInt64) : Except Trap (List UInt8) := do
  m.check addr.toNat 1
  let tail := m.slice addr.toNat (m.size - addr.toNat)
  if tail.contains 0 then return tail.takeWhile (· != 0) else throw .outOfBounds

/-! ## Typed access -/

/-- The word of `n` bytes at an address, lowest byte first. No alignment is asked for. -/
def loadWord (m : Memory) (n : Nat) (addr : UInt64) : Except Trap (BitVec (8 * n)) := do
  m.check addr.toNat n
  return BitVec.ofNat (8 * n) (Bytes.toNat (m.slice addr.toNat n))

/-- Write a word, the lowest byte first. -/
def storeWord (m : Memory) (n : Nat) (addr : UInt64) (value : BitVec (8 * n)) :
    Except Trap Memory :=
  m.write addr (Bytes.ofNat n value.toNat)

/-- A truth value is the lowest bit of its byte. -/
def loadBool (m : Memory) (addr : UInt64) : Except Trap Bool := do
  return (← m.loadWord 1 addr).getLsbD 0

/-- Write a truth value as a byte. -/
def storeBool (m : Memory) (addr : UInt64) (value : Bool) : Except Trap Memory :=
  m.storeWord 1 addr (if value then 1 else 0)

end Memory

end SafeIR
