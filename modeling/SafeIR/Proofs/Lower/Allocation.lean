import SafeIR.Proofs.Lower.Address
import SafeIR.Proofs.Memory.Regions

/-!
# Allocations of several objects

An allocation on the stack asks for a number of objects of a type. The number of bytes is multiplied
out when the code is made, modulo the width of an address, and the stack only ever sees the product.
So the stack takes what is left of the product for the whole of it: `allocation_reserves_iff` says
that the objects are all reserved exactly if their size is a word.
-/

namespace SafeIR

namespace Memory

variable {m m' : Memory} {floor : Nat} {addr : UInt64}

/-! ## The stack after an allocation -/

/-- An operation that stores leaves the stack pointer alone. -/
theorem sp_stored {result : Except Trap Memory} (h : ∀ m', result = .ok m' → m'.sp = m.sp) :
    (m.stored result).2.sp = m.sp := by
  cases result with
  | error t => rfl
  | ok m' => exact h m' rfl

theorem sp_of_write {data : List UInt8} (h : m.write addr data = .ok m') : m'.sp = m.sp := by
  obtain ⟨-, rfl⟩ := write_eq_ok.mp h
  rfl

theorem sp_of_fill {dst len : UInt64} {byte : UInt8} (h : m.fill dst byte len = .ok m') :
    m'.sp = m.sp := by
  unfold fill at h
  split at h
  next =>
    cases h
    rfl
  next =>
    obtain ⟨_, -, h⟩ := bind_eq_ok.mp h
    cases h
    rfl

theorem sp_of_copy {dst src len : UInt64} (h : m.copy dst src len = .ok m') : m'.sp = m.sp := by
  unfold copy at h
  split at h
  next =>
    cases h
    rfl
  next =>
    obtain ⟨_, -, h⟩ := bind_eq_ok.mp h
    obtain ⟨_, -, h⟩ := bind_eq_ok.mp h
    cases h
    rfl

/-- Only a frame takes the stack pointer down, and not below the place where it was entered. -/
theorem Regions.floor_le_apply (hm : m.Regions) (hfloor : floor ≤ m.sp) {op : Op}
    (hop : ∀ f, op = .leaveFrame f → floor ≤ f.sp) : floor ≤ (op.apply m).2.sp := by
  cases op with
  | alloca size align =>
    simp only [Op.apply]
    split
    next h =>
      obtain ⟨-, -, rfl⟩ := alloca_eq_ok.mp h
      have := le_alignUp m.sp align.toNat
      exact Nat.le_trans hfloor (Nat.le_trans this (Nat.le_add_right ..))
    next => exact hfloor
  | leaveFrame frame =>
    -- The pointer of a frame is cut to the stack, whose end is not below the floor.
    have hend := hm.sp_le
    exact Nat.le_trans (Nat.le_min.mpr ⟨hop frame rfl, by omega⟩) (Nat.le_max_right ..)
  | malloc size =>
    simp only [Op.apply]
    rcases malloc_cases m size with ⟨-, h⟩ | ⟨-, h⟩ <;> rw [h] <;> exact hfloor
  | calloc count size =>
    simp only [Op.apply]
    rcases hm.calloc_cases count size with h | ⟨-, -, h⟩ <;> rw [h] <;> exact hfloor
  | free addr =>
    simp only [Op.apply]
    rcases free_cases m addr with h | ⟨-, h⟩ <;> rw [h] <;> exact hfloor
  | copy => exact (sp_stored fun _ => sp_of_copy).symm ▸ hfloor
  | fill => exact (sp_stored fun _ => sp_of_fill).symm ▸ hfloor
  | write | storeBool | storeWord => exact (sp_stored fun _ => sp_of_write).symm ▸ hfloor
  | enterFrame | read | readCString | loadBool | loadWord => exact hfloor

theorem Regions.floor_le_runAll (hm : m.Regions) (hfloor : floor ≤ m.sp) {ops : List Op}
    (hops : ∀ f, .leaveFrame f ∈ ops → floor ≤ f.sp) : floor ≤ (Memory.runAll ops m).sp := by
  induction ops generalizing m with
  | nil => exact hfloor
  | cons op ops ih =>
    refine ih (hm.effect (hm.effect_apply op)) (hm.floor_le_apply hfloor fun f hf => ?_)
      fun f hf => hops f (List.mem_cons_of_mem _ hf)
    exact hops f (hf ▸ List.mem_cons_self)

/-- A block of the stack starts at or behind the stack pointer. -/
theorem Regions.sp_le_of_alloca (hm : m.Regions) {size align : UInt64}
    (h : m.alloca size align = .ok (addr, m')) :
    m.sp ≤ addr.toNat ∧ m'.sp = addr.toNat + size.toNat ∧ m'.sp ≤ m.stackEnd := by
  obtain ⟨hroom, rfl, rfl⟩ := alloca_eq_ok.mp h
  have hend := hm.end_le
  have hnext := hm.next_le
  rw [hm.toNat_ofNat (by omega)]
  exact ⟨le_alignUp .., rfl, hroom⟩

/-- Objects of a size lie in the stack from an address on, and no block of the stack that is
allocated later reaches into them, as long as no frame is left that was entered before. -/
structure Reserved (size n : Nat) (addr : UInt64) (m m' : Memory) : Prop where
  inside : ∀ i < n, m.stackBase ≤ addr.toNat + size * i ∧ addr.toNat + size * (i + 1) ≤ m.stackEnd
  apart : ∀ later, (∀ f, .leaveFrame f ∈ later → m'.sp ≤ f.sp) →
    ∀ size' align' addr' last, (runAll later m').alloca size' align' = .ok (addr', last) →
      addr.toNat + size * n ≤ addr'.toNat

/-- A block of the stack that is large enough for objects holds them. -/
theorem Regions.reserved (hm : m.Regions) {bytes align : UInt64} {size n : Nat}
    (h : m.alloca bytes align = .ok (addr, m')) (hbytes : size * n ≤ bytes.toNat) :
    Reserved size n addr m m' := by
  obtain ⟨hstart, hsp, hend⟩ := hm.sp_le_of_alloca h
  have hm' := hm.effect (effect_of_alloca h)
  refine ⟨fun i hi => ⟨?_, ?_⟩, fun later hlater size' align' addr' last hlast => ?_⟩
  · exact Nat.le_trans hm.base_le (Nat.le_trans hstart (Nat.le_add_right ..))
  · have hle : size * (i + 1) ≤ size * n := Nat.mul_le_mul_left size hi
    omega
  · have hfloor := hm'.floor_le_runAll (Nat.le_refl _) hlater
    have hnext := ((hm'.runAll later).1.sp_le_of_alloca hlast).1
    omega

end Memory

namespace Lower

open IR (Block Operand ValueId)
open Target (Env Expr Support Value Var)

/-! ## The number of bytes -/

theorem constantSize_natCast (size n : Nat) : constantSize size n = size * n % twoPow 64 := by
  rw [constantSize, ← Int.natCast_mul, ← Int.natCast_emod, Int.toNat_natCast]

/-- The code of an allocation with a constant number of objects. -/
theorem instruction_alloca (fr : Frame) (block : Block) {ty : IR.Ty} {l : Layout} {count : Operand}
    {n : Int} {align : Option Nat} {result : Option ValueId} {d : Var} (hl : fr.layout ty = .ok l)
    (hcount : count.asInt? = some n) (hd : fr.dest? result = some d) :
    fr.instruction block ⟨result, .alloca ty (some count) align⟩ =
      .ok [.step (.assign d (.alloca (.number (constantSize l.size n) (.unsigned 64))
        (max (max (align.getD 1) l.align) 1)))] := by
  simp only [Frame.instruction, hl, Frame.allocationSize, hcount, Frame.dest, hd]
  rfl

theorem eval_constantSize {σ : Type} (sup : Support σ) (env : Env σ) (size n : Nat) :
    (Expr.number (constantSize size n) (.unsigned 64)).eval sup env =
      some (.word false 64 (BitVec.ofNat 64 (size * n))) := by
  have hword : BitVec.ofInt 64 (constantSize size n) = BitVec.ofNat 64 (size * n) := by
    rw [constantSize_natCast, BitVec.ofInt_natCast]
    exact BitVec.eq_of_toNat_eq (Nat.mod_mod ..)
  exact congrArg (fun w => some (Value.word false 64 w)) hword

/-- What is left of a number modulo the width of an address is the number itself if that is a
word, and else less than it. -/
theorem le_mod_iff (k : Nat) : k ≤ k % twoPow 64 ↔ k < twoPow 64 := by
  have hlt : k % twoPow 64 < twoPow 64 := Nat.mod_lt _ (by decide)
  exact ⟨fun h => Nat.lt_of_le_of_lt h hlt, fun h => Nat.le_of_eq (Nat.mod_eq_of_lt h).symm⟩

/-- The code for a constant number of objects of a type with a layout, at any alignment, on any
memory that a program comes to: the stack overflows, or it gives an address, and then all of the
objects are reserved exactly if their size is a word. -/
theorem allocation_reserves_iff (fr : Frame) (block : Block) {ty : IR.Ty} {l : Layout}
    {count : Operand} {n : Nat} {align : Option Nat} {result : Option ValueId} {d : Var}
    (hl : fr.layout ty = .ok l) (hcount : count.asInt? = some (n : Int))
    (hd : fr.dest? result = some d) :
    ∃ bytes a, ∃ w : BitVec 64, a = max (max (align.getD 1) l.align) 1 ∧
      w.toNat = l.size * n % twoPow 64 ∧
      fr.instruction block ⟨result, .alloca ty (some count) align⟩ =
        .ok [.step (.assign d (.alloca bytes a))] ∧
      (∀ {σ : Type} (sup : Support σ) (env : Env σ),
        bytes.eval sup env = some (.word false 64 w)) ∧
      ∀ image config ops, (Memory.withConfig image config).size < twoPow 64 →
        let m := Memory.runAll ops (Memory.withConfig image config)
        m.alloca ⟨w⟩ (UInt64.ofNat a) = .error .stackOverflow ∨
          ∃ addr m', m.alloca ⟨w⟩ (UInt64.ofNat a) = .ok (addr, m') ∧
            (l.size * n ≤ m'.sp - addr.toNat ↔ l.size * n < twoPow 64) ∧
            (l.size * n < twoPow 64 → Memory.Reserved l.size n addr m m') := by
  refine ⟨_, _, BitVec.ofNat 64 (l.size * n), rfl, rfl, instruction_alloca fr block hl hcount hd,
    fun sup env => eval_constantSize sup env l.size n, fun image config ops hsize => ?_⟩
  intro m
  have hm : m.Regions := ((Memory.regions_withConfig hsize).runAll ops).1
  have hword : l.size * n ≤ UInt64.toNat ⟨BitVec.ofNat 64 (l.size * n)⟩ ↔ l.size * n < twoPow 64 :=
    le_mod_iff _
  cases halloca : m.alloca ⟨BitVec.ofNat 64 (l.size * n)⟩
      (UInt64.ofNat (max (max (align.getD 1) l.align) 1)) with
  | error t =>
    rw [Memory.alloca] at halloca
    split at halloca <;> cases halloca
    exact .inl rfl
  | ok r =>
    obtain ⟨addr, m'⟩ := r
    obtain ⟨-, hsp, -⟩ := hm.sp_le_of_alloca halloca
    refine .inr ⟨addr, m', rfl, ?_, fun h => hm.reserved halloca (hword.mpr h)⟩
    rw [hsp, Nat.add_sub_cancel_left, hword]

/-- A function with one variable, for an address. -/
def slotFrame : Frame :=
  { hollowFrame with function := { hollowFrame.function with values := [⟨"p", .ptr⟩] } }

/-- Three records of eight bytes, behind a byte. -/
theorem allocation_reserves_records :
    slotFrame.instruction hollowSite.block
        ⟨some ⟨0⟩, .alloca (.struct false [.int 8, .int 32]) (some (.const (.int 3))) (some 0)⟩ =
      .ok [.step (.assign (.value ⟨0⟩) (.alloca (.number 24 (.unsigned 64)) 4))] ∧
    ∃ m addr m', m = Memory.runAll [.alloca 1 1] (Memory.withConfig [] ⟨64, 0⟩) ∧
      m.alloca 24 4 = .ok (addr, m') ∧ addr = 68 ∧ m'.sp = 92 ∧ 8 * 3 ≤ m'.sp - addr.toNat ∧
      Memory.Reserved 8 3 addr m m' := by
  obtain ⟨bytes, a, w, rfl, hw, hcode, -, hmemory⟩ := @allocation_reserves_iff slotFrame
    hollowSite.block (.struct false [.int 8, .int 32]) _ (.const (.int 3)) 3 (some 0) (some ⟨0⟩)
    (.value ⟨0⟩) rfl rfl rfl
  obtain rfl : w = 24 := BitVec.eq_of_toNat_eq hw
  cases hcode
  have hsize : (Memory.withConfig [] ⟨64, 0⟩).size < twoPow 64 := by
    rw [Memory.size_withConfig]
    decide
  have hblock : (Memory.runAll [.alloca 1 1] (Memory.withConfig [] ⟨64, 0⟩)).alloca 24 4
      = .ok (68, _) := rfl
  rcases hmemory [] ⟨64, 0⟩ [.alloca 1 1] hsize with herror | ⟨addr, m', hok, hiff, hreserved⟩
  · cases hblock.symm.trans herror
  · cases hblock.symm.trans hok
    exact ⟨rfl, _, _, _, rfl, hblock, rfl, rfl, hiff.mpr (by decide), hreserved (by decide)⟩

/-- More objects than there are addresses: the size of the words is eight bytes too large for one,
so eight bytes are reserved, and the next block starts behind the first object. -/
theorem wrapped_size_reserves_little :
    slotFrame.instruction hollowSite.block
        ⟨some ⟨0⟩, .alloca (.int 64) (some (.const (.int 2305843009213693953))) none⟩ =
      .ok [.step (.assign (.value ⟨0⟩) (.alloca (.number 8 (.unsigned 64)) 8))] ∧
    ∃ addr m' addr' m'', (Memory.withConfig [] ⟨64, 0⟩).alloca 8 8 = .ok (addr, m') ∧
      ¬ 8 * 2305843009213693953 ≤ m'.sp - addr.toNat ∧ m'.alloca 8 8 = .ok (addr', m'') ∧
      addr'.toNat < addr.toNat + 8 * 2305843009213693953 := by
  refine ⟨rfl, _, _, _, _, rfl, ?_, rfl, ?_⟩
  · decide
  · decide

end Lower

end SafeIR
