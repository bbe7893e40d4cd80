import SafeIR.Proofs.Memory.Access
import SafeIR.Proofs.Memory.Routine

/-!
# Bulk access

Copies, fills and strings, said position by position. `Alters` is what a bulk operation may do: it
puts given bytes into one span and touches nothing else. What a copy puts there is read off the
memory before it, so the statement is the same whichever way source and target overlap.
-/

namespace SafeIR.Memory

variable {m m' : Memory} {len dst : UInt64}

/-- All of the span lies between the guard and the end. -/
def Accessible (m : Memory) (s : Span) : Prop := nullGuard ≤ s.start ∧ s.stop ≤ m.size

/-- One memory holds the new bytes in a span and is the other one everywhere else. -/
structure Alters (m : Memory) (s : Span) (new : Nat → Option UInt8) (m' : Memory) : Prop where
  cursors : { m with bytes := m'.bytes } = m'
  size : m'.size = m.size
  inside : ∀ i < s.length, m'.byte? (s.start + i) = new i
  outside : ∀ p, p ∉ s → m'.byte? p = m.byte? p

theorem alters_patch {start len : Nat} {data : List UInt8} {new : Nat → Option UInt8}
    (hlen : data.length = len) (hend : start + len ≤ m.size)
    (hnew : ∀ i < len, data[i]? = new i) :
    m.Alters ⟨start, len⟩ new (m.patch start data) where
  cursors := rfl
  size := size_patch ..
  inside i hi := by
    subst hlen
    have hmem : start + i ∈ Span.mk start data.length :=
      Span.mem_iff.mpr ⟨Nat.le_add_right .., Nat.add_lt_add_left hi start⟩
    show (m.patch start data).byte? (start + i) = new i
    rw [byte?_patch hend, if_pos hmem, Nat.add_sub_cancel_left, hnew i hi]
  outside p hp := by
    subst hlen
    rw [byte?_patch hend, if_neg hp]

/-! ## Copies and fills -/

theorem copy_eq_ok {src : UInt64} (hlen : len ≠ 0) :
    m.copy dst src len = .ok m' ↔
      m.Accessible ⟨src.toNat, len.toNat⟩ ∧ m.Accessible ⟨dst.toNat, len.toNat⟩ ∧
        m.patch dst.toNat (m.slice src.toNat len.toNat) = m' := by
  rw [copy, if_neg hlen, bind_eq_ok]
  simp only [bind_eq_ok, check_eq_ok, pure_eq_ok]
  constructor
  · rintro ⟨_, hsrc, _, hdst, heq⟩
    exact ⟨hsrc, hdst, heq⟩
  · rintro ⟨hsrc, hdst, heq⟩
    exact ⟨(), hsrc, (), hdst, heq⟩

theorem fill_eq_ok {byte : UInt8} (hlen : len ≠ 0) :
    m.fill dst byte len = .ok m' ↔
      m.Accessible ⟨dst.toNat, len.toNat⟩ ∧
        m.patch dst.toNat (List.replicate len.toNat byte) = m' := by
  rw [fill, if_neg hlen, bind_eq_ok]
  simp only [check_eq_ok, pure_eq_ok]
  constructor
  · rintro ⟨_, hdst, heq⟩
    exact ⟨hdst, heq⟩
  · rintro ⟨hdst, heq⟩
    exact ⟨(), hdst, heq⟩

/-- Each byte of the target is the one that stood at its place in the source. -/
theorem alters_of_copy {src : UInt64} (hlen : len ≠ 0) (h : m.copy dst src len = .ok m') :
    m.Alters ⟨dst.toNat, len.toNat⟩ (fun i => m.byte? (src.toNat + i)) m' := by
  obtain ⟨⟨-, hsrc⟩, ⟨-, hdst⟩, rfl⟩ := (copy_eq_ok hlen).mp h
  exact alters_patch (length_slice hsrc) hdst fun i hi => getElem?_slice hi

theorem alters_of_fill {byte : UInt8} (hlen : len ≠ 0) (h : m.fill dst byte len = .ok m') :
    m.Alters ⟨dst.toNat, len.toNat⟩ (fun _ => some byte) m' := by
  obtain ⟨⟨-, hdst⟩, rfl⟩ := (fill_eq_ok hlen).mp h
  exact alters_patch List.length_replicate hdst fun i hi => List.getElem?_replicate_of_lt hi

/-- The first of two computations that traps decides. -/
theorem trap?_bind {x : Except Trap Unit} {y : Except Trap Memory} :
    trap? (x >>= fun _ => y) = (trap? x).or (trap? y) := by
  cases x <;> rfl

theorem trap?_copy (hsize : m.size < twoPow 64) {src : UInt64} (hlen : len ≠ 0) :
    trap? (m.copy dst src len) =
      (m.rangeTrap? src len.toNat).or (m.rangeTrap? dst len.toNat) := by
  -- The source is checked first, and no check follows one that fails.
  rw [copy, if_neg hlen, trap?_bind, trap?_bind, trap?_check hsize, trap?_check hsize]
  cases m.rangeTrap? src len.toNat <;> cases m.rangeTrap? dst len.toNat <;> rfl

theorem trap?_fill (hsize : m.size < twoPow 64) {byte : UInt8} (hlen : len ≠ 0) :
    trap? (m.fill dst byte len) = m.rangeTrap? dst len.toNat := by
  rw [fill, if_neg hlen, trap?_bind, trap?_check hsize]
  cases m.rangeTrap? dst len.toNat <;> rfl

/-! ## Strings -/

/-- The bytes from an address on are none of them zero, and then a zero follows. -/
structure StringAt (m : Memory) (addr : Nat) (s : List UInt8) : Prop where
  bytes : ∀ i < s.length, m.byte? (addr + i) = s[i]?
  nonzero : 0 ∉ s
  terminated : m.byte? (addr + s.length) = some 0

theorem readCString_eq_ok {addr : UInt64} {s : List UInt8} :
    m.readCString addr = .ok s ↔
      (nullGuard ≤ addr.toNat ∧ addr.toNat < m.size) ∧
        0 ∈ m.slice addr.toNat (m.size - addr.toNat) ∧
        (m.slice addr.toNat (m.size - addr.toNat)).takeWhile (· != 0) = s := by
  rw [readCString, bind_eq_ok]
  simp only [check_eq_ok, Nat.add_one_le_iff]
  constructor
  · rintro ⟨_, hrange, htail⟩
    split at htail
    next hzero => exact ⟨hrange, List.contains_iff_mem.mp hzero, pure_eq_ok.mp htail⟩
    next => cases htail
  · rintro ⟨hrange, hzero, heq⟩
    refine ⟨(), hrange, ?_⟩
    rw [if_pos (List.contains_iff_mem.mpr hzero), heq]
    rfl

/-- There is a zero in the rest of the memory exactly if it stands at some position. -/
theorem zero_mem_slice_iff {addr : Nat} (h : addr < m.size) :
    0 ∈ m.slice addr (m.size - addr) ↔ ∃ p, addr ≤ p ∧ m.byte? p = some 0 := by
  have hlength : (m.slice addr (m.size - addr)).length = m.size - addr := length_slice (by omega)
  rw [List.mem_iff_getElem?]
  constructor
  · rintro ⟨i, hi⟩
    have hlt : i < m.size - addr := hlength ▸ (List.getElem?_eq_some_iff.mp hi).1
    exact ⟨addr + i, Nat.le_add_right .., by rw [← getElem?_slice hlt, hi]⟩
  · rintro ⟨p, hp, hzero⟩
    have hlt : p < m.size := (Array.getElem?_eq_some_iff.mp hzero).1
    refine ⟨p - addr, ?_⟩
    rw [getElem?_slice (by omega), Nat.add_sub_cancel' hp, hzero]

theorem stringAt_takeWhile {addr : Nat} (h : addr < m.size)
    (hzero : 0 ∈ m.slice addr (m.size - addr)) :
    m.StringAt addr ((m.slice addr (m.size - addr)).takeWhile (· != 0)) := by
  have hlength : (m.slice addr (m.size - addr)).length = m.size - addr := length_slice (by omega)
  -- The string is what stands before the index of the first zero.
  obtain ⟨len, hlen⟩ : ∃ len, (m.slice addr (m.size - addr)).findIdx? (· == 0) = some len := by
    cases hfind : (m.slice addr (m.size - addr)).findIdx? (· == 0) with
    | some len => exact ⟨len, rfl⟩
    | none =>
      have hnone := Routine.contains_of_findIdx?_none hfind
      rw [List.contains_iff_mem.mpr hzero] at hnone
      cases hnone
  obtain ⟨hlt, -, htake⟩ := Routine.takeWhile_of_findIdx?_some hlen
  have hlenTake : ((m.slice addr (m.size - addr)).take len).length = len := by
    rw [List.length_take]
    omega
  constructor
  · intro i hi
    rw [htake] at hi ⊢
    rw [List.getElem?_take_of_lt (by omega), getElem?_slice (by omega)]
  · intro hmem
    exact absurd (List.all_eq_true.mp List.all_takeWhile 0 hmem) (by decide)
  · rw [htake, hlenTake, ← getElem?_slice (hlength ▸ hlt)]
    obtain ⟨hbound, hfound, -⟩ := List.findIdx?_eq_some_iff_getElem.mp hlen
    rw [List.getElem?_eq_getElem hbound, eq_of_beq hfound]

/-! ## All of them -/

/-- A copy moves the bytes of its source as they were before it, a fill sets exactly its span, and
both do nothing at all if they are empty. They succeed exactly if their spans are accessible; else
they trap, a copy for its source first, and in place leave the memory as it is. A string is read
exactly if a zero byte follows, and ends at the first. -/
theorem bulk_operations_move_and_fill (m : Memory) (hsize : m.size < twoPow 64) :
    (∀ dst src byte, m.copy dst src 0 = .ok m ∧ m.fill dst byte 0 = .ok m) ∧
    (∀ dst src len, len ≠ 0 →
      ((∃ m', m.copy dst src len = .ok m') ↔
        m.Accessible ⟨src.toNat, len.toNat⟩ ∧ m.Accessible ⟨dst.toNat, len.toNat⟩) ∧
      (∀ m', m.copy dst src len = .ok m' →
        m.Alters ⟨dst.toNat, len.toNat⟩ (fun i => m.byte? (src.toNat + i)) m') ∧
      trap? (m.copy dst src len) =
        (m.rangeTrap? src len.toNat).or (m.rangeTrap? dst len.toNat)) ∧
    (∀ dst byte len, len ≠ 0 →
      ((∃ m', m.fill dst byte len = .ok m') ↔ m.Accessible ⟨dst.toNat, len.toNat⟩) ∧
      (∀ m', m.fill dst byte len = .ok m' →
        m.Alters ⟨dst.toNat, len.toNat⟩ (fun _ => some byte) m') ∧
      trap? (m.fill dst byte len) = m.rangeTrap? dst len.toNat) ∧
    (∀ dst src byte len,
      (Routine.copy dst src len).run m = Routine.inPlace m (m.copy dst src len) ∧
      (Routine.fill dst byte len).run m = Routine.inPlace m (m.fill dst byte len)) ∧
    ∀ addr : UInt64,
      ((∃ s, m.readCString addr = .ok s) ↔
        (nullGuard ≤ addr.toNat ∧ addr.toNat < m.size) ∧
          ∃ p, addr.toNat ≤ p ∧ m.byte? p = some 0) ∧
      (∀ s, m.readCString addr = .ok s → m.StringAt addr.toNat s) ∧
      (Routine.readCString addr).run m = (Ending.ofResult (m.readCString addr), m) := by
  refine ⟨fun dst src byte => ⟨rfl, rfl⟩, fun dst src len hlen => ?_, fun dst byte len hlen => ?_,
    fun dst src byte len => ⟨Routine.run_copy hsize .., Routine.run_fill hsize ..⟩,
    fun addr => ⟨?_, fun s h => ?_, Routine.run_readCString hsize addr⟩⟩
  · refine ⟨?_, fun m' => alters_of_copy hlen, trap?_copy hsize hlen⟩
    constructor
    · rintro ⟨m', h⟩
      obtain ⟨hsrc, hdst, -⟩ := (copy_eq_ok hlen).mp h
      exact ⟨hsrc, hdst⟩
    · rintro ⟨hsrc, hdst⟩
      exact ⟨_, (copy_eq_ok hlen).mpr ⟨hsrc, hdst, rfl⟩⟩
  · refine ⟨?_, fun m' => alters_of_fill hlen, trap?_fill hsize hlen⟩
    constructor
    · rintro ⟨m', h⟩
      exact ((fill_eq_ok hlen).mp h).1
    · intro hdst
      exact ⟨_, (fill_eq_ok hlen).mpr ⟨hdst, rfl⟩⟩
  · constructor
    · rintro ⟨s, h⟩
      obtain ⟨hrange, hzero, -⟩ := readCString_eq_ok.mp h
      exact ⟨hrange, (zero_mem_slice_iff hrange.2).mp hzero⟩
    · rintro ⟨hrange, hzero⟩
      exact ⟨_, readCString_eq_ok.mpr ⟨hrange, (zero_mem_slice_iff hrange.2).mpr hzero, rfl⟩⟩
  · obtain ⟨hrange, hzero, rfl⟩ := readCString_eq_ok.mp h
    exact stringAt_takeWhile hrange.2 hzero

/-- Three of four bytes are moved one place up, and one place down. A copy of nothing between
addresses that do not exist changes nothing. Where the source passes the last address and the target
is in the guard, the copy traps for the source. The string ends before the first zero. -/
theorem bulk_operations_on_overlap :
    ∃ m up down, m = withConfig [1, 2, 3, 4] ⟨64, 64⟩ ∧ m.size = 208 ∧
      m.copy 65 64 3 = .ok up ∧ (up.byte? 64, up.byte? 66, up.byte? 67) = (some 1, some 2, some 3) ∧
      m.copy 64 65 3 = .ok down ∧ (down.byte? 64, down.byte? 66) = (some 2, some 4) ∧
      m.copy 0 0xffffffffffffffff 0 = .ok m ∧
      (Routine.copy 0 0xffffffffffffffff 2).run m = (.trap .outOfBounds, m) ∧
      ∃ s, m.readCString 65 = .ok s ∧ m.StringAt 65 s := by
  have hsize : (withConfig [1, 2, 3, 4] ⟨64, 64⟩).size = 208 := by
    rw [size_withConfig]
    rfl
  obtain ⟨hempty, hcopy, -, hroutine, hstring⟩ :=
    bulk_operations_move_and_fill (withConfig [1, 2, 3, 4] ⟨64, 64⟩) (by rw [hsize]; decide)
  have hbytes : [64, 65, 66, 67, 68].map (withConfig [1, 2, 3, 4] ⟨64, 64⟩).byte? =
      [some 1, some 2, some 3, some 4, some 0] := by decide +kernel
  have hup := hcopy 65 64 3 (by decide)
  have hdown := hcopy 64 65 3 (by decide)
  have hwrong := hcopy 0 0xffffffffffffffff 2 (by decide)
  generalize withConfig [1, 2, 3, 4] ⟨64, 64⟩ = m at *
  obtain ⟨h64, h65, h66, h67, h68, -⟩ : m.byte? 64 = some 1 ∧ m.byte? 65 = some 2 ∧
      m.byte? 66 = some 3 ∧ m.byte? 67 = some 4 ∧ m.byte? 68 = some 0 ∧ True := by
    simpa using hbytes
  have hlow : m.Accessible ⟨64, 3⟩ := ⟨by decide, by rw [hsize]; decide⟩
  have hhigh : m.Accessible ⟨65, 3⟩ := ⟨by decide, by rw [hsize]; decide⟩
  obtain ⟨up, hupOk⟩ := hup.1.mpr ⟨hlow, hhigh⟩
  obtain ⟨down, hdownOk⟩ := hdown.1.mpr ⟨hhigh, hlow⟩
  have hupAlters := hup.2.1 up hupOk
  have hdownAlters := hdown.2.1 down hdownOk
  obtain ⟨s, hs⟩ := (hstring 65).1.mpr ⟨by rw [hsize]; decide, 68, by decide, h68⟩
  refine ⟨m, up, down, rfl, hsize, hupOk, ?_, hdownOk, ?_, (hempty _ _ 0).1, ?_, s, hs,
    (hstring 65).2.1 s hs⟩
  · have h1 : up.byte? 66 = m.byte? 65 := hupAlters.inside 1 (by decide)
    have h2 : up.byte? 67 = m.byte? 66 := hupAlters.inside 2 (by decide)
    rw [hupAlters.outside 64 (by decide), h1, h2, h64, h65, h66]
  · have h0 : down.byte? 64 = m.byte? 65 := hdownAlters.inside 0 (by decide)
    have h2 : down.byte? 66 = m.byte? 67 := hdownAlters.inside 2 (by decide)
    rw [h0, h2, h65, h67]
  · have htrap : trap? (m.copy 0 0xffffffffffffffff 2) = some .outOfBounds := by
      rw [hwrong.2.2, rangeTrap?, hsize]
      rfl
    rw [(hroutine _ _ 0 _).1]
    cases hresult : m.copy 0 0xffffffffffffffff 2 with
    | ok m' => rw [hresult] at htrap; cases htrap
    | error t =>
      rw [hresult] at htrap
      cases htrap
      rfl

end SafeIR.Memory
