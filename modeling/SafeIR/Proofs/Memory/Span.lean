import SafeIR.Memory
import SafeIR.Proofs.Result

/-!
# Spans of memory

A span is a half-open range of positions. What a memory holds at a position, `byte?`, is all that
can be seen of its bytes; the lemmas say which positions an update changes and what a slice shows.
No later proof opens `overwrite`, `slice` or `check`.
-/

namespace SafeIR

variable {start len : Nat} {data : List UInt8}

/-! ## Multiples -/

theorem le_alignUp (value align : Nat) : value ≤ alignUp value align := by
  unfold alignUp
  split <;> omega

theorem dvd_alignUp (value align : Nat) : max align 1 ∣ alignUp value align := by
  have hlt : value % max align 1 < max align 1 := Nat.mod_lt _ (by omega)
  unfold alignUp
  split
  next h => exact Nat.dvd_of_mod_eq_zero h
  next =>
    refine Nat.dvd_of_mod_eq_zero ?_
    rw [Nat.add_mod, Nat.mod_eq_of_lt (a := max align 1 - _) (by omega), Nat.add_sub_cancel'
      (Nat.le_of_lt hlt), Nat.mod_self]

/-- No multiple lies between a value and the one it is aligned to. -/
theorem alignUp_le {value align n : Nat} (hle : value ≤ n) (hdvd : max align 1 ∣ n) :
    alignUp value align ≤ n := by
  have hlt : value % max align 1 < max align 1 := Nat.mod_lt _ (by omega)
  unfold alignUp
  split
  next => exact hle
  next hrem =>
    -- The quotient of `n` is above that of `value`, which is no multiple.
    obtain ⟨k, rfl⟩ := hdvd
    have hdiv := Nat.div_add_mod value (max align 1)
    have hk : value / max align 1 < k := by
      by_contra hge
      have := Nat.mul_le_mul_left (max align 1) (Nat.le_of_not_lt hge)
      omega
    have := Nat.mul_le_mul_left (max align 1) (Nat.succ_le_of_lt hk)
    rw [Nat.mul_succ] at this
    omega

/-! ## Spans -/

/-- The positions from `start` on, `length` of them. -/
structure Span where
  start : Nat
  length : Nat
  deriving DecidableEq, Repr

namespace Span

def stop (s : Span) : Nat := s.start + s.length

instance : Membership Nat Span := ⟨fun s p => s.start ≤ p ∧ p < s.stop⟩

theorem mem_iff {s : Span} {p : Nat} : p ∈ s ↔ s.start ≤ p ∧ p < s.start + s.length := Iff.rfl

instance (s : Span) (p : Nat) : Decidable (p ∈ s) := decidable_of_iff _ mem_iff.symm

/-- One ends before the other starts. -/
def Disjoint (s t : Span) : Prop := s.stop ≤ t.start ∨ t.stop ≤ s.start

end Span

namespace Memory

variable {m : Memory}

/-! ## Positions -/

/-- What stands at a position, if it is one of the memory. -/
def byte? (m : Memory) (p : Nat) : Option UInt8 := m.bytes[p]?

theorem size_overwrite (bytes : Array UInt8) (start : Nat) (data : List UInt8) :
    (overwrite bytes start data).size = bytes.size := by
  induction data generalizing bytes start with
  | nil => rfl
  | cons b bs ih => rw [overwrite, ih, Array.size_setIfInBounds]

theorem getElem?_overwrite {bytes : Array UInt8} (h : start + data.length ≤ bytes.size) (p : Nat) :
    (overwrite bytes start data)[p]? =
      if p ∈ Span.mk start data.length then data[p - start]? else bytes[p]? := by
  induction data generalizing bytes start with
  | nil =>
    rw [if_neg fun hp => by simp only [Span.mem_iff, List.length_nil] at hp; omega]
    rfl
  | cons b bs ih =>
    rw [List.length_cons] at h
    rw [overwrite, ih (by rw [Array.size_setIfInBounds]; omega), Array.getElem?_setIfInBounds,
      List.length_cons]
    simp only [Span.mem_iff]
    by_cases hp : p = start
    · subst hp
      rw [if_neg (by omega), if_pos rfl, if_pos (by omega), if_pos (by omega), Nat.sub_self]
      rfl
    · rw [if_neg (c := start = p) (Ne.symm hp)]
      by_cases hin : start + 1 ≤ p ∧ p < start + 1 + bs.length
      · rw [if_pos hin, if_pos (by omega), show p - start = p - (start + 1) + 1 by omega,
          List.getElem?_cons_succ]
      · rw [if_neg hin, if_neg (by omega)]

/-! ## Updates -/

@[simp] theorem size_patch (start : Nat) (data : List UInt8) : (m.patch start data).size = m.size :=
  size_overwrite ..

theorem byte?_patch (h : start + data.length ≤ m.size) (p : Nat) :
    (m.patch start data).byte? p =
      if p ∈ Span.mk start data.length then data[p - start]? else m.byte? p :=
  getElem?_overwrite h p

/-! ## Slices -/

theorem length_slice (h : start + len ≤ m.size) : (m.slice start len).length = len := by
  rw [slice, Array.length_toList, Array.size_extract]
  have : start + len ≤ m.bytes.size := h
  omega

theorem getElem?_slice {i : Nat} (hi : i < len) :
    (m.slice start len)[i]? = m.byte? (start + i) := by
  rw [slice, Array.getElem?_toList, Array.getElem?_extract, byte?]
  split
  next => rfl
  next h => exact (Array.getElem?_eq_none (by omega)).symm

/-- A slice is known by the bytes at its positions. -/
theorem slice_eq (h : start + data.length ≤ m.size)
    (hbytes : ∀ i < data.length, m.byte? (start + i) = data[i]?) :
    m.slice start data.length = data := by
  refine List.ext_getElem? fun i => ?_
  by_cases hi : i < data.length
  · rw [getElem?_slice hi, hbytes i hi]
  · rw [List.getElem?_eq_none (by rw [length_slice h]; omega), List.getElem?_eq_none (by omega)]

/-- The first bytes of a slice are a slice. -/
theorem take_slice {n : Nat} (h : n ≤ len) : (m.slice start len).take n = m.slice start n := by
  rw [slice, slice, Array.toList_extract, Array.toList_extract, List.extract_eq_take_drop,
    List.extract_eq_take_drop, List.take_take]
  congr 1
  omega

/-! ## Checked ranges -/

theorem check_eq_ok {addr : Nat} {u : Unit} :
    m.check addr len = .ok u ↔ nullGuard ≤ addr ∧ addr + len ≤ m.size := by
  rw [check, ite_error_eq_ok, ite_error_eq_ok, Nat.not_lt, Nat.not_lt]
  exact ⟨fun h => ⟨h.1, h.2.1⟩, fun h => ⟨h.1, h.2, rfl⟩⟩

theorem check_of_lt {addr : Nat} (h : addr < nullGuard) :
    m.check addr len = .error .nullDereference := if_pos h

theorem check_of_gt {addr : Nat} (hguard : nullGuard ≤ addr) (h : m.size < addr + len) :
    m.check addr len = .error .outOfBounds := by
  rw [check, if_neg (by omega), if_pos h]

theorem read_eq_ok {addr len : UInt64} :
    m.read addr len = .ok data ↔
      (nullGuard ≤ addr.toNat ∧ addr.toNat + len.toNat ≤ m.size) ∧
        m.slice addr.toNat len.toNat = data := by
  rw [read, bind_eq_ok]
  simp only [check_eq_ok, pure_eq_ok]
  constructor
  · rintro ⟨_, hrange, heq⟩
    exact ⟨hrange, heq⟩
  · rintro ⟨hrange, heq⟩
    exact ⟨(), hrange, heq⟩

end Memory

end SafeIR
