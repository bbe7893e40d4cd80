import SafeIR.Proofs.Layout.Element
import SafeIR.Proofs.Lower.Address

/-!
# Addresses of elements with constant indices

Constant indices spell a path into an object. Where the path stays inside of every array and every
structure that it enters, the address is a constant, and the element at it lies inside of the
object. Two elements share a byte only if the path to one of them goes on from the other.

Offsets are computed modulo the width of an address. For an object of less than half of all
addresses this shows nowhere, since every offset on the way is one inside of the object.
-/

namespace SafeIR.Lower

open IR (Typed)
open Layout (Component Element inner? Unpacked)
open SafeIR.Lower.Frame (wrap64)

/-- The indices are constants, which are the numbers of a path. -/
def Spells (indices : List Typed) (path : List Nat) : Prop :=
  List.Forall₂ (fun index n => index.2.asInt? = some (n : Int)) indices path

theorem wrap64_of_lt {n : Nat} (h : n < twoPow 63) : wrap64 n = n := by
  have hhalf : twoPow 64 = 2 * twoPow 63 := rfl
  refine Int.bmod_eq_of_le ?_ ?_ <;> omega

section

variable {fr : Frame} {s : Site} {l e : Layout}

/-- A constant index enters a component. -/
theorem enters_of_component {i offset : Nat} {index : Typed} (h : Component l i offset e)
    (hindex : index.2.asInt? = some (i : Int)) : Enters fr s l index e offset [] := by
  cases h with
  | element =>
    rw [Int.natCast_mul]
    exact .element hindex
  | field hfield hoffset => exact .field hindex hfield hoffset

theorem walks_of_element {path : List Nat} {offset : Nat} {indices : List Typed}
    (h : Element l path offset e) (hspells : Spells indices path) :
    Walks fr s l indices e offset [] := by
  induction h generalizing indices with
  | here =>
    cases hspells
    exact .nil
  | inside hcomponent _ ih =>
    cases hspells with
    | cons hindex hspells =>
      rw [Int.natCast_add]
      exact .cons (enters_of_component hcomponent hindex) (ih hspells)

end

/-- Constant indices address an object of another type inside of an object: its bytes start at a
fixed offset and are those of the layout. -/
structure Addresses (fr : Frame) (s : Site) (source : IR.Ty) (indices : List Typed) (final : IR.Ty)
    (offset : Nat) (e : Layout) : Prop where
  offsets : fr.offsets s source indices = .ok ((offset : Int), [])
  layout : fr.layout final = .ok e

/-- The address of the element at a path. -/
theorem addresses_of_path {fr : Frame} {s : Site} {source final : IR.Ty} {l : Layout}
    {path : List Nat} {indices : List Typed} (hl : fr.layout source = .ok l)
    (hsize : l.size < twoPow 63) (hspells : Spells indices (0 :: path))
    (hfinal : inner? source path = some final) :
    ∃ offset e, Element l path offset e ∧ Addresses fr s source indices final offset e ∧
      (Unpacked source path → e.align ∣ offset) := by
  obtain ⟨offset, e, helement, he, halign⟩ := Layout.exists_element (mapError_eq_ok.mp hl) hfinal
  have hle := helement.le
  -- the object is the only one of a row
  have hrow : Element (.array l 1) (0 :: path) (0 * l.stride + offset) e :=
    .inside (.element Nat.one_pos) helement
  rw [Nat.zero_mul, Nat.zero_add] at hrow
  have hoffsets : fr.offsets s source indices = .ok ((offset : Int), []) :=
    (Frame.offsets_eq_ok 1 hl).mpr
      ⟨e, offset, walks_of_element hrow hspells, (wrap64_of_lt (by omega)).symm⟩
  exact ⟨offset, e, helement, ⟨hoffsets, mapError_eq_ok.mpr he⟩, fun h => (halign h).1⟩

/-- **Elements.** Elements lie inside of the object, are aligned unless a packed structure is on the
path to them, and lie apart unless one is inside of the other. -/
theorem elements_inside_and_apart (fr : Frame) (s : Site) {source : IR.Ty} {l : Layout}
    (hl : fr.layout source = .ok l) (hsize : l.size < twoPow 63) :
    (∀ indices path final, Spells indices (0 :: path) → inner? source path = some final →
      ∃ offset e, Addresses fr s source indices final offset e ∧ offset + e.size ≤ l.size ∧
        (Unpacked source path → e.align ∣ offset)) ∧
    ∀ indices indices' path path' final final',
      Spells indices (0 :: path) → inner? source path = some final →
      Spells indices' (0 :: path') → inner? source path' = some final' →
      ¬ path <+: path' → ¬ path' <+: path →
      ∃ offset e offset' e', Addresses fr s source indices final offset e ∧
        Addresses fr s source indices' final' offset' e' ∧
        Span.Disjoint ⟨offset, e.size⟩ ⟨offset', e'.size⟩ := by
  constructor
  · intro indices path final hspells hfinal
    obtain ⟨offset, e, helement, haddress, halign⟩ := addresses_of_path hl hsize hspells hfinal
    exact ⟨offset, e, haddress, helement.le, halign⟩
  · intro indices indices' path path' final final' hspells hfinal hspells' hfinal' hne hne'
    obtain ⟨offset, e, helement, haddress, -⟩ := addresses_of_path hl hsize hspells hfinal
    obtain ⟨offset', e', helement', haddress', -⟩ := addresses_of_path hl hsize hspells' hfinal'
    exact ⟨offset, e, offset', e', haddress, haddress', helement.disjoint helement' hne hne'⟩

/-- The last word of a record with a tail, and the byte in front of the words. -/
theorem elements_inside_and_apart_tail :
    (∃ offset e, Addresses hollowFrame hollowSite tailedTy
        [(.int 32, .const (.int 0)), (.int 32, .const (.int 1)), (.int 64, .const (.int 2))]
        (.int 32) offset e ∧
      offset + e.size ≤ 16 ∧ (Unpacked tailedTy [1, 2] → e.align ∣ offset)) ∧
    ∃ offset e offset' e', Addresses hollowFrame hollowSite tailedTy
        [(.int 32, .const (.int 0)), (.int 32, .const (.int 1)), (.int 64, .const (.int 2))]
        (.int 32) offset e ∧
      Addresses hollowFrame hollowSite tailedTy
        [(.int 1, .const (.bool false)), (.int 32, .const (.int 0))] (.int 8) offset' e' ∧
      Span.Disjoint ⟨offset, e.size⟩ ⟨offset', e'.size⟩ := by
  have hl : hollowFrame.layout tailedTy = .ok (.struct false [.int 8, .array (.int 32) 3]) := rfl
  obtain ⟨hinside, hapart⟩ := elements_inside_and_apart hollowFrame hollowSite hl (by decide)
  have hword : Spells
      [(.int 32, .const (.int 0)), (.int 32, .const (.int 1)), (.int 64, .const (.int 2))]
      [0, 1, 2] := .cons rfl (.cons rfl (.cons rfl .nil))
  have hbyte : Spells [(.int 1, .const (.bool false)), (.int 32, .const (.int 0))] [0, 0] :=
    .cons rfl (.cons rfl .nil)
  exact ⟨hinside _ _ _ hword rfl, hapart _ _ _ _ _ _ hword rfl hbyte rfl (by decide) (by decide)⟩

end SafeIR.Lower
