import SafeIR.Proofs.Layout.Alignment
import SafeIR.Proofs.Layout.Place

/-!
# Sizes and addresses in machine words

Sizes and addresses are exact numbers elsewhere; a program computes them in words of 64 bits. An
operation whose exact result is no word stops a program that is built with checks, and is cut to a
word otherwise (`Build`). Here are the size of a layout and the places of globals as they come out
in words, operation by operation.

Where all sizes and the ends of all globals are words, both builds compute the exact numbers
(`sizeIn_eq`, `placeIn_eq`).
-/

namespace SafeIR

/-- What overflow does to a program: it is checked for, or it wraps around. -/
inductive Build where
  | checked
  | wrapping
  deriving DecidableEq, Repr

namespace Build

/-- The word for the exact result of an operation; nothing where the program stops. -/
def word (b : Build) (n : Nat) : Option Nat :=
  if n < twoPow 64 then some n
  else match b with
    | checked => none
    | wrapping => some (n % twoPow 64)

variable {b : Build} {n : Nat}

theorem word_of_lt (h : n < twoPow 64) : b.word n = some n := if_pos h

theorem word_checked_of_ge (h : twoPow 64 ≤ n) : checked.word n = none :=
  if_neg (Nat.not_lt.mpr h)

theorem word_wrapping : wrapping.word n = some (n % twoPow 64) := by
  unfold word
  split
  next h => rw [Nat.mod_eq_of_lt h]
  next => rfl

end Build

namespace Layout

open IR (Global GlobalId Ty)
open Image (place)

/-! ## Sizes -/

/-- Where the last of several fields ends, given with their sizes. -/
def endIn (b : Build) (packed : Bool) : Nat → List (Layout × Nat) → Option Nat
  | start, [] => some start
  | start, (l, size) :: fields => do
    let offset ← b.word (alignUp start (if packed then 1 else l.align))
    let stop ← b.word (offset + size)
    endIn b packed stop fields

mutual

/-- The size of a layout as a program computes it. -/
def sizeIn (b : Build) : Layout → Option Nat
  | array elem len => do
    let size ← sizeIn b elem
    let stride ← b.word (alignUp size elem.align)
    b.word (stride * len)
  | struct packed fields => do
    let sizes ← sizesIn b fields
    let stop ← endIn b packed 0 (fields.zip sizes)
    b.word (alignUp stop (if packed then 1 else maxAlign fields))
  | function params ret _ => do
    let _ ← sizesIn b params
    let _ ← sizeIn b ret
    return 0
  | l => some l.size

/-- The sizes of fields, as far as they are words. -/
def sizesIn (b : Build) : List Layout → Option (List Nat)
  | [] => some []
  | l :: ls => return (← sizeIn b l) :: (← sizesIn b ls)

end

/-- The type has no layout, or one whose size is a word. -/
def sizeFits (limit : Nat) (ty : Ty) : Bool :=
  match ofType limit ty with
  | .ok l => l.size < twoPow 64
  | .error _ => true

mutual

/-- The sizes of a type and of all its parts are words. -/
def sizesFit (limit : Nat) : Ty → Bool
  | .array len elem => sizeFits limit (.array len elem) && sizesFit limit elem
  | .struct packed fields => sizeFits limit (.struct packed fields) && allSizesFit limit fields
  | .function ret params _ => allSizesFit limit params && sizesFit limit ret
  | _ => true

def allSizesFit (limit : Nat) : List Ty → Bool
  | [] => true
  | ty :: tys => sizesFit limit ty && allSizesFit limit tys

end

section

variable {limit : Nat} {b : Build}

theorem size_lt_of_sizeFits {ty : Ty} {l : Layout} (hl : ofType limit ty = .ok l)
    (h : sizeFits limit ty = true) : l.size < twoPow 64 := by
  rw [sizeFits, hl] at h
  exact of_decide_eq_true h

/-- Scalars are small, so the parts of a type decide. -/
theorem size_lt_of_sizesFit {ty : Ty} {l : Layout} (hl : ofType limit ty = .ok l)
    (h : sizesFit limit ty = true) : l.size < twoPow 64 := by
  cases ty with
  | array | struct => exact size_lt_of_sizeFits hl (Bool.and_eq_true_iff.mp h).1
  | function ret params varargs =>
    simp only [ofType, bind_eq_ok, pure_eq_ok] at hl
    obtain ⟨_, -, _, -, rfl⟩ := hl
    exact Nat.two_pow_pos 64
  | int bits =>
    rcases ofLeaf_int hl with ⟨-, rfl⟩ | ⟨hbits, rfl⟩
    · decide
    · exact (by decide : ∀ bits ∈ [8, 16, 32, 64, 128], (int bits).size < twoPow 64) bits hbits
  | void | float | double | ptr =>
    cases hl
    decide
  | half | x86Fp80 | fp128 | label | metadata => cases hl

theorem endIn_eq {packed : Bool} {start : Nat} {ls : List Layout}
    (h : endOffset packed start ls < twoPow 64) :
    endIn b packed start (ls.zip (ls.map size)) = some (endOffset packed start ls) := by
  induction ls generalizing start with
  | nil => rfl
  | cons l ls ih =>
    have hend := le_endOffset packed (alignUp start (if packed then 1 else l.align) + l.size) ls
    rw [endOffset] at h
    rw [List.map_cons, List.zip_cons_cons, endIn, endOffset, Build.word_of_lt (by omega),
      Option.bind_eq_bind, Option.bind_some, Build.word_of_lt (by omega)]
    exact ih h

mutual

/-- A type whose sizes are words has its exact size in words. -/
theorem sizeIn_eq : (ty : Ty) → {l : Layout} → ofType limit ty = .ok l →
    sizesFit limit ty = true → l.sizeIn b = some l.size
  | .array len elem, l, hl, h => by
    have hsize := size_lt_of_sizesFit hl h
    obtain ⟨e, he, rfl⟩ := ofType_array_eq_ok.mp hl
    have helem := (Bool.and_eq_true_iff.mp h).2
    -- an array without elements may have a stride that is longer than itself
    have hstride : alignUp e.size e.align < twoPow 64 := by
      show e.stride < twoPow 64
      rw [stride_eq_size he]
      exact size_lt_of_sizesFit he helem
    rw [sizeIn, sizeIn_eq elem he helem, Option.bind_eq_bind, Option.bind_some,
      Build.word_of_lt hstride]
    exact Build.word_of_lt hsize
  | .struct packed fields, l, hl, h => by
    have hsize := size_lt_of_sizesFit hl h
    obtain ⟨ls, hls, rfl⟩ := ofType_struct_eq_ok.mp hl
    have hend := le_alignUp (endOffset packed 0 ls) (if packed then 1 else maxAlign ls)
    rw [sizeIn, sizesIn_eq fields hls (Bool.and_eq_true_iff.mp h).2, Option.bind_eq_bind,
      Option.bind_some, endIn_eq (Nat.lt_of_le_of_lt hend hsize)]
    exact Build.word_of_lt hsize
  | .function ret params varargs, l, hl, h => by
    simp only [ofType, bind_eq_ok, pure_eq_ok] at hl
    obtain ⟨ps, hps, r, hr, rfl⟩ := hl
    obtain ⟨hparams, hret⟩ := Bool.and_eq_true_iff.mp h
    rw [sizeIn, sizesIn_eq params hps hparams, sizeIn_eq ret hr hret]
    rfl
  | .int bits, l, hl, _ => by
    rcases ofLeaf_int hl with ⟨-, rfl⟩ | ⟨-, rfl⟩
    · rfl
    · rfl
  | .void, l, hl, _ | .float, l, hl, _ | .double, l, hl, _ | .ptr, l, hl, _ => by
    cases hl
    rfl
  | .half, l, hl, _ | .x86Fp80, l, hl, _ | .fp128, l, hl, _ | .label, l, hl, _
  | .metadata, l, hl, _ => by cases hl

theorem sizesIn_eq : (tys : List Ty) → {ls : List Layout} → ofTypes limit tys = .ok ls →
    allSizesFit limit tys = true → sizesIn b ls = some (ls.map size)
  | [], ls, hls, _ => by
    cases hls
    rfl
  | ty :: tys, ls, hls, h => by
    obtain ⟨l, ls, hl, htail, rfl⟩ := ofTypes_cons_eq_ok.mp hls
    obtain ⟨hty, htys⟩ := Bool.and_eq_true_iff.mp h
    rw [sizesIn, sizeIn_eq ty hl hty, sizesIn_eq tys htail htys]
    rfl

end

end

/-! ## Places -/

/-- Why globals are not laid out to the end. -/
inductive Stop where
  | refused (e : Failure)
  /-- An index, a length or a number is out of range, at a global with this name. -/
  | outOfRange (name : String)

/-- The failure that a stop is reported as. -/
def Stop.failure : Stop → Failure
  | refused e => e
  | outOfRange name => .noByte name

/-- A number that a program computes for a global, unless it stops. -/
def orStop (name : String) : Option Nat → Except Stop Nat
  | some n => .ok n
  | none => .error (.outOfRange name)

/-- Give every global its address, from `cursor` on, as a program does. -/
def placeIn (b : Build) (limit : Nat) (constName : GlobalId → String) :
    Nat → List Global → Except Stop (List Entry × Nat)
  | cursor, [] => return ([], cursor)
  | cursor, g :: gs =>
    match ofType limit g.ty with
    | .error e => .error (.refused (.unsupportedType e))
    | .ok l => do
      let size ← orStop g.name (l.sizeIn b)
      let address ← orStop g.name (b.word (alignUp cursor (alignment g l)))
      let next ← orStop g.name (b.word (address + size))
      let (entries, stop) ← placeIn b limit constName next gs
      return (⟨g.id, constName g.id, address, size⟩ :: entries, stop)

/-- The sizes of globals and their parts are words, and so is the end of each one, up to a global
whose type has no layout. -/
def placesFit (limit : Nat) : Nat → List Global → Bool
  | _, [] => true
  | cursor, g :: gs => sizesFit limit g.ty &&
    match ofType limit g.ty with
    | .error _ => true
    | .ok l =>
      let next := alignUp cursor (alignment g l) + l.size
      decide (next < twoPow 64) && placesFit limit next gs

/-- Places that fit are the same in words. -/
theorem placeIn_eq {b : Build} {limit cursor : Nat} {constName : GlobalId → String}
    {globals : List Global} (h : placesFit limit cursor globals = true) :
    placeIn b limit constName cursor globals =
      (place limit constName cursor globals).mapError .refused := by
  induction globals generalizing cursor with
  | nil => rfl
  | cons g gs ih =>
    obtain ⟨hsizes, h⟩ := Bool.and_eq_true_iff.mp h
    rw [placeIn, place]
    cases hl : ofType limit g.ty with
    | error e => rfl
    | ok l =>
      simp only [hl, Bool.and_eq_true, decide_eq_true_eq] at h
      have haddress : alignUp cursor (alignment g l) < twoPow 64 := by omega
      simp only [sizeIn_eq g.ty hl hsizes, Build.word_of_lt haddress, Build.word_of_lt h.1, orStop,
        ok_bind, ih h.2]
      rw [mapError_bind]
      rfl

end Layout

end SafeIR
