import Mathlib.Data.List.Nodup
import SafeIR.Proofs.Layout.InPlace
import SafeIR.Proofs.Memory.Regions

/-!
# What a program finds in its globals

The image of the globals and the memory that starts with it, seen from a running program: a typed
load at the natural offset of a scalar gives the constant that the initializer has there.

Globals are laid out behind one another (`spaced_place`) and filled in turn (`allPlaced_of_fill`),
like the fields of a structure, so all of them are in place in the image. From there it is one step
to the loads: the memory holds the image behind its guard (`load_eq`).
-/

namespace SafeIR.Layout

open IR (Ty Constant Global GlobalId)
open Image (Covered find? place fill ofGlobals slot)

/-! ## Loads -/

/-- The typed load of a scalar, as bits. -/
def load (m : Memory) : (s : Scalar) → (addr : UInt64) → Except Trap (BitVec s.bits)
  | .bool, addr => return BitVec.ofBool (← m.loadBool addr)
  | .int bits, addr => return (← m.loadWord (Scalar.int bits).bytes addr).setWidth bits
  | .f32, addr => m.loadWord 4 addr
  | .f64, addr | .ptr, addr => m.loadWord 8 addr

theorem setWidth_ofNat_toNat {n k : Nat} (h : n ≤ k) (w : BitVec n) :
    (BitVec.ofNat k w.toNat).setWidth n = w := by
  rw [BitVec.ofNat_toNat, BitVec.setWidth_setWidth_of_le w h, BitVec.setWidth_eq]

/-- A load gives the word whose bytes stand at its address. -/
theorem load_eq {m : Memory} {s : Scalar} {a : Nat} {w : BitVec s.bits} (ha : a < twoPow 64)
    (hguard : nullGuard ≤ a) (hfits : a + s.bytes ≤ m.size)
    (hbytes : ∀ i < s.bytes, m.byte? (a + i) = (Bytes.ofNat s.bytes w.toNat)[i]?) :
    load m s (UInt64.ofNat a) = .ok w := by
  have hnat : (UInt64.ofNat a).toNat = a := Nat.mod_eq_of_lt ha
  have hlen := Bytes.length_ofNat s.bytes w.toNat
  have hslice : m.slice a s.bytes = Bytes.ofNat s.bytes w.toNat := by
    have h := Memory.slice_eq (by rwa [hlen]) (by rwa [hlen])
    rwa [hlen] at h
  have hcheck : m.check (UInt64.ofNat a).toNat s.bytes = .ok () :=
    Memory.check_eq_ok.mpr (by rw [hnat]; exact ⟨hguard, hfits⟩)
  have hlt : w.toNat < twoPow (8 * s.bytes) := by
    refine Nat.lt_of_lt_of_le w.isLt (Nat.pow_le_pow_right Nat.two_pos ?_)
    rw [Scalar.bytes]
    omega
  have hword : m.loadWord s.bytes (UInt64.ofNat a) = .ok (BitVec.ofNat _ w.toNat) := by
    rw [Memory.loadWord, hcheck, hnat, hslice, Bytes.toNat_ofNat, Nat.mod_eq_of_lt hlt]
    rfl
  cases s with
  | bool =>
    have hbool : ∀ w : BitVec 1, BitVec.ofBool ((BitVec.ofNat 8 w.toNat).getLsbD 0) = w := by decide
    simp only [load, Memory.loadBool]
    rw [show m.loadWord 1 _ = _ from hword]
    exact congrArg Except.ok (hbool w)
  | int bits =>
    have hle : bits ≤ 8 * (Scalar.int bits).bytes := by
      show bits ≤ 8 * ((bits + 7) / 8)
      omega
    simp only [load]
    rw [hword]
    exact congrArg Except.ok (setWidth_ofNat_toNat hle w)
  | f32 | f64 | ptr =>
    refine hword.trans (congrArg Except.ok ?_)
    exact (BitVec.ofNat_toNat _ w).trans (BitVec.setWidth_eq w)

/-! ## Places of globals -/

/-- What a global starts with. One that is defined elsewhere starts with zeros. -/
def initial (g : Global) : Ty × Constant := (g.ty, g.initializer.getD .zero)

theorem map_fst_initial (globals : List Global) :
    (globals.map initial).map Prod.fst = globals.map Global.ty := by
  rw [List.map_map]
  rfl

/-- Globals lie behind one another, each in the size of its type. -/
theorem spaced_place {limit : Nat} {constName : GlobalId → String} {cursor : Nat}
    {globals : List Global} {entries : List Entry} {stop : Nat}
    (h : place limit constName cursor globals = .ok (entries, stop)) (hguard : nullGuard ≤ cursor) :
    (∀ e ∈ entries, nullGuard ≤ e.address) ∧
    ∃ ls, ofTypes limit (globals.map Global.ty) = .ok ls ∧
      Spaced (cursor - nullGuard) (entries.map fun e => (slot e).start) ls (stop - nullGuard) := by
  induction globals generalizing cursor entries with
  | nil =>
    cases h
    exact ⟨by simp, [], rfl, .nil (Nat.le_refl _)⟩
  | cons g gs ih =>
    rw [place] at h
    split at h
    · cases h
    next layout hlayout =>
      simp only [bind_eq_ok, pure_eq_ok] at h
      obtain ⟨⟨es, stop'⟩, hes, h⟩ := h
      cases h
      have hle := le_alignUp cursor (max (max (g.align.getD 1) layout.align) 1)
      obtain ⟨hguards, ls, hls, hspaced⟩ := ih hes (by omega)
      refine ⟨List.forall_mem_cons.mpr ⟨Nat.le_trans hguard hle, hguards⟩, layout :: ls, ?_, ?_⟩
      · rw [List.map_cons, ofTypes, hlayout, hls]
        rfl
      · refine .cons (Nat.sub_le_sub_right hle _) (hspaced.mono ?_)
        simp only [slot]
        omega

theorem find?_of_mem {entries : List Entry} (hids : (entries.map Entry.id).Nodup) {e : Entry}
    (he : e ∈ entries) : find? entries e.id = some e := by
  obtain ⟨found, hfound⟩ := Image.exists_find? (List.mem_map_of_mem he)
  have hid : found.id = e.id := by simpa using List.find?_some hfound
  rw [hfound, List.inj_on_of_nodup_map hids (List.mem_of_find?_eq_some hfound) he hid]

/-- Filling the image brings what the globals start with to their slots, in turn. -/
theorem allPlaced_of_fill {limit : Nat} {entries : List Entry} {globals : List Global}
    {es : List Entry} {ls : List Layout} {bytes bytes' : List UInt8}
    (hfind : List.Forall₂ (fun g e => find? entries g.id = some e) globals es)
    (hls : ofTypes limit (globals.map Global.ty) = .ok ls)
    (h : fill limit entries bytes globals = .ok bytes') :
    AllPlaced limit entries bytes (es.map fun e => (slot e).start) ls (globals.map initial)
      bytes' := by
  induction hfind generalizing ls bytes with
  | nil =>
    cases hls
    cases h
    exact .nil
  | @cons g e gs es he _ ih =>
    obtain ⟨l, ls, hl, htail, rfl⟩ := ofTypes_cons_eq_ok.mp hls
    simp only [fill, hl, he, Option.map_some, Option.getD_some] at h
    rw [List.map_cons, List.map_cons, initial]
    cases hinit : g.initializer with
    | none =>
      rw [hinit] at h
      exact .cons .omitted (ih htail h)
    | some value =>
      simp only [hinit, bind_eq_ok] at h
      obtain ⟨mid, hmid, h⟩ := h
      exact .cons (.written hmid) (ih htail h)

theorem getElem?_of_forall₂ {α β : Type} {R : α → β → Prop} {xs : List α} {ys : List β}
    (h : List.Forall₂ R xs ys) {i : Nat} {x : α} (hx : xs[i]? = some x) :
    ∃ y, ys[i]? = some y ∧ R x y := by
  obtain ⟨hi, rfl⟩ := List.getElem?_eq_some_iff.mp hx
  exact ⟨_, List.getElem?_eq_getElem (h.length_eq ▸ hi), h.get hi _⟩

section

variable {limit : Nat} {constName : GlobalId → String} {globals : List Global} {image : Image}

/-- The parts of an image: entries for the globals in their order, slots behind one another from the
guard to the end, and bytes that come from zeros by filling the slots. -/
theorem exists_allPlaced (hbuild : ofGlobals limit constName globals = .ok image)
    (hids : (globals.map Global.id).Nodup) :
    List.Forall₂ (fun g e => find? image.entries g.id = some e) globals image.entries ∧
    (∀ e ∈ image.entries, nullGuard ≤ e.address) ∧
    ∃ ls, ofTypes limit (globals.map Global.ty) = .ok ls ∧
      Spaced 0 (image.entries.map fun e => (slot e).start) ls image.bytes.length ∧
      AllPlaced limit image.entries (List.replicate image.bytes.length 0)
        (image.entries.map fun e => (slot e).start) ls (globals.map initial) image.bytes := by
  obtain ⟨⟨entries, stop⟩, hplace, hbuild⟩ := bind_eq_ok.mp hbuild
  obtain ⟨bytes, hfill, himage⟩ := bind_eq_ok.mp hbuild
  obtain rfl := pure_eq_ok.mp himage
  have hmap := Image.map_id_place hplace
  have hfind : List.Forall₂ (fun g e => find? entries g.id = some e) globals entries := by
    refine List.forall₂_iff_get.mpr ⟨by simpa using congrArg List.length hmap.symm, ?_⟩
    intro i hg he
    have hid : globals[i].id = entries[i].id := by
      have h := congrArg (·[i]?) hmap
      simpa [hg, he] using h.symm
    show find? entries globals[i].id = some entries[i]
    rw [hid]
    exact find?_of_mem (hmap ▸ hids) (List.getElem_mem he)
  have hlen : bytes.length = stop - nullGuard := by
    rw [Image.length_fill hfill, List.length_replicate]
  obtain ⟨hguards, ls, hls, hspaced⟩ := spaced_place hplace (Nat.le_refl _)
  rw [Nat.sub_self, ← hlen] at hspaced
  rw [← hlen] at hfill
  exact ⟨hfind, hguards, ls, hls, hspaced, allPlaced_of_fill hfind hls hfill⟩

/-- A global that lands is in place in the image if all keep to their slots. -/
theorem image_shows_at (hbuild : ofGlobals limit constName globals = .ok image)
    (hids : (globals.map Global.id).Nodup)
    (hkeeps : ∀ g ∈ globals, Keeps limit image.entries (initial g).1 (initial g).2) {i : Nat}
    {g : Global} (hg : globals[i]? = some g)
    (hlands : Lands limit image.entries (initial g).1 (initial g).2) :
    ∃ e l, image.entries[i]? = some e ∧ find? image.entries g.id = some e ∧
      nullGuard ≤ e.address ∧ ofType limit g.ty = .ok l ∧
      (slot e).start + l.size ≤ image.bytes.length ∧
      Shows image.entries image.bytes ⟨(slot e).start, l.size⟩ g.ty (initial g).2 := by
  obtain ⟨hfind, hguards, ls, hls, hspaced, hplaced⟩ := exists_allPlaced hbuild hids
  have hmapM := hls
  rw [ofTypes_eq_mapM] at hmapM
  obtain ⟨e, he, hfound⟩ := getElem?_of_forall₂ hfind hg
  obtain ⟨l, hl, hlayout⟩ := getElem?_of_mapM_left hmapM
    (show (globals.map Global.ty)[i]? = some g.ty by rw [List.getElem?_map, hg]; rfl)
  have hp : (image.entries.map fun e => (slot e).start)[i]? = some (slot e).start := by
    rw [List.getElem?_map, he]
    rfl
  have hc : (globals.map initial)[i]? = some (initial g) := by
    rw [List.getElem?_map, hg]
    rfl
  refine ⟨e, l, he, hfound, hguards e (List.mem_of_getElem? he), hlayout,
    (hspaced.bounds hp hl).2, ?_⟩
  refine hplaced.shows (map_fst_initial globals ▸ hls) (List.forall_mem_map.mpr hkeeps) hspaced
    (fun q _ hq => ?_) hp hl hc hlands
  rw [List.getElem?_replicate, if_pos hq]

/-- The globals of an image are in place, and what is in no slot is zero. -/
theorem image_shows (hbuild : ofGlobals limit constName globals = .ok image)
    (hids : (globals.map Global.id).Nodup)
    (htyped : ∀ g ∈ globals, WellTyped (initial g).1 (initial g).2) :
    (∀ g ∈ globals, ∃ e l, find? image.entries g.id = some e ∧ nullGuard ≤ e.address ∧
      ofType limit g.ty = .ok l ∧ (slot e).start + l.size ≤ image.bytes.length ∧
      Shows image.entries image.bytes ⟨(slot e).start, l.size⟩ g.ty (initial g).2) ∧
    ∀ q < image.bytes.length,
      (∀ g ∈ globals, ∀ e l, find? image.entries g.id = some e → ofType limit g.ty = .ok l →
        q ∉ Span.mk (slot e).start l.size) → image.bytes[q]? = some 0 := by
  have hkeeps : ∀ g ∈ globals, Keeps limit image.entries (initial g).1 (initial g).2 :=
    fun g hg => (htyped g hg).keeps
  constructor
  · intro g hg
    obtain ⟨i, hi⟩ := List.mem_iff_getElem?.mp hg
    obtain ⟨e, l, -, hrest⟩ := image_shows_at hbuild hids hkeeps hi (htyped g hg).lands
    exact ⟨e, l, hrest⟩
  · intro q hq hout
    obtain ⟨hfind, -, ls, hls, -, hplaced⟩ := exists_allPlaced hbuild hids
    have hmapM := hls
    rw [ofTypes_eq_mapM] at hmapM
    rw [hplaced.frame (map_fst_initial globals ▸ hls) (List.forall_mem_map.mpr hkeeps)
      fun hcov => ?_, List.getElem?_replicate, if_pos hq]
    obtain ⟨i, p, l, hp, hl, hmem⟩ := covered_places_iff.mp hcov
    rw [List.getElem?_map, Option.map_eq_some_iff] at hp
    obtain ⟨e, he, rfl⟩ := hp
    obtain ⟨ty, hty, hlayout⟩ := getElem?_of_mapM hmapM hl
    rw [List.getElem?_map, Option.map_eq_some_iff] at hty
    obtain ⟨g, hg, rfl⟩ := hty
    obtain ⟨e', he', hfound⟩ := getElem?_of_forall₂ hfind hg
    cases he.symm.trans he'
    exact hout g (List.mem_of_getElem? hg) e l hfound hlayout hmem

/-! ## The memory of a program -/

/-- What stands behind the guard of a memory is the image it starts with. -/
theorem byte?_withGlobals {bytes : List UInt8} {q : Nat} (hq : q < bytes.length) :
    (Memory.withGlobals bytes).byte? (nullGuard + q) = bytes[q]? := by
  have hsize := Memory.size_withConfig bytes {}
  have hle := le_alignUp (nullGuard + bytes.length) 16
  rw [Memory.withGlobals, Memory.byte?_withConfig bytes {} (Nat.le_add_right ..) (by omega),
    if_pos (by omega), Nat.add_sub_cancel_left]

theorem length_le_size_withGlobals (bytes : List UInt8) :
    nullGuard + bytes.length ≤ (Memory.withGlobals bytes).size := by
  have hle := le_alignUp (nullGuard + bytes.length) 16
  rw [Memory.withGlobals, Memory.size_withConfig]
  omega

/-- In the memory that starts with the image of well-typed globals, a typed load of every scalar of
every global, at its natural offset, gives the word that its constant is: wrapped to the width, the
address of another global, or zero. The bytes that belong to no scalar are zero. -/
theorem loads_give_initial_constants (hbuild : ofGlobals limit constName globals = .ok image)
    (hids : (globals.map Global.id).Nodup)
    (htyped : ∀ g ∈ globals, ∀ value, g.initializer = some value → WellTyped g.ty value)
    (hfits : nullGuard + image.bytes.length ≤ twoPow 64) :
    (∀ g ∈ globals, ∃ e, find? image.entries g.id = some e ∧
      (∀ o s v, Leaf g.ty (g.initializer.getD .zero) o s v →
        ∃ w, word? image.entries s.bits v = some w ∧
          load (Memory.withGlobals image.bytes) s (UInt64.ofNat (e.address + o)) = .ok w) ∧
      ∀ o s v, Leaf g.ty .zero o s v → ∃ v', Leaf g.ty (g.initializer.getD .zero) o s v') ∧
    ∀ q < image.bytes.length,
      (∀ g ∈ globals, ∀ e, find? image.entries g.id = some e → ∀ o s v,
        Leaf g.ty (g.initializer.getD .zero) o s v →
        nullGuard + q ∉ Span.mk (e.address + o) s.bytes) →
      image.bytes[q]? = some 0 := by
  have hinitial : ∀ g ∈ globals, WellTyped g.ty (g.initializer.getD .zero) := by
    intro g hg
    cases hinit : g.initializer with
    | none => exact .zero
    | some value => exact htyped g hg value hinit
  obtain ⟨hshows, hrest⟩ := image_shows hbuild hids hinitial
  have hsize := length_le_size_withGlobals image.bytes
  refine ⟨fun g hg => ?_, fun q hq hout => ?_⟩
  · obtain ⟨e, l, hfound, hguard, hl, hbound, hshow⟩ := hshows g hg
    refine ⟨e, hfound, fun o s v hleaf => ?_, fun o s v hleaf => (hinitial g hg).exists_leaf hleaf⟩
    obtain ⟨w, hw, hbytes⟩ := hshow.leaf hleaf
    obtain ⟨hle, hpos⟩ := hleaf.le_size hl
    have hstart : (slot e).start = e.address - nullGuard := rfl
    refine ⟨w, hw, load_eq (by omega) (by omega) (by omega) fun i hi => ?_⟩
    -- The address lies behind the guard by the position in the image.
    have haddr : e.address + o + i = nullGuard + ((slot e).start + o + i) := by omega
    rw [haddr, byte?_withGlobals (by omega)]
    exact hbytes i hi
  · by_cases hin : ∃ g ∈ globals, ∃ e l, find? image.entries g.id = some e ∧
        ofType limit g.ty = .ok l ∧ q ∈ Span.mk (slot e).start l.size
    · -- A byte of a slot that is in no scalar is padding.
      obtain ⟨g, hg, e, l, hfound, hl, hmem⟩ := hin
      obtain ⟨e', l', hfound', hguard, hl', -, hshow⟩ := hshows g hg
      cases hfound.symm.trans hfound'
      cases hl.symm.trans hl'
      have hstart : (slot e).start = e.address - nullGuard := rfl
      refine hshow.rest hmem fun o s v hleaf hq' => hout g hg e hfound o s v hleaf ?_
      rw [Span.mem_iff] at hq' ⊢
      simp only at hq' ⊢
      omega
    · refine hrest q hq fun g hg e l hfound hl hmem => ?_
      exact hin ⟨g, hg, e, l, hfound, hl, hmem⟩

end

/-- A packed pair of a byte and an address. -/
def pairTy : Ty := .struct true [.int 8, .ptr]

/-- A structure with padding that holds such pairs and refers forward, a string, and a bit that is
defined elsewhere. -/
def nestedGlobals : List Global :=
  [⟨⟨0⟩, "s", .struct false [.int 1, .double, .array 2 pairTy], false,
      some (.struct [(.int 1, .bool true), (.double, .float 4607182418800017408),
        (.array 2 pairTy, .array [(pairTy, .struct [(.int 8, .int 300), (.ptr, .global ⟨1⟩)]),
          (pairTy, .zero)])]), none⟩,
    ⟨⟨1⟩, "t", .array 3 (.int 8), true, some (.bytes [104, 105, 0]), some 4⟩,
    ⟨⟨2⟩, "b", .int 1, false, none, none⟩]

theorem nestedGlobals_wellTyped :
    ∀ g ∈ nestedGlobals, ∀ value, g.initializer = some value → WellTyped g.ty value := by
  intro g hg value hvalue
  simp only [nestedGlobals, List.mem_cons, List.not_mem_nil, or_false] at hg
  rcases hg with rfl | rfl | rfl <;> cases hvalue
  · have hpair : WellTyped pairTy (.struct [(.int 8, .int 300), (.ptr, .global ⟨1⟩)]) :=
      .struct rfl (by simpa using ⟨.int, .global⟩)
    have hpairs : WellTyped (.array 2 pairTy)
        (.array [(pairTy, .struct [(.int 8, .int 300), (.ptr, .global ⟨1⟩)]), (pairTy, .zero)]) :=
      .array rfl (by simp) (by simpa using ⟨hpair, .zero⟩)
    exact .struct rfl (by simpa using ⟨.bool, .double, hpairs⟩)
  · exact .bytes rfl

/-- Each leaf of the record is loaded with the width of its own type. -/
theorem loads_give_nested_constants :
    ∃ image, ofGlobals 64 GlobalId.text nestedGlobals = .ok image ∧
      load (Memory.withGlobals image.bytes) .bool 64 = .ok 1 ∧
      load (Memory.withGlobals image.bytes) (.int 8) 80 = .ok 44 ∧
      load (Memory.withGlobals image.bytes) .ptr 81 = .ok 104 ∧
      load (Memory.withGlobals image.bytes) .ptr 90 = .ok 0 ∧
      load (Memory.withGlobals image.bytes) (.int 8) 105 = .ok 105 := by
  refine ⟨_, rfl, ?_⟩
  have hmain := (@loads_give_initial_constants 64 GlobalId.text nestedGlobals _ rfl (by decide)
    nestedGlobals_wellTyped (by decide)).1
  obtain ⟨_, he, hstruct, -⟩ := hmain _ (.head _)
  cases he
  obtain ⟨_, he, hstring, -⟩ := hmain _ (.tail _ (.head _))
  cases he
  -- The pairs lie nine bytes apart, from the offset 16 on, without padding.
  have hpair : ∀ {c v : Constant} {o : Nat} {s : Scalar},
      PartLeaf [.int 8, .ptr] [0, 1] c o s v → Leaf pairTy c o s v :=
    (leaf_struct_iff (show ofTypes 64 [.int 8, .ptr] = .ok _ from rfl) :
      Leaf pairTy _ _ _ _ ↔ _).mpr
  have hpairs : ∀ {c v : Constant} {o : Nat} {s : Scalar},
      PartLeaf [pairTy, pairTy] [0, 9] c o s v → Leaf (.array 2 pairTy) c o s v :=
    (leaf_array_iff (show ofType 64 pairTy = .ok _ from rfl) :
      Leaf (.array 2 pairTy) _ _ _ _ ↔ _).mpr
  have hfields : ∀ {c v : Constant} {o : Nat} {s : Scalar},
      PartLeaf [.int 1, .double, .array 2 pairTy] [0, 8, 16] c o s v →
      Leaf (.struct false [.int 1, .double, .array 2 pairTy]) c o s v :=
    (leaf_struct_iff (show ofTypes 64 [.int 1, .double, .array 2 pairTy] = .ok _ from rfl) :
      Leaf (.struct false _) _ _ _ _ ↔ _).mpr
  have hbytes : ∀ {c v : Constant} {o : Nat} {s : Scalar},
      PartLeaf [.int 8, .int 8, .int 8] [0, 1, 2] c o s v → Leaf (.array 3 (.int 8)) c o s v :=
    (leaf_array_iff (show ofType 64 (.int 8) = .ok _ from rfl) :
      Leaf (.array 3 (.int 8)) _ _ _ _ ↔ _).mpr
  refine ⟨?_, ?_, ?_, ?_, ?_⟩
  · obtain ⟨w, hw, hload⟩ := hstruct 0 .bool (.bool true)
      (hfields ⟨0, _, _, _, 0, rfl, rfl, rfl, .scalar rfl, rfl⟩)
    cases hw
    exact hload
  · obtain ⟨w, hw, hload⟩ := hstruct 16 (.int 8) (.int 300)
      (hfields ⟨2, _, _, _, 0, rfl, rfl, rfl, hpairs ⟨0, _, _, _, 0, rfl, rfl, rfl,
        hpair ⟨0, _, _, _, 0, rfl, rfl, rfl, .scalar rfl, rfl⟩, rfl⟩, rfl⟩)
    cases hw
    exact hload
  · obtain ⟨w, hw, hload⟩ := hstruct 17 .ptr (.global ⟨1⟩)
      (hfields ⟨2, _, _, _, 1, rfl, rfl, rfl, hpairs ⟨0, _, _, _, 1, rfl, rfl, rfl,
        hpair ⟨1, _, _, _, 0, rfl, rfl, rfl, .scalar rfl, rfl⟩, rfl⟩, rfl⟩)
    cases hw
    exact hload
  · obtain ⟨w, hw, hload⟩ := hstruct 26 .ptr .zero
      (hfields ⟨2, _, _, _, 10, rfl, rfl, rfl, hpairs ⟨1, _, _, _, 1, rfl, rfl, rfl,
        hpair ⟨1, _, _, _, 0, rfl, rfl, rfl, .scalar rfl, rfl⟩, rfl⟩, rfl⟩)
    cases hw
    exact hload
  · obtain ⟨w, hw, hload⟩ := hstring 1 (.int 8) (.int 105)
      (hbytes ⟨1, _, _, _, 0, rfl, rfl, rfl, .scalar rfl, rfl⟩)
    cases hw
    exact hload

end SafeIR.Layout
