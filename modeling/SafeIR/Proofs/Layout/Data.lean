import SafeIR.Library.Read
import SafeIR.Proofs.Layout.Place

/-!
# Constant data

The bytes of a global can be asked for as soon as its module is open. They are flattened from the
initializer as it is spelled, by the width that its type is spelled with. The image is made later,
from resolved types, with the strides of layouts. Both are the same: an array of numbers has its
elements behind one another without gaps, and every initializer that conforms to its type keeps to
its own slot, so that nothing is written over the data.
-/

namespace SafeIR.Layout

open IR (Ty Constant Global GlobalId Scope)
open Image (ofGlobals slot)

variable {vs : List Int} {bytes data : List UInt8}

/-! ## Conforming constants -/

/-- A constant that has no parts of its own. -/
def Whole : Constant → Prop
  | .bytes _ | .array _ | .struct _ => False
  | _ => True

/-- The parts of a constant carry the types that the declaration has for them, and strings and
arrays have the declared length. What stands at a place without parts is not looked at. -/
inductive Conforms : Ty → Constant → Prop where
  | whole {ty : Ty} {c : Constant} (hc : Whole c) : Conforms ty c
  | bytes {len : Nat} {data : List UInt8} (hlen : data.length = len) :
      Conforms (.array len (.int 8)) (.bytes data)
  | array {len : Nat} {elem : Ty} {items : List (Ty × Constant)} (hlen : items.length = len)
      (helem : ∀ item ∈ items, item.1 = elem) (hitems : ∀ item ∈ items, Conforms item.1 item.2) :
      Conforms (.array len elem) (.array items)
  | struct {packed : Bool} {fields : List Ty} {items : List (Ty × Constant)}
      (hfields : items.map Prod.fst = fields) (hitems : ∀ item ∈ items, Conforms item.1 item.2) :
      Conforms (.struct packed fields) (.struct items)

section

variable {limit : Nat} {entries : List Entry} {name : String} {ty : Ty} {c : Constant}

theorem encode_of_piece (hc : Whole c ∨ ∃ data, c = .bytes data) {l : Layout} {p : Nat} :
    Image.encode limit entries name ty l p bytes c = if bytes.length < p + l.size then
        .error (.unsupportedConstruct (.overrun ty) (.initializer name))
      else return Image.overwrite bytes p (← Image.leaf? entries ty l name c) := by
  cases c with
  | array | struct =>
    obtain hc | ⟨data, hc⟩ := hc
    · exact hc.elim
    · cases hc
  | _ => simp only [Image.encode]

/-- What is written in one piece is no longer than its place. -/
theorem keeps_of_piece (hc : Whole c ∨ ∃ data, c = .bytes data) : Keeps limit entries ty c := by
  intro name l p bytes bytes' _ hencode q hq
  rw [encode_of_piece hc, ite_error_eq_ok, Nat.not_lt, bind_eq_ok] at hencode
  obtain ⟨hfits, data, hdata, hencode⟩ := hencode
  obtain rfl := pure_eq_ok.mp hencode
  obtain ⟨hlen, hle⟩ := Image.length_leaf? hdata
  rw [Image.getElem?_overwrite (by omega), if_neg]
  intro hmem
  rw [Span.mem_iff] at hmem hq
  simp only at hmem hq
  omega

/-- A conforming constant keeps to its place, whatever it is made of. -/
theorem Conforms.keeps (h : Conforms ty c) : Keeps limit entries ty c := by
  induction h with
  | whole hc => exact keeps_of_piece (.inl hc)
  | bytes => exact keeps_of_piece (.inr ⟨_, rfl⟩)
  | @array len elem items hlen helem _ ih =>
    intro name l p bytes bytes' hl hencode q hq
    obtain ⟨e, he, rfl⟩ := ofType_array_eq_ok.mp hl
    rw [Image.encode, ite_error_eq_ok] at hencode
    have hls := ofTypes_elements he helem
    have hspaced := spaced_elements p e items.length
    have hplaced := allPlaced_of_encodeItems hls hspaced.length_eq hencode.2
    -- What lies outside of the array lies outside of all its elements.
    refine hplaced.frame hls ih fun hcov => hq ?_
    obtain ⟨hlow, hhigh⟩ := hspaced.bounds_of_covered hcov
    rw [Span.mem_iff, size, ← hlen, Nat.mul_comm]
    exact ⟨hlow, hhigh⟩
  | @struct packed fields items hfields _ ih =>
    intro name l p bytes bytes' hl hencode q hq
    obtain ⟨ls, hls, rfl⟩ := ofType_struct_eq_ok.mp hl
    rw [Image.encode, ite_error_eq_ok] at hencode
    have hspaced := spaced_offsets p packed 0 ls
    have hplaced := allPlaced_of_encodeItems (hfields ▸ hls) hspaced.length_eq hencode.2
    refine hplaced.frame (hfields ▸ hls) ih fun hcov => hq ?_
    obtain ⟨hlow, hhigh⟩ := hspaced.bounds_of_covered hcov
    have hsize := le_alignUp (endOffset packed 0 ls) (if packed then 1 else maxAlign ls)
    exact ⟨hlow, Nat.lt_of_lt_of_le hhigh (Nat.add_le_add_left hsize p)⟩

end

/-! ## Arrays of numbers -/

/-- The parts of a constant are these numbers. -/
def Numbers (c : Constant) (vs : List Int) : Prop := ∀ i, part? c i = vs[i]?.map .int

theorem numbers_bytes (data : List UInt8) :
    Numbers (.bytes data) (data.map fun b => (b.toNat : Int)) := by
  intro i
  rw [part?, List.getElem?_map, Option.map_map]
  rfl

theorem numbers_array {items : List (Ty × Constant)} (h : items.map Prod.snd = vs.map .int) :
    Numbers (.array items) vs := by
  intro i
  rw [part?, ← List.getElem?_map, h, List.getElem?_map]

theorem flatMap_ofInt_one (data : List UInt8) :
    (data.map fun b => (b.toNat : Int)).flatMap (Bytes.ofInt 1) = data := by
  have hbyte : ∀ b : UInt8, Bytes.ofInt 1 (b.toNat : Int) = [b] := by
    intro b
    rw [ofInt_eq 1 _ rfl]
    exact congrArg (fun b => [b]) (ofNat_byte b).symm
  induction data with
  | nil => rfl
  | cons b data ih => rw [List.map_cons, List.flatMap_cons, hbyte, ih, List.singleton_append]

/-- Numbers whose bytes stand behind one another. -/
theorem take_drop_eq_flatMap {n : Nat} {start : Nat}
    (h : ∀ i v, vs[i]? = some v → ∀ k < n, bytes[start + i * n + k]? = (Bytes.ofInt n v)[k]?) :
    (bytes.drop start).take (vs.length * n) = vs.flatMap (Bytes.ofInt n) := by
  induction vs generalizing start with
  | nil => simp
  | cons v vs ih =>
    have hlen : (Bytes.ofInt n v).length = n := Bytes.length_ofNat ..
    have hhead : (bytes.drop start).take n = Bytes.ofInt n v := by
      refine List.ext_getElem? fun k => ?_
      by_cases hk : k < n
      · have hbyte := h 0 v rfl k hk
        rw [Nat.zero_mul, Nat.add_zero] at hbyte
        rw [List.getElem?_take_of_lt hk, List.getElem?_drop, hbyte]
      · rw [List.getElem?_eq_none (by rw [List.length_take]; omega),
          List.getElem?_eq_none (by omega)]
    have htail : (bytes.drop (start + n)).take (vs.length * n) = vs.flatMap (Bytes.ofInt n) := by
      refine ih fun i v hv k hk => ?_
      have hbyte := h (i + 1) v hv k hk
      rw [Nat.succ_mul] at hbyte
      rw [← hbyte]
      congr 1
      omega
    rw [List.length_cons, Nat.succ_mul, Nat.add_comm, List.take_add, List.flatMap_cons, hhead,
      List.drop_drop, htail]

/-- An array of numbers in place is their bytes, one number behind the other. -/
theorem Shows.take_eq {limit len bits : Nat} {entries : List Entry} {p : Nat} {l : Layout}
    {c : Constant} (hl : ofType limit (.array len (.int bits)) = .ok l) (hbits : bits ≠ 1)
    (h : Shows entries bytes ⟨p, l.size⟩ (.array len (.int bits)) c) (hvs : Numbers c vs)
    (hlen : vs.length = len) :
    (bytes.drop p).take l.size = vs.flatMap (Bytes.ofInt (bits / 8)) := by
  obtain ⟨e, he, rfl⟩ := ofType_array_eq_ok.mp hl
  obtain ⟨hone, -⟩ | ⟨hcommon, rfl⟩ := ofLeaf_int he
  · exact absurd hone hbits
  -- All common widths are whole numbers of bytes, and their strides are those numbers.
  obtain ⟨n, hn, hstride, hbytes⟩ :
      ∃ n, bits = 8 * n ∧ (int bits).stride = n ∧ (Scalar.int bits).bytes = n :=
    ⟨bits / 8, (by decide : ∀ b ∈ [8, 16, 32, 64, 128], b = 8 * (b / 8) ∧
      (int b).stride = b / 8 ∧ (Scalar.int b).bytes = b / 8) bits hcommon⟩
  subst hn
  have hsize : (array (int (8 * n)) len).size = vs.length * n := by
    show (int (8 * n)).stride * len = _
    rw [hstride, hlen, Nat.mul_comm]
  rw [hsize, Nat.mul_div_cancel_left n (by decide)]
  refine take_drop_eq_flatMap fun i v hv k hk => ?_
  have hi : i < len := hlen ▸ (List.getElem?_eq_some_iff.mp hv).1
  have hleaf : Leaf (.array len (.int (8 * n))) c (i * n + 0) (.int (8 * n)) (.int v) := by
    refine (leaf_array_iff he).mpr ⟨i, .int (8 * n), i * n, .int v, 0, ?_, ?_, ?_, .scalar ?_, rfl⟩
    · rw [List.getElem?_replicate, if_pos hi]
    · rw [List.getElem?_map, List.getElem?_range hi, hstride]
      rfl
    · rw [hvs, hv]
      rfl
    · rw [scalarOf?, if_neg hbits]
  obtain ⟨w, hw, hshow⟩ := h.leaf hleaf
  cases hw
  rw [hbytes] at hshow
  rw [ofInt_eq n v rfl]
  exact hshow k hk

/-! ## From spelling to image -/

/-- The items that are flattened are numbers. -/
theorem exists_numbers {n : Nat} {f : Source.Operand → Option (List UInt8)}
    (hf : ∀ item chunk, f item = some chunk → ∃ v, item.2 = .int v ∧ chunk = Bytes.ofInt n v)
    {items : List Source.Operand} {chunks : List (List UInt8)} (h : items.mapM f = some chunks) :
    ∃ vs : List Int, items.map Prod.snd = vs.map .int ∧ chunks = vs.map (Bytes.ofInt n) := by
  induction items generalizing chunks with
  | nil =>
    cases h
    exact ⟨[], rfl, rfl⟩
  | cons item items ih =>
    rw [List.mapM_cons] at h
    obtain ⟨chunk, hchunk, h⟩ := Option.bind_eq_some_iff.mp h
    obtain ⟨rest, hrest, h⟩ := Option.bind_eq_some_iff.mp h
    cases h
    obtain ⟨v, hv, rfl⟩ := hf item chunk hchunk
    obtain ⟨vs, hvs, rfl⟩ := ih hrest
    exact ⟨v :: vs, by rw [List.map_cons, hv, hvs, List.map_cons], rfl⟩

/-- Data is a string, or an array of numbers of a width. -/
theorem data?_cases {g : Source.Global} (h : g.data? = some data) :
    g.initializer = some (.bytes data) ∨
      ∃ len bits items, ∃ vs : List Int, g.ty = .array len (.int bits) ∧ bits % 8 = 0 ∧
        g.initializer = some (.array items) ∧ items.map Prod.snd = vs.map .int ∧
        data = vs.flatMap (Bytes.ofInt (bits / 8)) := by
  unfold Source.Global.data? at h
  split at h
  next content hinit =>
    cases h
    exact .inl hinit
  next items len bits hinit hty =>
    split at h
    next hwidth =>
      obtain ⟨chunks, hchunks, rfl⟩ := Option.map_eq_some_iff.mp h
      obtain ⟨vs, hvs, rfl⟩ := exists_numbers (n := bits / 8) (fun item chunk hchunk => by
        split at hchunk
        next v hv =>
          cases hchunk
          exact ⟨v, hv, rfl⟩
        next => cases hchunk) hchunks
      exact .inr ⟨len, bits, items, vs, hty, hwidth.1, hinit, hvs, rfl⟩
    next => cases h
  next => cases h

/-- Numbers are read as they are spelled. -/
theorem map_snd_of_constants {s : Scope} {items : List (Source.Ty × Source.Value)}
    {items' : List (Ty × Constant)} (h : s.constants items = .ok items')
    (hvs : items.map Prod.snd = vs.map .int) : items'.map Prod.snd = vs.map .int := by
  induction items generalizing items' vs with
  | nil =>
    cases vs with
    | nil =>
      cases h
      rfl
    | cons => cases hvs
  | cons item items ih =>
    cases vs with
    | nil => cases hvs
    | cons v vs =>
      obtain ⟨t, value⟩ := item
      obtain ⟨hvalue, hrest⟩ := List.cons.inj hvs
      obtain rfl : value = .int v := hvalue
      simp only [Scope.constants, Scope.constant, bind_eq_ok, pure_eq_ok] at h
      obtain ⟨_, -, _, rfl, _, hitems, rfl⟩ := h
      rw [List.map_cons, List.map_cons, ih hitems hrest]

/-- A global with data, when it is read and conforms to its type, is an array of numbers whose bytes
are the data. -/
theorem exists_numbers_of_data? {types : IR.TypeTable} {globals functions : List String}
    {index : Nat} {g : Source.Global} {g' : Global}
    (hread : Global.ofSource types globals functions index g = .ok g') (hdata : g.data? = some data)
    (hconforms : ∀ value, g'.initializer = some value → Conforms g'.ty value) :
    ∃ value len bits, ∃ vs : List Int, g'.initializer = some value ∧
      g'.ty = .array len (.int bits) ∧ bits ≠ 1 ∧ WellTyped (.array len (.int bits)) value ∧
      Numbers value vs ∧ vs.length = len ∧ data = vs.flatMap (Bytes.ofInt (bits / 8)) := by
  simp only [Global.ofSource, bind_eq_ok, pure_eq_ok] at hread
  obtain ⟨ty, hty, initializer, hinit, rfl⟩ := hread
  have hrel := option_mapM_eq_ok.mp hinit
  obtain hbytes | ⟨len, bits, items, vs, hspelled, hbits, harray, hvs, rfl⟩ := data?_cases hdata
  · rw [hbytes] at hrel
    cases hrel with
    | some hvalue =>
      cases hvalue
      -- Only a string that has the declared length is left to conform.
      cases hconforms _ rfl with
      | whole hc => exact hc.elim
      | @bytes len _ hlen =>
        refine ⟨_, len, 8, _, rfl, rfl, by decide, .bytes hlen, numbers_bytes data, ?_, ?_⟩
        · rw [List.length_map, hlen]
        · exact (flatMap_ofInt_one data).symm
  · rw [harray] at hrel
    cases hrel with
    | some hvalue =>
      simp only [Scope.constant, bind_eq_ok, pure_eq_ok] at hvalue
      obtain ⟨items', hitems, rfl⟩ := hvalue
      have hnumbers := map_snd_of_constants hitems hvs
      rw [hspelled] at hty
      simp only [Scope.ty, IR.TypeTable.resolve, IR.TypeTable.resolveWith, bind_eq_ok,
        pure_eq_ok] at hty
      obtain ⟨_, rfl, rfl⟩ := hty
      cases hconforms _ rfl with
      | whole hc => exact hc.elim
      | array hlen helem _ =>
        refine ⟨_, len, bits, vs, rfl, rfl, by omega, .array hlen helem fun item hitem => ?_,
          numbers_array hnumbers, ?_, rfl⟩
        · obtain ⟨v, -, hv⟩ := List.mem_map.mp (hnumbers ▸ List.mem_map_of_mem hitem)
          rw [helem item hitem, ← hv]
          exact .int
        · rw [← hlen, ← List.length_map (f := Prod.snd), hnumbers, List.length_map]

section

variable {types : IR.TypeTable} {names functions : List String} {spelled : List Source.Global}
  {globals : List Global}

/-- Every global is numbered by its index. -/
theorem id_eq_index (h : spelled.zipIdx.mapM (fun x =>
      Global.ofSource types names functions x.2 x.1) = .ok globals) {i : Nat} {g : Global}
    (hg : globals[i]? = some g) : g.id = ⟨i⟩ := by
  obtain ⟨g₀, -, hread⟩ := getElem?_of_mapM_zipIdx h hg
  simp only [Global.ofSource, bind_eq_ok, pure_eq_ok] at hread
  obtain ⟨_, -, _, -, rfl⟩ := hread
  rfl

theorem nodup_ids (h : spelled.zipIdx.mapM (fun x =>
      Global.ofSource types names functions x.2 x.1) = .ok globals) :
    (globals.map Global.id).Nodup := by
  rw [List.nodup_iff_getElem?_ne_getElem?]
  intro i j hij hj heq
  rw [List.length_map] at hj
  have hi : i < globals.length := Nat.lt_trans hij hj
  rw [List.getElem?_map, List.getElem?_map, List.getElem?_eq_getElem hi,
    List.getElem?_eq_getElem hj, Option.map_some, Option.map_some,
    id_eq_index h (List.getElem?_eq_getElem hi), id_eq_index h (List.getElem?_eq_getElem hj)] at heq
  cases heq
  exact absurd hij (Nat.lt_irrefl i)

end

/-- The data that is given out is that of a global of the open module. -/
theorem exists_global_of_query [Demangler] {lib : Library} {h : Handle} {index : Nat}
    (hdata : lib.query h (.constantData index) = .ok (.data (some data))) :
    ∃ s g, lib.find? h = some s ∧ s.globals[index]? = some g ∧ g.data? = some data := by
  obtain ⟨s, hmodule, hquery⟩ := bind_eq_ok.mp hdata
  obtain ⟨g, hglobal, hquery⟩ := bind_eq_ok.mp hquery
  refine ⟨s, g, ?_, ?_, Answer.data.inj (Except.ok.inj hquery)⟩
  · unfold Library.module at hmodule
    split at hmodule
    next hfind =>
      cases hmodule
      exact hfind
    next => cases hmodule
  · unfold Query.globalAt Query.item at hglobal
    split at hglobal
    next hget =>
      cases hglobal
      exact hget
    next => cases hglobal

/-- Where every initializer conforms to its type, and addresses are words, the data of a global is
as long as its slot in the image and is what stands there, whichever widths are admitted. It is also
what a memory that starts with the image has at the address of the global. -/
theorem constant_data_is_image_slot [Demangler] {lib : Library} {h : Handle} {m : IR.Module}
    {limit : Nat} {constName : GlobalId → String} {image : Image} (hread : lib.read h = .ok m)
    (hbuild : ofGlobals limit constName m.globals = .ok image)
    (hfits : nullGuard + image.bytes.length < twoPow 64)
    (hconforms : ∀ g ∈ m.globals, ∀ value, g.initializer = some value → Conforms g.ty value)
    {index : Nat} {data : List UInt8}
    (hdata : lib.query h (.constantData index) = .ok (.data (some data))) :
    ∃ e, image.entries[index]? = some e ∧ e.id = ⟨index⟩ ∧ e.size = data.length ∧
      (image.bytes.drop (slot e).start).take e.size = data ∧
      (Memory.withGlobals image.bytes).read (UInt64.ofNat e.address) (UInt64.ofNat e.size) =
        .ok data := by
  -- The module that is asked is the one that is read, and so is the global.
  obtain ⟨s, g, hopen, hitem, hspelled⟩ := exists_global_of_query hdata
  rw [Library.read, hopen] at hread
  simp only [IR.Module.ofSource, bind_eq_ok, pure_eq_ok] at hread
  obtain ⟨_, -, globals, hglobals, _, -, rfl⟩ := hread
  obtain ⟨g', hg', hsource⟩ := getElem?_of_mapM_left hglobals (x := (g, index))
    (by rw [List.getElem?_zipIdx, hitem]; simp)
  obtain ⟨value, len, bits, vs, hvalue, hty, hbits, htyped, hnumbers, hlen, rfl⟩ :=
    exists_numbers_of_data? hsource hspelled (hconforms g' (List.mem_of_getElem? hg'))
  have hall : ∀ g ∈ globals, Conforms (initial g).1 (initial g).2 := by
    intro g hg
    show Conforms g.ty (g.initializer.getD .zero)
    cases hinit : g.initializer with
    | none => exact .whole (c := .zero) trivial
    | some value => exact hconforms g hg value hinit
  have hinitial : initial g' = (.array len (.int bits), value) := by
    rw [initial, hvalue, hty, Option.getD_some]
  obtain ⟨e, l, he, -, hguard, hl, hend, hshows⟩ := image_shows_at hbuild (nodup_ids hglobals)
    (fun g hg => (hall g hg).keeps) hg' (by rw [hinitial]; exact htyped.lands)
  rw [hinitial, hty] at hshows
  rw [hty] at hl
  obtain ⟨stop, hfollows, -⟩ := exists_follows hbuild
  obtain ⟨e', he', hid, -, l', hl', hsize, -⟩ := getElem?_of_forall₂ hfollows.forall₂ hg'
  cases he.symm.trans he'
  rw [hty] at hl'
  cases hl.symm.trans hl'
  have htake := hshows.take_eq hl hbits hnumbers hlen
  rw [← hsize] at hend htake
  have haddress : nullGuard + (slot e).start = e.address := Nat.add_sub_cancel' hguard
  refine ⟨e, he, hid.trans (id_eq_index hglobals hg'), ?_, htake, ?_⟩
  · rw [← htake, List.length_take, List.length_drop]
    omega
  · rw [← haddress, read_withGlobals hend hfits, htake]

/-- A number that is not flattened, an array that is aligned behind it and holds numbers out of
range, and a structure that refers to the array. -/
def tableLibrary : Library :=
  { modules := [(⟨1⟩, { globals :=
      [⟨"n", .int 8, true, some (.int 7), [], none, 0⟩,
        ⟨"t", .array 3 (.int 16), true,
          some (.array [(.int 16, .int 1), (.int 16, .int (-2)), (.int 16, .int 65541)]), [],
          none, 0⟩,
        ⟨"r", .struct false [.int 8, .ptr], false,
          some (.struct [(.int 8, .int 9), (.ptr, .global "t")]), [], none, 0⟩] })]
    next := 2 }

theorem tableLibrary_conforms {m : IR.Module} (hread : tableLibrary.read ⟨1⟩ = .ok m) :
    ∀ g ∈ m.globals, ∀ value, g.initializer = some value → Conforms g.ty value := by
  intro g hg value hvalue
  cases hread
  rcases hg with _ | ⟨_, _ | ⟨_, _ | ⟨_, hg⟩⟩⟩
  · cases hvalue
    exact .whole trivial
  · cases hvalue
    refine .array rfl (by simp) fun item hitem => ?_
    simp only [List.mem_cons, List.not_mem_nil, or_false] at hitem
    rcases hitem with rfl | rfl | rfl <;> exact .whole trivial
  · cases hvalue
    refine .struct rfl fun item hitem => ?_
    simp only [List.mem_cons, List.not_mem_nil, or_false] at hitem
    rcases hitem with rfl | rfl <;> exact .whole trivial
  · cases hg

/-- The data of the table is what stands in its slot, and what is read there. -/
theorem constant_data_is_table :
    ∃ m image e, tableLibrary.read ⟨1⟩ = .ok m ∧
      ofGlobals 64 GlobalId.text m.globals = .ok image ∧ image.entries[1]? = some e ∧
      nullGuard + image.bytes.length < twoPow 64 ∧ (slot e).start = 2 ∧ e.size = 6 ∧
      (image.bytes.drop 2).take 6 = [1, 0, 254, 255, 5, 0] ∧
      (Memory.withGlobals image.bytes).read 66 6 = .ok [1, 0, 254, 255, 5, 0] := by
  refine ⟨_, _, _, rfl, rfl, rfl, by decide, rfl, rfl, ?_⟩
  obtain ⟨e, he, -, -, hbytes⟩ :=
    @constant_data_is_image_slot _ tableLibrary ⟨1⟩ _ 64 GlobalId.text _ rfl rfl (by decide)
      (tableLibrary_conforms rfl) 1 [1, 0, 254, 255, 5, 0] rfl
  cases he
  exact hbytes

end SafeIR.Layout
