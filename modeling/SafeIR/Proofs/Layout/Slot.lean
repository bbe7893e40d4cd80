import SafeIR.Proofs.Layout.Range

/-!
# Slots of globals

Every piece of an initializer stands where the declared layout puts it, with the length of the type
that it carries itself. Only the end of the whole image stops a piece. One that is larger than its
place goes on into the next global, and a position behind all words may wrap around to another
global. The main theorem says exactly which initializers keep to the slot of theirs: those whose
spans lie in it.
-/

namespace SafeIR.Layout.Image

open IR (Constant Global GlobalId)

/-- The spans that a piece is written to, at the word for its position. A constant with parts has
none but those of its parts. -/
def Piece.spans (limit : Nat) (p : Piece) : List Span :=
  match ofType limit p.ty with
  | .error _ => []
  | .ok layout =>
    if inParts p.value layout then [] else [⟨p.wrapped.position, width layout p.value⟩]

/-- The spans that the initializer of a global is written to. -/
def initializerSpans (limit : Nat) (entries : List Entry) (g : Global) : List Span :=
  (allPieces limit entries [g]).flatMap fun q => q.2.spans limit

/-- What a step writes does not depend on how its failures are told. -/
theorem Writes.of_mapError {ε ε' : Type} {spans : List Span} {f : ε → ε'}
    {step : List UInt8 → Except ε (List UInt8)}
    (h : Writes spans fun bytes => (step bytes).mapError f) : Writes spans step where
  inside hstep := h.inside (mapError_eq_ok.mpr hstep)
  length_eq hstep := h.length_eq (mapError_eq_ok.mpr hstep)
  frame hstep := h.frame (mapError_eq_ok.mpr hstep)
  same hstep hlen := by
    obtain ⟨other', hother, hsame⟩ := h.same (mapError_eq_ok.mpr hstep) hlen
    exact ⟨other', mapError_eq_ok.mp hother, hsame⟩

/-- Steps in a row write the spans of all of them. -/
theorem Writes.foldlM {ε α : Type} {spans : α → List Span}
    {step : List UInt8 → α → Except ε (List UInt8)} {xs : List α}
    (h : ∀ x ∈ xs, Writes (spans x) (step · x)) :
    Writes (xs.flatMap spans) (xs.foldlM step ·) := by
  induction xs with
  | nil => exact .nil
  | cons x xs ih =>
    obtain ⟨hx, hxs⟩ := List.forall_mem_cons.mp h
    simp only [List.foldlM_cons, List.flatMap_cons]
    exact hx.andThen (ih hxs)

section

variable {b : Build} {limit : Nat} {entries : List Entry} {name : String} {p : Piece}

/-- A piece without parts writes one span, and one with parts writes none. -/
theorem writes_write {layout : Layout} (hlayout : ofType limit p.ty = .ok layout) :
    Writes (if inParts p.value layout then [] else [⟨p.position, width layout p.value⟩])
      (p.write limit entries name ·) := by
  cases hparts : inParts p.value layout with
  | true =>
    simp only [Piece.write, hlayout, Piece.accessAt, hparts, if_true]
    exact Writes.nil.ofLength
  | false =>
    refine .of_mapError (f := Stop.failure) ?_
    simp only [mapError_write hlayout hparts, Bool.false_eq_true, if_false]
    exact writes_leaf ..

/-- In words a piece writes its spans, if it is not stopped before. -/
theorem writes_writeIn (hfits : sizesFit limit p.ty = true) :
    Writes (p.spans limit) (p.writeIn b limit entries name ·) := by
  cases hlayout : ofType limit p.ty with
  | error e =>
    simp only [Piece.writeIn, hlayout]
    exact .error
  | ok layout =>
    simp only [writeIn_eq hlayout hfits, Piece.spans, hlayout]
    -- whether it is stopped does not depend on the bytes
    by_cases hover : b = .checked ∧ twoPow 64 ≤ p.position + layout.size
    · simp only [hover, and_self, if_true]
      exact .error
    · by_cases hwraps : twoPow 64 ≤ p.wrapped.position + layout.size
      · simp only [hover, hwraps, if_true, if_false]
        exact .error
      · simp only [hover, hwraps, if_false]
        exact writes_write (p := p.wrapped) hlayout

theorem writes_writeGlobals {globals : List Global}
    (hfits : ∀ q ∈ allPieces limit entries globals, sizesFit limit q.2.ty = true) :
    Writes ((allPieces limit entries globals).flatMap fun q => q.2.spans limit)
      (writeGlobals b limit entries · globals) :=
  .foldlM fun q hq => writes_writeIn (hfits q hq)

theorem allPieces_subset {gs globals : List Global} (h : gs ⊆ globals) :
    allPieces limit entries gs ⊆ allPieces limit entries globals := by
  intro q hq
  obtain ⟨g, hg, hq⟩ := List.mem_flatMap.mp hq
  exact List.mem_flatMap.mpr ⟨g, h hg, hq⟩

theorem writeGlobals_append {bytes : List UInt8} (gs hs : List Global) :
    writeGlobals b limit entries bytes (gs ++ hs) =
      writeGlobals b limit entries bytes gs >>= (writeGlobals b limit entries · hs) := by
  rw [writeGlobals, allPieces, List.flatMap_append, List.foldlM_append]
  rfl

end

/-- **Initializers keep to their slots where their spans do.** Let the layout of globals fit in
words and be made, whatever overflow does. Writing the initializer of a global, between those of the
globals before and after it, leaves all bytes outside its slot alone if its spans lie in the slot;
otherwise there are bytes of which it changes one outside. If all places end in the words, these are
the steps of laying out the globals with exact numbers. -/
theorem initializer_keeps_to_slot_iff {b : Build} {limit : Nat} {constName : GlobalId → String}
    {globals : List Global} {image : Image} (hfits : Fits limit constName globals)
    (hbuild : byAccess b limit constName globals = .ok image)
    {before after : List Global} {g : Global} (hsplit : globals = before ++ g :: after)
    {value : Constant} (hvalue : g.initializer = some value) :
    ∃ layout e bytes bytes',
      ofType limit g.ty = .ok layout ∧ find? image.entries g.id = some e ∧
      writeGlobals b limit image.entries (List.replicate image.bytes.length 0) before
        = .ok bytes ∧
      writeGlobals b limit image.entries bytes [g] = .ok bytes' ∧
      writeGlobals b limit image.entries bytes' after = .ok image.bytes ∧
      ((∀ p, Covered (initializerSpans limit image.entries g) p → p ∈ slot e) →
        ∀ p, p ∉ slot e → bytes'[p]? = bytes[p]?) ∧
      ((∀ p, Covered (initializerSpans limit image.entries g) p → p ∈ slot e) ↔
        ∀ other other', other.length = image.bytes.length →
          writeGlobals b limit image.entries other [g] = .ok other' →
          ∀ p, p ∉ slot e → other'[p]? = other[p]?) ∧
      (PositionsFit limit constName globals → ofGlobals limit constName globals = .ok image ∧
        fill limit image.entries (List.replicate image.bytes.length 0) before = .ok bytes ∧
        encode limit image.entries g.name g.ty layout (slot e).start bytes value = .ok bytes' ∧
        fill limit image.entries bytes' after = .ok image.bytes) := by
  obtain ⟨⟨entries, stop⟩, hplaceIn, hwritten⟩ := bind_eq_ok.mp hbuild
  obtain ⟨final, hwrite, himage⟩ := bind_eq_ok.mp hwritten
  obtain rfl := pure_eq_ok.mp himage
  have hplace := hfits.placeIn_eq_ok.mp hplaceIn
  have hcarried := hfits.carried_of_placeIn hplaceIn
  have hlayouts := (follows_of_place hplace).exists_layout
  have hlen : final.length = stop - nullGuard := by
    rw [(writes_writeGlobals hcarried).length_eq hwrite, List.length_replicate]
  have hmem : g ∈ globals := by simp [hsplit]
  obtain ⟨layout, hlayout⟩ := hlayouts g hmem
  obtain ⟨e, he⟩ := exists_find? (map_id_place hplace ▸ List.mem_map_of_mem hmem)
  have hglobals : globals = before ++ ([g] ++ after) := hsplit
  have hone : [g] ⊆ globals := by simpa using hmem
  have hfront : before ⊆ globals := by simp [hsplit]
  -- the bytes are written by the globals before, by this one and by those after it
  rw [hglobals, writeGlobals_append, bind_eq_ok] at hwrite
  obtain ⟨bytes, hbefore, hwrite⟩ := hwrite
  rw [writeGlobals_append, bind_eq_ok] at hwrite
  obtain ⟨bytes', hself, hafter⟩ := hwrite
  have hwrites :=
    @writes_writeGlobals b limit entries [g] fun q hq => hcarried q (allPieces_subset hone hq)
  have hbytes : bytes.length = final.length := by
    rw [(writes_writeGlobals fun q hq => hcarried q (allPieces_subset hfront hq)).length_eq hbefore,
      List.length_replicate, hlen]
  refine ⟨layout, e, bytes, bytes', hlayout, he, by rw [hlen]; exact hbefore, hself, hafter,
    fun hsub p hp => hwrites.frame hself p fun hcov => hp (hsub p hcov), ?_, fun hpositions => ?_⟩
  · rw [initializerSpans, hwrites.subset_iff hself (slot e), hbytes]
  · have hfill : ∀ {gs old new}, gs ⊆ globals → writeGlobals b limit entries old gs = .ok new →
        fill limit entries old gs = .ok new := by
      intro gs old new hsub hnew
      rw [fill_eq_writeGlobals (fun g hg => hlayouts g (hsub hg)) fun q hq => ?_, hnew]
      · rfl
      · have hq := allPieces_subset hsub hq
        exact ⟨hcarried q hq, hpositions q (placedPieces_eq hplace ▸ hq)⟩
    have hencode := hfill hone hself
    rw [fill, hvalue] at hencode
    simp only [hlayout, he, Option.map_some, Option.getD_some, bind_eq_ok] at hencode
    obtain ⟨_, hencode, hnil⟩ := hencode
    cases hnil
    refine ⟨by rw [ofGlobals_eq hfits hpositions, hbuild]; rfl, ?_, hencode, ?_⟩
    · rw [hlen]
      exact hfill hfront hbefore
    · exact hfill (by simp [hsplit]) hafter

/-- A halfword, a structure with padding that refers forward, and an external word. -/
def tidyGlobals : List Global :=
  [⟨⟨0⟩, "a", .int 16, false, some (.int 258), none⟩,
    ⟨⟨1⟩, "s", .struct false [.int 8, .ptr], false,
      some (.struct [(.int 8, .int (-1)), (.ptr, .global ⟨2⟩)]), none⟩,
    ⟨⟨2⟩, "b", .int 64, false, none, none⟩]

/-- The structure is written into its slot and nowhere else. -/
theorem initializer_keeps_to_slot_struct :
    Fits 64 GlobalId.text tidyGlobals ∧ PositionsFit 64 GlobalId.text tidyGlobals ∧
    ∃ image e bytes bytes', byAccess .wrapping 64 GlobalId.text tidyGlobals = .ok image ∧
      ofGlobals 64 GlobalId.text tidyGlobals = .ok image ∧
      find? image.entries ⟨1⟩ = some e ∧ slot e = ⟨8, 16⟩ ∧
      encode 64 image.entries "s" (.struct false [.int 8, .ptr]) (.struct false [.int 8, .ptr])
        (slot e).start bytes (.struct [(.int 8, .int (-1)), (.ptr, .global ⟨2⟩)]) = .ok bytes' ∧
      bytes' ≠ bytes ∧ ∀ p, p ∉ slot e → bytes'[p]? = bytes[p]? := by
  have hfits : Fits 64 GlobalId.text tidyGlobals := by decide
  have hpositions : PositionsFit 64 GlobalId.text tidyGlobals := by decide
  obtain ⟨layout, e, bytes, bytes', hlayout, he, -, -, -, hkeep, -, hexact⟩ :=
    @initializer_keeps_to_slot_iff .wrapping 64 GlobalId.text tidyGlobals _ hfits rfl
      (tidyGlobals.take 1) (tidyGlobals.drop 2) _ rfl _ rfl
  obtain ⟨hbuild, hbefore, hencode, -⟩ := hexact hpositions
  cases hlayout
  cases he
  cases hbefore
  cases hencode
  refine ⟨hfits, hpositions, _, _, _, _, rfl, hbuild, rfl, rfl, rfl, by decide, hkeep ?_⟩
  -- One byte for the first field, and a word after seven bytes of padding.
  rintro p ⟨s, hs, hp⟩
  change s ∈ [⟨8, 1⟩, ⟨16, 8⟩] at hs
  show 8 ≤ p ∧ p < 24
  simp only [List.mem_cons, List.not_mem_nil, or_false] at hs
  rcases hs with rfl | rfl <;> simp only [Span.mem_iff] at hp <;> omega

/-- The element of an array of one byte may be a word. It is written over the global that follows,
since all that has to hold it is the image. -/
def spillingGlobals : List Global :=
  [⟨⟨0⟩, "a", .array 1 (.int 8), false, some (.array [(.int 64, .int (-1))]), none⟩,
    ⟨⟨1⟩, "b", .array 8 (.int 8), false, none, none⟩]

/-- The word changes bytes behind the slot of the array. -/
theorem initializer_spills_over :
    Fits 64 GlobalId.text spillingGlobals ∧ PositionsFit 64 GlobalId.text spillingGlobals ∧
    ∃ image e bytes bytes', ofGlobals 64 GlobalId.text spillingGlobals = .ok image ∧
      (∀ b, byAccess b 64 GlobalId.text spillingGlobals = .ok image) ∧
      find? image.entries ⟨0⟩ = some e ∧
      fill 64 image.entries (List.replicate image.bytes.length 0) [] = .ok bytes ∧
      encode 64 image.entries "a" (.array 1 (.int 8)) (.array (.int 8) 1) (slot e).start bytes
        (.array [(.int 64, .int (-1))]) = .ok bytes' ∧
      ∃ p, p ∉ slot e ∧ bytes'[p]? ≠ bytes[p]? := by
  refine ⟨by decide, by decide, _, _, _, _, rfl, fun b => ?_, rfl, rfl, rfl, 1, ?_, ?_⟩
  · cases b <;> rfl
  · decide
  · decide

end SafeIR.Layout.Image
