import SafeIR.Layout.Image
import SafeIR.Proofs.Memory.Span

/-!
# What an initializer writes

An initializer is written piece by piece: each piece stands where the declared layout puts it, with
the length of the type that it carries itself. `extents` lists those spans without looking at any
bytes, and `writes_encode` says that they are all there is to the effect of an initializer: the
bytes in them come to depend on the initializer alone, and every other byte stays as it was.
-/

namespace SafeIR.Layout

open IR (Constant Global GlobalId)

namespace Image

variable {entries : List Entry} {bytes : List UInt8}

/-! ## Steps that write spans -/

/-- A position in one of several spans. -/
def Covered (spans : List Span) (p : Nat) : Prop := ∃ s ∈ spans, p ∈ s

@[simp] theorem not_covered_nil (p : Nat) : ¬ Covered [] p := by simp [Covered]

@[simp] theorem covered_singleton {s : Span} {p : Nat} : Covered [s] p ↔ p ∈ s := by simp [Covered]

@[simp] theorem covered_append {spans more : List Span} {p : Nat} :
    Covered (spans ++ more) p ↔ Covered spans p ∨ Covered more p := by
  simp [Covered, or_and_right, exists_or]

/-- A step that writes the spans and nothing else: whether it succeeds depends on the length of the
bytes only, and so does what it leaves in the spans. -/
structure Writes {ε : Type} (spans : List Span) (step : List UInt8 → Except ε (List UInt8)) :
    Prop where
  inside {bytes bytes' : List UInt8} (h : step bytes = .ok bytes') :
    ∀ p, Covered spans p → p < bytes.length
  length_eq {bytes bytes' : List UInt8} (h : step bytes = .ok bytes') :
    bytes'.length = bytes.length
  frame {bytes bytes' : List UInt8} (h : step bytes = .ok bytes') :
    ∀ p, ¬ Covered spans p → bytes'[p]? = bytes[p]?
  same {bytes bytes' other : List UInt8} (h : step bytes = .ok bytes')
    (hlen : other.length = bytes.length) :
    ∃ other', step other = .ok other' ∧ ∀ p, Covered spans p → other'[p]? = bytes'[p]?

namespace Writes

variable {ε : Type} {spans more : List Span} {step next : List UInt8 → Except ε (List UInt8)}

theorem nil : Writes (ε := ε) [] .ok where
  inside _ p hp := absurd hp (not_covered_nil p)
  length_eq h := by cases h; rfl
  frame h _ _ := by cases h; rfl
  same _ _ := ⟨_, rfl, fun p hp => absurd hp (not_covered_nil p)⟩

theorem error {e : ε} : Writes spans fun _ => .error e where
  inside h := nomatch h
  length_eq h := nomatch h
  frame h := nomatch h
  same h := nomatch h

theorem andThen (hstep : Writes spans step) (hnext : Writes more next) :
    Writes (spans ++ more) fun bytes => step bytes >>= next where
  inside h p hp := by
    obtain ⟨mid, hmid, h⟩ := bind_eq_ok.mp h
    rw [covered_append] at hp
    rcases hp with hp | hp
    · exact hstep.inside hmid p hp
    · exact hstep.length_eq hmid ▸ hnext.inside h p hp
  length_eq h := by
    obtain ⟨mid, hmid, h⟩ := bind_eq_ok.mp h
    rw [hnext.length_eq h, hstep.length_eq hmid]
  frame h p hp := by
    obtain ⟨mid, hmid, h⟩ := bind_eq_ok.mp h
    rw [covered_append, not_or] at hp
    rw [hnext.frame h p hp.2, hstep.frame hmid p hp.1]
  same h hlen := by
    obtain ⟨mid, hmid, h⟩ := bind_eq_ok.mp h
    obtain ⟨mid', hmid', hsame⟩ := hstep.same hmid hlen
    obtain ⟨last, hlast, hsame'⟩ := hnext.same h
      (by rw [hstep.length_eq hmid', hstep.length_eq hmid, hlen])
    refine ⟨last, bind_eq_ok.mpr ⟨mid', hmid', hlast⟩, fun p hp => ?_⟩
    -- What the second step does not write again is left from the first.
    by_cases hmore : Covered more p
    · exact hsame' p hmore
    · rw [covered_append] at hp
      rw [hnext.frame hlast p hmore, hnext.frame h p hmore,
        hsame p (hp.resolve_right hmore)]

/-- A step that only runs on bytes that are long enough. -/
theorem ofLength {e : ε} {n : Nat} (hstep : Writes spans step) :
    Writes spans fun bytes => if bytes.length < n then .error e else step bytes where
  inside h := hstep.inside (ite_error_eq_ok.mp h).2
  length_eq h := hstep.length_eq (ite_error_eq_ok.mp h).2
  frame h := hstep.frame (ite_error_eq_ok.mp h).2
  same h hlen := by
    rw [ite_error_eq_ok] at h
    obtain ⟨other', hother, hsame⟩ := hstep.same h.2 hlen
    exact ⟨other', ite_error_eq_ok.mpr ⟨hlen ▸ h.1, hother⟩, hsame⟩

/-- The spans of a step that succeeds somewhere lie in a slot exactly if the step never changes a
byte outside of it. -/
theorem subset_iff (hstep : Writes spans step) {bytes' : List UInt8} (h : step bytes = .ok bytes')
    (slot : Span) :
    (∀ p, Covered spans p → p ∈ slot) ↔
      ∀ other other', other.length = bytes.length → step other = .ok other' →
        ∀ p, p ∉ slot → other'[p]? = other[p]? := by
  constructor
  · intro hsub other other' _ hother p hp
    exact hstep.frame hother p fun hcov => hp (hsub p hcov)
  · intro hkeep p hp
    by_contra hout
    -- The step leaves one byte at `p`, whatever was there: start with another one.
    have hlt : p < bytes.length := hstep.inside h p hp
    have hlt' : p < bytes'.length := by rwa [hstep.length_eq h]
    have hlen : (bytes.set p (bytes'[p] + 1)).length = bytes.length := List.length_set
    obtain ⟨other', hother, hsame⟩ := hstep.same h hlen
    have hbyte : bytes'[p]? = (bytes.set p (bytes'[p] + 1))[p]? := by
      rw [← hsame p hp, hkeep _ other' hlen hother p hout]
    rw [List.getElem?_set_self hlt, List.getElem?_eq_getElem hlt', Option.some_inj] at hbyte
    simp at hbyte

end Writes

/-! ## The extents of an initializer -/

theorem length_overwrite {new : List UInt8} {start : Nat} (h : start + new.length ≤ bytes.length) :
    (overwrite bytes start new).length = bytes.length := by
  simp only [overwrite, List.length_append, List.length_take, List.length_drop]
  omega

theorem getElem?_overwrite {new : List UInt8} {start : Nat} (h : start + new.length ≤ bytes.length)
    (p : Nat) :
    (overwrite bytes start new)[p]? =
      if p ∈ Span.mk start new.length then new[p - start]? else bytes[p]? := by
  have htake : (bytes.take start).length = start := by rw [List.length_take]; omega
  simp only [Span.mem_iff]
  rw [overwrite, List.append_assoc]
  by_cases hlow : p < start
  · rw [List.getElem?_append_left (by omega), List.getElem?_take_of_lt hlow, if_neg (by omega)]
  · rw [List.getElem?_append_right (by omega), htake]
    by_cases hhigh : p < start + new.length
    · rw [List.getElem?_append_left (by omega), if_pos (by omega)]
    · rw [List.getElem?_append_right (by omega), List.getElem?_drop, if_neg (by omega)]
      congr 1
      omega

/-- How many bytes a constant without parts is written to. -/
def width (layout : Layout) : Constant → Nat
  | .bool _ => 1
  | .bytes data => data.length
  | _ => layout.size

/-- The bytes of a constant fit its layout. -/
theorem length_leaf? {ty : IR.Ty} {layout : Layout} {name : String} {value : Constant}
    {data : List UInt8} (h : leaf? entries ty layout name value = .ok data) :
    data.length = width layout value ∧ width layout value ≤ layout.size := by
  cases value with
  | bool b =>
    rw [leaf?, ite_error_eq_ok] at h
    cases h.2
    exact ⟨rfl, Nat.pos_of_ne_zero h.1⟩
  | bytes content =>
    rw [leaf?, leaf?.refuse, ite_error_eq_ok] at h
    cases h.2
    exact ⟨rfl, Nat.le_of_not_lt h.1⟩
  | zero | undef | null =>
    cases h
    exact ⟨List.length_replicate, Nat.le_refl _⟩
  | int v =>
    refine ⟨?_, Nat.le_refl _⟩
    cases layout <;> cases h <;> first | rfl | exact Bytes.length_ofNat ..
  | float bits =>
    refine ⟨?_, Nat.le_refl _⟩
    cases layout <;> cases h <;> exact Bytes.length_ofNat ..
  | global id =>
    refine ⟨?_, Nat.le_refl _⟩
    cases layout with
    | ptr =>
      simp only [leaf?] at h
      split at h
      · cases h
        exact Bytes.length_ofNat ..
      · cases h
    | _ => cases h
  | array | struct => cases h

mutual

/-- The spans that a constant is written to, at a position. -/
def extents (limit : Nat) (layout : Layout) (position : Nat) (value : Constant) : List Span :=
  match value, layout with
  | .array items, .array elem _ =>
    itemExtents limit ((List.range items.length).map fun i => position + i * elem.stride) items
  | .struct fields, .struct packed ls =>
    itemExtents limit ((Layout.struct packed ls).offsets.map (position + ·)) fields
  | value, layout => [⟨position, width layout value⟩]

/-- The spans that several constants are written to, as long as each has a position. -/
def itemExtents (limit : Nat) : List Nat → List (IR.Ty × Constant) → List Span
  | position :: positions, (ty, value) :: items =>
    match Layout.ofType limit ty with
    | .error _ => []
    | .ok layout => extents limit layout position value ++ itemExtents limit positions items
  | _, _ => []

end

/-- A constant without parts writes one span. -/
theorem writes_leaf (entries : List Entry) (ty : IR.Ty) (layout : Layout) (name : String)
    (position : Nat) (value : Constant) :
    Writes [⟨position, width layout value⟩] fun bytes =>
      if bytes.length < position + layout.size then
        .error (.unsupportedConstruct (.overrun ty) (.initializer name))
      else return overwrite bytes position (← leaf? entries ty layout name value) := by
  -- All four clauses open the same way: the piece fits, and it has the width of the span.
  have hopen : ∀ {bytes bytes' : List UInt8},
      (if bytes.length < position + layout.size then
        .error (.unsupportedConstruct (.overrun ty) (.initializer name))
      else return overwrite bytes position (← leaf? entries ty layout name value)) = .ok bytes' →
      ∃ data, leaf? entries ty layout name value = .ok data ∧ data.length = width layout value ∧
        position + layout.size ≤ bytes.length ∧ position + data.length ≤ bytes.length ∧
        overwrite bytes position data = bytes' := by
    intro bytes bytes' h
    rw [ite_error_eq_ok, Nat.not_lt, bind_eq_ok] at h
    obtain ⟨hfits, data, hdata, h⟩ := h
    obtain ⟨hlen, hle⟩ := length_leaf? hdata
    exact ⟨data, hdata, hlen, hfits, by omega, pure_eq_ok.mp h⟩
  constructor
  case inside =>
    intro bytes bytes' h p hp
    obtain ⟨data, -, hlen, -, hfits, -⟩ := hopen h
    rw [covered_singleton, Span.mem_iff, ← hlen] at hp
    exact Nat.lt_of_lt_of_le hp.2 hfits
  case length_eq =>
    intro bytes bytes' h
    obtain ⟨data, -, -, -, hfits, rfl⟩ := hopen h
    exact length_overwrite hfits
  case frame =>
    intro bytes bytes' h p hp
    obtain ⟨data, -, hlen, -, hfits, rfl⟩ := hopen h
    rw [getElem?_overwrite hfits, if_neg (by rwa [covered_singleton, ← hlen] at hp)]
  case same =>
    intro bytes bytes' other h hother
    obtain ⟨data, hdata, hlen, hsize, hfits, rfl⟩ := hopen h
    refine ⟨overwrite other position data, ?_, fun p hp => ?_⟩
    · rw [if_neg (by omega), hdata]
      rfl
    · rw [covered_singleton, ← hlen] at hp
      rw [getElem?_overwrite (hother ▸ hfits), getElem?_overwrite hfits, if_pos hp, if_pos hp]

mutual

/-- Writing an initializer writes its extents. -/
theorem writes_encode (limit : Nat) (entries : List Entry) (name : String) :
    (value : Constant) → (ty : IR.Ty) → (layout : Layout) → (position : Nat) →
    Writes (extents limit layout position value) fun bytes =>
      encode limit entries name ty layout position bytes value
  | .array items, ty, layout, position => by
    cases layout with
    | array elem len =>
      simp only [encode, extents]
      exact (writes_encodeItems limit entries name _ items).ofLength
    | _ =>
      simp only [encode, extents]
      exact writes_leaf ..
  | .struct fields, ty, layout, position => by
    cases layout with
    | struct packed ls =>
      simp only [encode, extents]
      exact (writes_encodeItems limit entries name _ fields).ofLength
    | _ =>
      simp only [encode, extents]
      exact writes_leaf ..
  | .int _, ty, layout, position | .float _, ty, layout, position | .bool _, ty, layout, position
  | .null, ty, layout, position | .undef, ty, layout, position | .zero, ty, layout, position
  | .bytes _, ty, layout, position | .global _, ty, layout, position => by
    simp only [encode, extents]
    exact writes_leaf ..

theorem writes_encodeItems (limit : Nat) (entries : List Entry) (name : String) :
    (positions : List Nat) → (items : List (IR.Ty × Constant)) →
    Writes (itemExtents limit positions items) fun bytes =>
      encodeItems limit entries name bytes positions items
  | position :: positions, (ty, value) :: items => by
    simp only [encodeItems, itemExtents]
    cases hlayout : ofType limit ty with
    | error e => exact .error
    | ok layout =>
      exact (writes_encode limit entries name value ty layout position).andThen
        (writes_encodeItems limit entries name positions items)
  | [], [] | [], _ :: _ | _ :: _, [] => by
    simp only [encodeItems, itemExtents]
    exact .nil

end

/-! ## The step of one global -/

/-- The positions of the image that belong to a global. -/
def slot (e : Entry) : Span := ⟨e.address - nullGuard, e.size⟩

theorem length_fill {limit : Nat} {bytes' : List UInt8} {gs : List Global}
    (h : fill limit entries bytes gs = .ok bytes') : bytes'.length = bytes.length := by
  induction gs generalizing bytes with
  | nil =>
    cases h
    rfl
  | cons g gs ih =>
    rw [fill] at h
    split at h
    next => exact ih h
    next value _ =>
      split at h
      · cases h
      next layout _ =>
        obtain ⟨mid, hmid, h⟩ := bind_eq_ok.mp h
        rw [ih h, (writes_encode limit entries g.name value g.ty layout _).length_eq hmid]

theorem map_id_place {limit : Nat} {constName : GlobalId → String} {cursor : Nat}
    {globals : List Global} {stop : Nat}
    (h : place limit constName cursor globals = .ok (entries, stop)) :
    entries.map Entry.id = globals.map Global.id := by
  induction globals generalizing cursor entries with
  | nil =>
    cases h
    rfl
  | cons g gs ih =>
    rw [place] at h
    split at h
    · cases h
    · simp only [bind_eq_ok, pure_eq_ok] at h
      obtain ⟨⟨es, stop'⟩, hes, h⟩ := h
      cases h
      rw [List.map_cons, List.map_cons, ih hes]

theorem exists_find? {id : GlobalId} (h : id ∈ entries.map Entry.id) :
    ∃ e, find? entries id = some e := by
  obtain ⟨e, he, hid⟩ := List.mem_map.mp h
  exact Option.isSome_iff_exists.mp (List.find?_isSome.mpr ⟨e, he, decide_eq_true hid⟩)

end Image

end SafeIR.Layout
