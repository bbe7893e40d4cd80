import SafeIR.Proofs.Layout.Globals

/-!
# Places of globals

Globals get their addresses in one pass with a cursor: each goes to the first multiple of its
alignment that is not below the cursor, which then moves behind it. `Follows` is that pass as a
relation, and the rest are inductions on it: entries are in the order of the globals, each ends
before the next one starts, and the cursor ends where the last of them does.

Nothing is asked of an alignment: it may be zero, or no power of two. Of the one that is declared
and the one of the type, only the larger is kept to.
-/

namespace SafeIR.Layout

open IR (Global GlobalId)
open Image (ofGlobals place slot)

/-- The alignment that a global gets: the largest of what it asks for, what its type asks for and
one. -/
def alignment (g : Global) (l : Layout) : Nat := max (max (g.align.getD 1) l.align) 1

/-- Globals that are placed from a cursor on, with the first free address behind them. -/
inductive Follows (limit : Nat) (constName : GlobalId → String) :
    (cursor : Nat) → List Global → List Entry → (stop : Nat) → Prop where
  | nil {cursor : Nat} : Follows limit constName cursor [] [] cursor
  | cons {cursor address stop : Nat} {g : Global} {gs : List Global} {l : Layout} {es : List Entry}
      (hl : ofType limit g.ty = .ok l) (haddress : LeastMultiple (alignment g l) cursor address)
      (htail : Follows limit constName (address + l.size) gs es stop) :
      Follows limit constName cursor (g :: gs) (⟨g.id, constName g.id, address, l.size⟩ :: es) stop

section

variable {limit cursor stop : Nat} {constName : GlobalId → String} {globals : List Global}
  {entries : List Entry} {image : Image}

theorem follows_of_place (h : place limit constName cursor globals = .ok (entries, stop)) :
    Follows limit constName cursor globals entries stop := by
  induction globals generalizing cursor entries with
  | nil =>
    cases h
    exact .nil
  | cons g gs ih =>
    rw [place] at h
    cases hl : ofType limit g.ty with
    | error e =>
      rw [hl] at h
      cases h
    | ok l =>
      simp only [hl, bind_eq_ok, pure_eq_ok] at h
      obtain ⟨⟨es, stop'⟩, hes, h⟩ := h
      cases h
      have hpos : 0 < alignment g l := Nat.lt_of_lt_of_le Nat.one_pos (Nat.le_max_right ..)
      exact .cons hl ((leastMultiple_iff hpos).mpr rfl) (ih hes)

namespace Follows

theorem cursor_le (h : Follows limit constName cursor globals entries stop) : cursor ≤ stop := by
  induction h with
  | nil => exact Nat.le_refl _
  | cons _ haddress _ ih =>
    exact Nat.le_trans haddress.lower_le (Nat.le_trans (Nat.le_add_right ..) ih)

theorem exists_layout (h : Follows limit constName cursor globals entries stop) :
    ∀ g ∈ globals, ∃ l, ofType limit g.ty = .ok l := by
  induction h with
  | nil => simp
  | cons hl _ _ ih => exact List.forall_mem_cons.mpr ⟨⟨_, hl⟩, ih⟩

/-- Every global lies between the cursor and the end. -/
theorem bounds (h : Follows limit constName cursor globals entries stop) :
    ∀ e ∈ entries, cursor ≤ e.address ∧ e.address + e.size ≤ stop := by
  induction h with
  | nil => simp
  | cons _ haddress htail ih =>
    refine List.forall_mem_cons.mpr ⟨⟨haddress.lower_le, htail.cursor_le⟩, fun e he => ?_⟩
    obtain ⟨hlow, hhigh⟩ := ih e he
    exact ⟨Nat.le_trans haddress.lower_le (Nat.le_trans (Nat.le_add_right ..) hlow), hhigh⟩

/-- Every global ends before the next one starts. -/
theorem pairwise (h : Follows limit constName cursor globals entries stop) :
    entries.Pairwise fun e e' => e.address + e.size ≤ e'.address := by
  induction h with
  | nil => exact .nil
  | cons _ _ htail ih => exact List.pairwise_cons.mpr ⟨fun e he => (htail.bounds e he).1, ih⟩

/-- The end is the end of the last global. -/
theorem stop_eq (h : Follows limit constName cursor globals entries stop) :
    stop = (entries.getLast?.map fun e => e.address + e.size).getD cursor := by
  induction h with
  | nil => rfl
  | @cons _ _ _ _ _ _ es _ _ _ ih =>
    rw [ih, List.getLast?_cons]
    cases es.getLast? <;> rfl

theorem forall₂ (h : Follows limit constName cursor globals entries stop) :
    List.Forall₂ (fun g e => e.id = g.id ∧ e.constName = constName g.id ∧
      ∃ l, ofType limit g.ty = .ok l ∧ e.size = l.size ∧ alignment g l ∣ e.address)
      globals entries := by
  induction h with
  | nil => exact .nil
  | cons hl haddress _ ih => exact .cons ⟨rfl, rfl, _, hl, rfl, haddress.dvd⟩ ih

end Follows

/-- The entries of an image follow one another from the guard to the end of its bytes. -/
theorem exists_follows (hbuild : ofGlobals limit constName globals = .ok image) :
    ∃ stop, Follows limit constName nullGuard globals image.entries stop ∧
      image.bytes.length = stop - nullGuard := by
  obtain ⟨⟨entries, stop⟩, hplace, hbuild⟩ := bind_eq_ok.mp hbuild
  obtain ⟨bytes, hfill, himage⟩ := bind_eq_ok.mp hbuild
  obtain rfl := pure_eq_ok.mp himage
  refine ⟨stop, follows_of_place hplace, ?_⟩
  rw [Image.length_fill hfill, List.length_replicate]

/-- A part of the image is what a memory that starts with it has there. -/
theorem read_withGlobals {bytes : List UInt8} {start len : Nat} (hend : start + len ≤ bytes.length)
    (hfits : nullGuard + bytes.length < twoPow 64) :
    (Memory.withGlobals bytes).read (UInt64.ofNat (nullGuard + start)) (UInt64.ofNat len) =
      .ok ((bytes.drop start).take len) := by
  have hstart : (UInt64.ofNat (nullGuard + start)).toNat = nullGuard + start :=
    Nat.mod_eq_of_lt (Nat.lt_of_le_of_lt (by omega) hfits)
  have hlen : (UInt64.ofNat len).toNat = len :=
    Nat.mod_eq_of_lt (Nat.lt_of_le_of_lt (by omega) hfits)
  have hsize := length_le_size_withGlobals bytes
  have htake : ((bytes.drop start).take len).length = len := by
    rw [List.length_take, List.length_drop]
    omega
  refine Memory.read_eq_ok.mpr ⟨by omega, ?_⟩
  rw [hstart, hlen]
  have hbytes : ∀ i < ((bytes.drop start).take len).length,
      (Memory.withGlobals bytes).byte? (nullGuard + start + i) =
        ((bytes.drop start).take len)[i]? := by
    intro i hi
    rw [Nat.add_assoc, byte?_withGlobals (by omega), List.getElem?_take_of_lt (by omega),
      List.getElem?_drop]
  have hslice := Memory.slice_eq (by omega) hbytes
  rwa [htake] at hslice

/-- An image whose addresses are words has one entry for each global, in their order. The address is
behind the guard and a multiple of the alignment, whichever was asked for. Each global ends before
the next starts, and the image ends with the last. Every slot lies in the image, and so in the
region of the globals in a memory that starts with the image: there it can be read. -/
theorem globals_aligned_and_ordered (hbuild : ofGlobals limit constName globals = .ok image)
    (hfits : nullGuard + image.bytes.length < twoPow 64) :
    List.Forall₂ (fun g e => e.id = g.id ∧ e.constName = constName g.id ∧
      ∃ l, ofType limit g.ty = .ok l ∧ e.size = l.size ∧
        max (max (g.align.getD 1) l.align) 1 ∣ e.address) globals image.entries ∧
    (image.entries.Pairwise fun e e' => e.address + e.size ≤ e'.address) ∧
    image.bytes.length =
      (image.entries.getLast?.map fun e => e.address + e.size).getD nullGuard - nullGuard ∧
    ∀ e ∈ image.entries, nullGuard ≤ e.address ∧ (slot e).stop ≤ image.bytes.length ∧
      e.address + e.size ≤ (Memory.withGlobals image.bytes).stackBase ∧
      (Memory.withGlobals image.bytes).read (UInt64.ofNat e.address) (UInt64.ofNat e.size) =
        .ok ((image.bytes.drop (slot e).start).take e.size) := by
  obtain ⟨stop, hfollows, hlength⟩ := exists_follows hbuild
  refine ⟨hfollows.forall₂, hfollows.pairwise, ?_, fun e he => ?_⟩
  · rw [hlength, ← hfollows.stop_eq]
  · obtain ⟨hguard, hstop⟩ := hfollows.bounds e he
    have hslot : (slot e).start + e.size ≤ image.bytes.length := by
      show e.address - nullGuard + e.size ≤ _
      omega
    have hbase : nullGuard + image.bytes.length ≤ (Memory.withGlobals image.bytes).stackBase :=
      le_alignUp ..
    have haddress : nullGuard + (slot e).start = e.address := Nat.add_sub_cancel' hguard
    refine ⟨hguard, hslot, by omega, ?_⟩
    rw [← haddress]
    exact read_withGlobals hslot hfits

end

/-- A byte that asks for no alignment, an empty array and a halfword that ask for no powers of two,
and a record that asks for less than its fields do. -/
def oddGlobals : List Global :=
  [⟨⟨0⟩, "a", .int 8, false, some (.int 7), some 0⟩,
    ⟨⟨1⟩, "b", .array 0 (.int 64), false, none, some 12⟩,
    ⟨⟨2⟩, "c", .int 16, true, some (.int 258), some 3⟩,
    ⟨⟨3⟩, "d", .struct false [.int 8, .ptr], false, none, some 6⟩]

/-- Each stands at the next multiple of its natural alignment, whatever it asks for. -/
theorem oddGlobals_aligned_and_ordered :
    ∃ image, ofGlobals 64 GlobalId.text oddGlobals = .ok image ∧
      nullGuard + image.bytes.length < twoPow 64 ∧
      image.entries.map (fun e => (e.address, e.size)) = [(64, 1), (72, 0), (72, 2), (80, 16)] ∧
      image.bytes.length = 32 ∧ (Memory.withGlobals image.bytes).stackBase = 96 ∧
      (Memory.withGlobals image.bytes).read 72 2 = .ok [2, 1] := by
  refine ⟨_, rfl, by decide, by decide, by decide, by decide, ?_⟩
  have hmain := (@globals_aligned_and_ordered 64 GlobalId.text oddGlobals _ rfl (by decide)).2.2.2
  exact (hmain _ (.tail _ (.tail _ (.head _)))).2.2.2

end SafeIR.Layout
