import Mathlib.Data.List.Sections
import SafeIR.Proofs.Artifact.Summary
import SafeIR.Proofs.Artifact.Word
import SafeIR.Proofs.Layout.Extent
import SafeIR.Proofs.Reader.WellFormed

/-!
# Constants of generated modules

A generated module has a constant for the address of every global and one for the bytes of all of
them. The constants for addresses have well-formed names that differ from each other. The name of
the one for the bytes is not set aside for it: the module has that name twice exactly if a global
is called so, in one of the three spellings that are not divided into words.
-/

namespace SafeIR.Artifact

open Decimal (isDigit_of_mem_toString)
open Text (eq_or_eq_toLower isAlphanum_iff isLower_iff isUpper_iff toNat_toUpper)

/-! ## Names of constants -/

/-- The characters behind the start of the name of a constant. -/
def isConstantChar (c : Char) : Bool := c.isUpper || c.isDigit || c == '_'

/-- A constant may be called so: behind the start that all constants have there are capitals, digits
and underscores, and the language leaves the word free. -/
structure ConstantName (name : String) : Prop where
  form : ∃ tail, tail ≠ "" ∧ name = "GLOBAL_" ++ tail ∧ ∀ c ∈ tail.toList, isConstantChar c = true
  free : name ∉ unusable

theorem constantName_append {tail : String} (hne : tail ≠ "")
    (h : ∀ c ∈ tail.toList, isConstantChar c = true) : ConstantName ("GLOBAL_" ++ tail) := by
  refine ⟨⟨tail, hne, rfl, h⟩, not_mem_unusable ?_⟩
  rw [String.toList_append]
  exact List.mem_append_left _ (by decide)

theorem isConstantChar_of_mem_toString {n : Nat} {c : Char} (h : c ∈ (toString n).toList) :
    isConstantChar c = true := by
  simp [isConstantChar, isDigit_of_mem_toString h]

theorem isConstantChar_toUpper {c : Char} (h : c.isAlphanum = true) :
    isConstantChar c.toUpper = true := by
  by_cases hlower : c.isLower = true
  · have hupper : c.toUpper.isUpper = true := by
      have hrange := isLower_iff.mp hlower
      rw [isUpper_iff, toNat_toUpper, if_pos hlower]
      omega
    simp [isConstantChar, hupper]
  · have heq : c.toUpper = c := by rw [← Char.toNat_inj, toNat_toUpper, if_neg hlower]
    rw [heq]
    rcases isAlphanum_iff.mp h with hupper | hlower' | hdigit
    · simp [isConstantChar, hupper]
    · exact absurd hlower' hlower
    · simp [isConstantChar, hdigit]

theorem joined_upper {symbol : List Char} :
    ∀ c ∈ (joined Char.toUpper (words symbol)).toList, isConstantChar c = true := by
  intro c hc
  rcases of_mem_joined hc with rfl | ⟨w, hw, d, hd, rfl⟩
  · rfl
  · exact isConstantChar_toUpper (isAlphanum_of_mem_words hw d hd)

theorem globalIdent_constantName (index : Nat) (name : String) :
    ConstantName (globalIdent index name) := by
  unfold globalIdent
  extract_lets ident
  split
  next =>
    exact constantName_append (by simp) fun c => isConstantChar_of_mem_toString
  next hne =>
    exact constantName_append (by simpa using hne) joined_upper

theorem globalNames_constantName (m : IR.Module) : ∀ name ∈ globalNames m, ConstantName name := by
  refine forall_mem_freshAll (fun base n hbase => ?_) fun base hbase => ?_
  · obtain ⟨tail, hne, rfl, hchars⟩ := hbase.form
    rw [String.append_assoc, String.append_assoc]
    refine constantName_append (by simp) fun c hc => ?_
    simp only [String.toList_append, List.mem_append] at hc
    rcases hc with hc | hc | hc
    · exact hchars c hc
    · rw [List.mem_singleton.mp hc]
      rfl
    · exact isConstantChar_of_mem_toString hc
  · obtain ⟨g, -, rfl⟩ := List.mem_map.mp hbase
    exact globalIdent_constantName g.id.index g.name

/-! ## The name of the image -/

/-- The spellings of a global that make its constant that of the image. -/
def imageSpellings : List (List Char) := ["image".toList, "Image".toList, "IMAGE".toList]

/-- Of all ways to write the word in small and capital letters, three are not divided. -/
theorem mem_imageSpellings {w : List Char} (hupper : w.map Char.toUpper = "IMAGE".toList)
    (hword : wordsFrom .none [] w = [w]) : w ∈ imageSpellings := by
  have hlength := congrArg List.length hupper
  simp only [List.length_map] at hlength
  match w, hlength with
  | [a, b, c, d, e], _ =>
    have hall : ∀ w ∈ List.sections [['I', 'i'], ['M', 'm'], ['A', 'a'], ['G', 'g'], ['E', 'e']],
        wordsFrom .none [] w = [w] → w ∈ imageSpellings := by decide
    have hupper : [a.toUpper, b.toUpper, c.toUpper, d.toUpper, e.toUpper]
        = ['I', 'M', 'A', 'G', 'E'] := hupper
    simp only [List.cons.injEq, and_true] at hupper
    obtain ⟨ha, hb, hc, hd, he⟩ := hupper
    have hcase : ∀ {x y : Char}, x.toUpper = y → x ∈ [y, y.toLower] :=
      fun h => List.mem_pair.mpr (eq_or_eq_toLower h)
    refine hall _ (List.mem_sections.mpr ?_) hword
    exact .cons (hcase ha) (.cons (hcase hb) (.cons (hcase hc) (.cons (hcase hd)
      (.cons (hcase he) .nil))))

theorem joined_eq_image {symbol : List Char} :
    joined Char.toUpper (words symbol) = "IMAGE" ↔ trimmed symbol ∈ imageSpellings := by
  constructor
  · intro h
    obtain ⟨w, hwords, hupper⟩ := eq_singleton_of_joined h (by decide) (by decide)
    obtain ⟨rfl, -, -, hword⟩ := words_eq_singleton.mp hwords
    exact mem_imageSpellings hupper hword
  · intro h
    have hspelling : ∀ w ∈ imageSpellings, w ≠ [] ∧ w.all Char.isAlphanum = true ∧
        wordsFrom .none [] w = [w] ∧ w.map Char.toUpper = "IMAGE".toList := by decide
    obtain ⟨hne, halphanum, hword, hupper⟩ := hspelling _ h
    have hwords := words_eq_singleton.mpr ⟨rfl, hne, List.all_eq_true.mp halphanum, hword⟩
    rw [hwords, ← String.toList_inj, joined_singleton, hupper]

theorem toString_ne_image (n : Nat) : toString n ≠ "IMAGE" := by
  intro h
  have hmem : 'I' ∈ (toString n).toList := by
    rw [h]
    decide
  have hdigit := isDigit_of_mem_toString hmem
  revert hdigit
  decide

theorem globalIdent_eq_image (index : Nat) (name : String) :
    globalIdent index name = "GLOBAL_IMAGE" ↔ trimmed name.toList ∈ imageSpellings := by
  have himage : "GLOBAL_IMAGE" = "GLOBAL_" ++ "IMAGE" := rfl
  rw [← joined_eq_image, himage]
  unfold globalIdent
  extract_lets ident
  split
  next hempty =>
    have hident : ident = "" := by simpa using hempty
    rw [String.append_right_inj]
    refine iff_of_false (toString_ne_image index) fun heq => ?_
    exact absurd (hident.symm.trans heq) (by decide)
  next => exact String.append_right_inj _

/-- A name with a number ends with a digit. -/
theorem numbered_ne_image (base : String) (n : Nat) :
    base ++ "_" ++ toString n ≠ "GLOBAL_IMAGE" := by
  intro h
  have hlast : (toString n).toList.getLast? = some 'E' := by
    have htext := congrArg (fun s : String => s.toList.getLast?) h
    have hne : (toString n).toList ≠ [] := by simp
    rw [String.toList_append, List.getLast?_append_of_ne_nil _ hne] at htext
    exact htext
  have hdigit := isDigit_of_mem_toString (List.mem_of_getLast? hlast)
  revert hdigit
  decide

theorem image_mem_globalNames (m : IR.Module) :
    "GLOBAL_IMAGE" ∈ globalNames m ↔ ∃ g ∈ m.globals, trimmed g.name.toList ∈ imageSpellings := by
  constructor
  · intro h
    rcases of_mem_freshAll h with h | ⟨base, n, h⟩
    · obtain ⟨g, hg, hident⟩ := List.mem_map.mp h
      exact ⟨g, hg, (globalIdent_eq_image _ _).mp hident⟩
    · exact absurd h.symm (numbered_ne_image base n)
  · rintro ⟨g, hg, hname⟩
    have hbase : "GLOBAL_IMAGE" ∈ m.globals.map fun g => globalIdent g.id.index g.name :=
      List.mem_map.mpr ⟨g, hg, (globalIdent_eq_image _ _).mpr hname⟩
    exact (mem_freshAll hbase).resolve_left (by simp)

/-! ## Constants of a module -/

/-- The constants that a generated module declares: the addresses of the globals, in their order,
and the image. -/
def constants (a : Artifact) : List String :=
  a.globals.entries.map Layout.Entry.constName ++ ["GLOBAL_IMAGE"]

/-- Where globals are numbered by their places, they get the names made for them, in their order. -/
theorem map_constName {m : IR.Module} {limit : Nat} {image : Layout.Image}
    (hids : ∀ (i : Nat) (g : IR.Global), m.globals[i]? = some g → g.id = ⟨i⟩)
    (h : Layout.Image.ofGlobals limit (fun id =>
      ((globalNames m)[id.index]?).getD ("GLOBAL_" ++ toString id.index)) m.globals = .ok image) :
    image.entries.map Layout.Entry.constName = globalNames m := by
  obtain ⟨⟨entries, stop⟩, hplace, h⟩ := bind_eq_ok.mp h
  obtain ⟨bytes, -, h⟩ := bind_eq_ok.mp h
  cases h
  have hentries : entries.map Layout.Entry.constName = (entries.map Layout.Entry.id).map fun id =>
      ((globalNames m)[id.index]?).getD ("GLOBAL_" ++ toString id.index) := by
    rw [List.map_map]
    exact List.map_congr_left (constName_of_mem_place hplace)
  have hlength : (globalNames m).length = m.globals.length := by
    rw [globalNames, length_freshAll, List.length_map]
  rw [hentries, Layout.Image.map_id_place hplace, List.map_map]
  refine List.ext_getElem? fun i => ?_
  rw [List.getElem?_map]
  cases hg : m.globals[i]? with
  | none =>
    rw [List.getElem?_eq_none_iff] at hg
    exact (List.getElem?_eq_none (hlength ▸ hg)).symm
  | some g =>
    have hi : i < (globalNames m).length := by
      rw [hlength]
      exact (List.getElem?_eq_some_iff.mp hg).1
    simp [hids i g hg, List.getElem?_eq_getElem hi]

/-- **Constants clash only over the image.** The constants for addresses have well-formed names that
differ from each other. With the image they are different exactly if no global has a name that says
`image` and nothing else, in small letters, in capitals or with a capital in front. -/
theorem constants_nodup_iff {options : Options} {cancelled : Bool} {m : IR.Module} {a : Artifact}
    (hids : ∀ (i : Nat) (g : IR.Global), m.globals[i]? = some g → g.id = ⟨i⟩)
    (h : ofModule options cancelled m = .ok a) :
    (∀ e ∈ a.globals.entries, ConstantName e.constName) ∧
      (a.globals.entries.map Layout.Entry.constName).Nodup ∧
      (a.constants.Nodup ↔ ∀ g ∈ m.globals, trimmed g.name.toList ∉ imageSpellings) := by
  obtain ⟨_, _, -, hglobals, -⟩ := ofModule_eq_ok h
  have hnames := map_constName hids hglobals
  have hnodup : (globalNames m).Nodup := (freshAll_nodup _ _).1
  refine ⟨fun e he => ?_, hnames ▸ hnodup, ?_⟩
  · refine globalNames_constantName m _ ?_
    rw [← hnames]
    exact List.mem_map.mpr ⟨e, he, rfl⟩
  · rw [constants, hnames, List.nodup_append]
    have himage := not_congr (image_mem_globalNames m)
    push Not at himage
    rw [← himage]
    constructor
    · rintro ⟨-, -, hdisjoint⟩ hmem
      exact hdisjoint _ hmem _ (List.mem_singleton_self _) rfl
    · intro hnot
      refine ⟨hnodup, List.nodup_singleton _, fun name hname image himage heq => hnot ?_⟩
      rw [← List.mem_singleton.mp himage, ← heq]
      exact hname

/-- Globals with names that become the same, and one that has the word and another. -/
def alikeGlobals : List UInt8 :=
  "@aB = global i8 1\n@a.b = global i8 2\n@$ = global i8 3\n@image.size = global i8 4".toUTF8.toList

/-- None of them is called like the constant for the image. -/
theorem constants_nodup_iff_alike :
    ∃ m a, IR.Module.read alikeGlobals = .ok m ∧ ofModule {} false m = .ok a ∧
      a.constants =
        ["GLOBAL_A_B", "GLOBAL_A_B_2", "GLOBAL_2", "GLOBAL_IMAGE_SIZE", "GLOBAL_IMAGE"] ∧
      a.constants.Nodup := by
  have htest : okAnd (IR.Module.read alikeGlobals) (fun m =>
      decide (∀ g ∈ m.globals, trimmed g.name.toList ∉ imageSpellings) &&
      okAnd (ofModule {} false m) fun a => decide (a.constants =
        ["GLOBAL_A_B", "GLOBAL_A_B_2", "GLOBAL_2", "GLOBAL_IMAGE_SIZE", "GLOBAL_IMAGE"])) =
      true := by
    decide +kernel
  obtain ⟨m, hm, htest⟩ := exists_of_okAnd htest
  obtain ⟨hnames, hartifact⟩ := Bool.and_eq_true_iff.mp htest
  obtain ⟨a, ha, hconstants⟩ := exists_of_okAnd hartifact
  refine ⟨m, a, hm, ha, of_decide_eq_true hconstants, ?_⟩
  have hids := (IR.Module.wellFormed_of_read hm).globalIds
  exact (constants_nodup_iff hids ha).2.2.mpr (of_decide_eq_true hnames)

/-- A global that is called like the image. -/
def imageGlobal : List UInt8 := "@image = global i32 7".toUTF8.toList

/-- Its constant and the image are declared under one name. -/
theorem image_declared_twice :
    ∃ m a, IR.Module.read imageGlobal = .ok m ∧ ofModule {} false m = .ok a ∧
      a.constants = ["GLOBAL_IMAGE", "GLOBAL_IMAGE"] := by
  have htest : okAnd (IR.Module.read imageGlobal) (fun m => okAnd (ofModule {} false m) fun a =>
      decide (a.constants = ["GLOBAL_IMAGE", "GLOBAL_IMAGE"])) = true := by decide +kernel
  obtain ⟨m, hm, hartifact⟩ := exists_of_okAnd htest
  obtain ⟨a, ha, hconstants⟩ := exists_of_okAnd hartifact
  exact ⟨m, a, hm, ha, of_decide_eq_true hconstants⟩

end SafeIR.Artifact
