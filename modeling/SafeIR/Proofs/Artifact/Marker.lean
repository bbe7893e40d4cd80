import SafeIR.Artifact.Summary
import SafeIR.Proofs.Text.Lines
import SafeIR.Proofs.Text.Numeral

/-!
# Lines that mark functions

What a summary reads from text that is put together from pieces. A line that marks a function is
read back as its name and its number of blocks, if the name has no line feed and the number fits in
a word; nothing else is ever read. Whole lines that do not begin with a slash mark nothing.
-/

namespace SafeIR.Artifact

open Decimal (isDigit_of_mem_toString unsigned?_toString)
open Text (Spans Unbroken unbroken_append unbroken_nat)

/-! ## Division at a separator -/

theorem after?_append (start cs : List Char) : after? start (start ++ cs) = some cs := by
  induction start with
  | nil => rfl
  | cons x start ih => simpa [after?] using ih

theorem eq_append_of_after? {start cs rest : List Char} (h : after? start cs = some rest) :
    cs = start ++ rest := by
  fun_induction after? start cs with
  | case1 cs => exact Option.some.inj h
  | case2 xs c cs ih => rw [ih h, List.cons_append]
  | case3 x xs c cs hne => cases h
  | case4 => cases h

theorem eq_append_of_splitLast? {separator cs before rest : List Char}
    (h : splitLast? separator cs = some (before, rest)) : cs = before ++ separator ++ rest := by
  induction cs generalizing before rest with
  | nil =>
    obtain ⟨r, hr, heq⟩ := Option.map_eq_some_iff.mp h
    cases heq
    exact eq_append_of_after? hr
  | cons c cs ih =>
    rw [splitLast?] at h
    split at h
    next before' rest' hsplit =>
      cases h
      rw [ih hsplit]
      rfl
    next =>
      obtain ⟨r, hr, heq⟩ := Option.map_eq_some_iff.mp h
      cases heq
      exact eq_append_of_after? hr

theorem splitLast?_eq_none {x : Char} (xs : List Char) {cs : List Char} (h : x ∉ cs) :
    splitLast? (x :: xs) cs = none := by
  induction cs with
  | nil => rfl
  | cons c cs ih =>
    obtain ⟨hc, hcs⟩ := not_or.mp (mt List.mem_cons.mpr h)
    rw [splitLast?, ih hcs]
    simp [after?, hc]

/-- The last separator is the one behind which its first character does not occur. -/
theorem splitLast?_append {x : Char} {xs rest : List Char} (before : List Char)
    (h : x ∉ xs ++ rest) :
    splitLast? (x :: xs) (before ++ (x :: xs) ++ rest) = some (before, rest) := by
  induction before with
  | nil =>
    rw [List.nil_append, List.cons_append, splitLast?, splitLast?_eq_none xs h]
    simp [after?, after?_append]
  | cons c before ih => simp only [List.cons_append, splitLast?, ih]

/-! ## Numbers -/

theorem trim_of_forall {cs : List Char} (h : ∀ c ∈ cs, Text.isBlank c = false) :
    Text.trim cs = cs := by
  have hdrop {l : List Char} (hl : ∀ c ∈ l, Text.isBlank c = false) :
      l.dropWhile Text.isBlank = l := by
    cases l with
    | nil => rfl
    | cons c l => simp [hl c List.mem_cons_self]
  rw [Text.trim, hdrop h, hdrop fun c hc => h c (List.mem_reverse.mp hc), List.reverse_reverse]

theorem isBlank_of_isDigit {c : Char} (h : c.isDigit = true) : Text.isBlank c = false := by
  have hrange : 48 ≤ c.toNat ∧ c.toNat ≤ 57 := by
    simpa [Char.isDigit, UInt32.le_iff_toNat_le] using h
  simp only [Text.isBlank, Bool.or_eq_false_iff, Bool.and_eq_false_iff, decide_eq_false_iff_not,
    beq_eq_false_iff_ne]
  omega

/-! ## Marked lines -/

theorem marked?_marker (name : String) {n : Nat} (hn : n < twoPow 64) :
    marked? (marker ++ name ++ " blocks=" ++ toString n) = some (name, n) := by
  have hafter : after? marker.toList (marker ++ name ++ " blocks=" ++ toString n).toList
      = some (name.toList ++ " blocks=".toList ++ (toString n).toList) := by
    simp only [String.toList_append, List.append_assoc, after?_append]
  have hspace : ' ' ∉ "blocks=".toList ++ (toString n).toList := by
    intro h
    rcases List.mem_append.mp h with h | h
    · revert h
      decide
    · exact absurd (isDigit_of_mem_toString h) (by decide)
  have hsplit : splitLast? " blocks=".toList
      (name.toList ++ " blocks=".toList ++ (toString n).toList)
      = some (name.toList, (toString n).toList) := splitLast?_append name.toList hspace
  have htrim : Text.trim (toString n).toList = (toString n).toList :=
    trim_of_forall fun c hc => isBlank_of_isDigit (isDigit_of_mem_toString hc)
  have hcount : Decimal.unsigned? 64 (toString n).toList = some n := unsigned?_toString hn
  simp only [marked?, hafter, hsplit, htrim, hcount, Option.bind_eq_bind, Option.bind_some,
    Option.pure_def, String.ofList_toList]

theorem marked?_sound {line name : String} {n : Nat} (h : marked? line = some (name, n)) :
    name.toList ⊆ line.toList ∧ n < twoPow 64 := by
  obtain ⟨rest, hrest, h⟩ := Option.bind_eq_some_iff.mp h
  obtain ⟨⟨before, count⟩, hsplit, h⟩ := Option.bind_eq_some_iff.mp h
  obtain ⟨m, hm, h⟩ := Option.bind_eq_some_iff.mp h
  cases h
  refine ⟨?_, ?_⟩
  · intro c hc
    rw [String.toList_ofList] at hc
    rw [eq_append_of_after? hrest, eq_append_of_splitLast? hsplit]
    simp [hc]
  · have hlt := (Option.filter_eq_some_iff.mp hm).2
    exact of_decide_eq_true hlt

/-- A line that differs from the marker at some place marks nothing. -/
theorem marked?_eq_none {line : String} {i : Nat} (hi : i < marker.toList.length)
    (h : line.toList[i]? ≠ marker.toList[i]?) : marked? line = none := by
  cases hafter : after? marker.toList line.toList with
  | none =>
    rw [marked?, hafter]
    rfl
  | some rest =>
    rw [eq_append_of_after? hafter, List.getElem?_append_left hi] at h
    exact absurd rfl h

/-! ## Summaries of pieces -/

/-- Whole lines that do not begin with a slash add nothing to a summary. -/
theorem summary_append_of_spans {s : String} (h : Spans true true s) (t : String) :
    summary (s ++ t) = summary t := by
  have hslash : marker.toList.head? = some '/' := by simp [marker]
  have hnone : (Text.lines s).filterMap marked? = [] := by
    refine List.filterMap_eq_nil_iff.mpr fun l hl => marked?_eq_none (i := 0) (by simp [marker]) ?_
    rw [← List.head?_eq_getElem?, ← List.head?_eq_getElem?, hslash]
    exact h.head?_ne hl
  rw [summary, h.lines_append, List.filterMap_append, hnone]
  rfl

theorem summary_line_append (s t : String) :
    (summary (s ++ "\n" ++ t)).functions
      = (summary (s ++ "\n")).functions ++ (summary t).functions := by
  simp only [summary, Text.lines_line_append, List.filterMap_append]

/-- The line before a function is read back, unless it is more than one line. -/
theorem summary_markerLine_append {f : Target.Function} (hname : Unbroken f.sourceName)
    (hblocks : f.blocks.length < twoPow 64) (t : String) :
    (summary (markerLine f ++ t)).functions
      = (f.sourceName, f.blocks.length) :: (summary t).functions := by
  have hunbroken : Unbroken (marker ++ f.sourceName ++ " blocks=" ++ toString f.blocks.length) := by
    simp only [unbroken_append]
    exact ⟨⟨⟨by decide, hname⟩, by decide⟩, unbroken_nat _⟩
  -- The line ends with a digit, so no carriage return is dropped from it.
  have hlast : (marker ++ f.sourceName ++ " blocks=" ++ toString f.blocks.length).toList.getLast?
      ≠ some '\r' := by
    intro h
    rw [String.toList_append, List.getLast?_append] at h
    cases hdigit : (toString f.blocks.length).toList.getLast? with
    | none =>
      rw [List.getLast?_eq_none_iff, Nat.toString_eq_ofList_toDigits,
        String.toList_ofList] at hdigit
      exact Nat.toDigits_ne_nil hdigit
    | some c =>
      rw [hdigit, Option.some_or] at h
      cases h
      exact absurd (isDigit_of_mem_toString (List.mem_of_getLast? hdigit)) (by decide)
  rw [markerLine, summary_line_append, summary, Text.lines_line hunbroken hlast]
  simp only [List.filterMap_cons, marked?_marker f.sourceName hblocks, List.filterMap_nil,
    List.singleton_append]

/-- Whatever the text is, a name that is read has no line feed, and a number fits in a word. -/
theorem sound_of_mem_summary {text name : String} {n : Nat}
    (h : (name, n) ∈ (summary text).functions) : Unbroken name ∧ n < twoPow 64 := by
  obtain ⟨line, hline, hmark⟩ := List.mem_filterMap.mp h
  obtain ⟨hname, hn⟩ := marked?_sound hmark
  exact ⟨fun hbreak => Text.unbroken_of_mem_lines hline (hname hbreak), hn⟩

end SafeIR.Artifact
