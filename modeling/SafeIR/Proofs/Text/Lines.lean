import Mathlib.Data.List.Basic
import SafeIR.Text.Blank

/-!
# Lines of a text

Text that is put together from pieces divides into lines where its pieces do, if the pieces end with
a line feed. `margin` follows a text from the start of a line or from inside one, and stops if a
line begins with a slash, so that pieces can be followed one after the other.
-/

namespace SafeIR.Text

variable {cs line : List Char} {s : String}

/-! ## Text without line feeds -/

/-- The text has no line feed. -/
def Unbroken (s : String) : Prop := '\n' ∉ s.toList

instance (s : String) : Decidable (Unbroken s) := inferInstanceAs (Decidable ('\n' ∉ s.toList))

@[simp] theorem unbroken_append {t : String} : Unbroken (s ++ t) ↔ Unbroken s ∧ Unbroken t := by
  simp [Unbroken, String.toList_append]

/-- For a literal it is enough to look at its characters. -/
theorem unbroken_ofList (h : '\n' ∉ cs) : Unbroken (String.ofList cs) := by
  rwa [Unbroken, String.toList_ofList]

theorem unbroken_intercalate {l : List String} (hs : Unbroken s) (hl : ∀ t ∈ l, Unbroken t) :
    Unbroken (s.intercalate l) := by
  induction l with
  | nil => simp [Unbroken]
  | cons t l ih =>
    have ht := hl t List.mem_cons_self
    have hrest := ih fun u hu => hl u (List.mem_cons_of_mem t hu)
    by_cases hnil : l = []
    · rw [hnil, String.intercalate_singleton]
      exact ht
    · rw [String.intercalate_cons_of_ne_nil hnil]
      simp [ht, hs, hrest]

theorem unbroken_nat (n : Nat) : Unbroken (toString n) := by
  intro h
  rw [Nat.toString_eq_ofList_toDigits, String.toList_ofList] at h
  have hdigit := Nat.isDigit_of_mem_toDigits (by decide) (by decide) h
  revert hdigit
  decide

/-! ## Division into lines -/

theorem linesFrom_newline (cs line : List Char) :
    linesFrom ('\n' :: cs) line = dropReturn line.reverse :: linesFrom cs [] := by
  cases line <;> rfl

theorem linesFrom_char {c : Char} (hc : c ≠ '\n') (cs line : List Char) :
    linesFrom (c :: cs) line = linesFrom cs (c :: line) := by
  cases line <;> simp [linesFrom]

/-- What stands behind a line feed is divided by itself. -/
theorem linesFrom_append (cs rest line : List Char) :
    linesFrom (cs ++ '\n' :: rest) line = linesFrom (cs ++ ['\n']) line ++ linesFrom rest [] := by
  induction cs generalizing line with
  | nil => simp [linesFrom_newline, linesFrom]
  | cons c cs ih =>
    by_cases hc : c = '\n'
    · subst hc
      simp [linesFrom_newline, ih]
    · simp [linesFrom_char hc, ih]

theorem dropReturn_of_getLast? (h : line.getLast? ≠ some '\r') : dropReturn line = line := by
  unfold dropReturn
  split
  next r hr => exact absurd (by rw [List.getLast?_eq_head?_reverse, hr, List.head?_cons]) h
  next => rfl

/-- Text without line feeds is put on the current line. -/
theorem linesFrom_skip (h : '\n' ∉ cs) (rest line : List Char) :
    linesFrom (cs ++ rest) line = linesFrom rest (cs.reverse ++ line) := by
  induction cs generalizing line with
  | nil => rfl
  | cons c cs ih =>
    obtain ⟨hc, hcs⟩ := not_or.mp (mt List.mem_cons.mpr h)
    rw [List.cons_append, linesFrom_char (Ne.symm hc), ih hcs, List.reverse_cons, List.append_assoc]
    rfl

theorem linesFrom_ne_nil (cs : List Char) (h : line ≠ []) : linesFrom cs line ≠ [] := by
  induction cs generalizing line with
  | nil =>
    cases line with
    | nil => exact absurd rfl h
    | cons => simp [linesFrom]
  | cons c cs ih =>
    by_cases hc : c = '\n'
    · subst hc
      simp [linesFrom_newline]
    · rw [linesFrom_char hc]
      exact ih (List.cons_ne_nil c line)

theorem lines_line (h : Unbroken s) (hlast : s.toList.getLast? ≠ some '\r') :
    lines (s ++ "\n") = [s] := by
  have htext : (s ++ "\n").toList = s.toList ++ ['\n'] := String.toList_append
  rw [lines, htext, linesFrom_skip h, linesFrom_newline, List.append_nil, List.reverse_reverse,
    dropReturn_of_getLast? hlast, linesFrom, List.map_singleton, String.ofList_toList]

/-- What stands behind a line feed is divided by itself. -/
theorem lines_line_append (s t : String) :
    lines (s ++ "\n" ++ t) = lines (s ++ "\n") ++ lines t := by
  have htext : (s ++ "\n").toList = s.toList ++ ['\n'] := String.toList_append
  rw [lines, lines, String.toList_append, htext, List.append_assoc, List.singleton_append,
    linesFrom_append, List.map_append]
  rfl

theorem dropReturn_subset (line : List Char) : dropReturn line ⊆ line := by
  unfold dropReturn
  split
  next r hr =>
    intro c hc
    have hmem : c ∈ line.reverse := by
      rw [hr]
      exact List.mem_cons_of_mem _ (List.mem_reverse.mp hc)
    exact List.mem_reverse.mp hmem
  next => exact List.Subset.refl _

/-- A line has no line feed. -/
theorem not_mem_of_mem_linesFrom {l : List Char} (hline : '\n' ∉ line) (h : l ∈ linesFrom cs line) :
    '\n' ∉ l := by
  induction cs generalizing line with
  | nil =>
    cases line with
    | nil => cases h
    | cons c line =>
      obtain rfl := List.mem_singleton.mp h
      exact fun hmem => hline (List.mem_reverse.mp hmem)
  | cons c cs ih =>
    by_cases hc : c = '\n'
    · subst hc
      rw [linesFrom_newline] at h
      rcases List.mem_cons.mp h with rfl | h
      · exact fun hmem => hline (List.mem_reverse.mp (dropReturn_subset _ hmem))
      · exact ih (by simp) h
    · rw [linesFrom_char hc] at h
      have hline' : '\n' ∉ c :: line := by simp [hline, Ne.symm hc]
      exact ih hline' h

theorem unbroken_of_mem_lines {line : String} (h : line ∈ lines s) : Unbroken line := by
  obtain ⟨l, hl, rfl⟩ := List.mem_map.mp h
  rw [Unbroken, String.toList_ofList]
  exact not_mem_of_mem_linesFrom (by simp) hl

/-- What came before on a line changes none of the lines behind it. -/
theorem tail_linesFrom (cs line : List Char) :
    (linesFrom cs line).tail = (linesFrom cs []).tail := by
  induction cs generalizing line with
  | nil => cases line <;> rfl
  | cons c cs ih =>
    by_cases hc : c = '\n'
    · subst hc
      rw [linesFrom_newline, linesFrom_newline, List.tail_cons, List.tail_cons]
    · rw [linesFrom_char hc, linesFrom_char hc, ih, ih [c]]

theorem dropReturn_append {start : List Char} (h : start.getLast? ≠ some '\r') (rest : List Char) :
    ∃ rest', dropReturn (start ++ rest) = start ++ rest' := by
  unfold dropReturn
  split
  next r hr =>
    cases hrest : rest.reverse with
    | nil =>
      rw [List.reverse_append, hrest, List.nil_append] at hr
      exact absurd (by rw [List.getLast?_eq_head?_reverse, hr, List.head?_cons]) h
    | cons c rest' =>
      rw [List.reverse_append, hrest, List.cons_append] at hr
      cases hr
      exact ⟨rest'.reverse, by rw [List.reverse_append, List.reverse_reverse]⟩
  next => exact ⟨rest, rfl⟩

/-- The current line goes on from what came before on it. -/
theorem head?_linesFrom {start : List Char} (hstart : start.getLast? ≠ some '\r')
    {more l : List Char} (h : (linesFrom cs (more ++ start.reverse)).head? = some l) :
    ∃ rest, l = start ++ rest := by
  have hreverse : (more ++ start.reverse).reverse = start ++ more.reverse := by simp
  induction cs generalizing more with
  | nil =>
    cases hline : more ++ start.reverse with
    | nil =>
      rw [hline] at h
      cases h
    | cons c line =>
      rw [hline, linesFrom, ← hline, hreverse] at h
      · exact ⟨more.reverse, (Option.some.inj h).symm⟩
      · simp
  | cons c cs ih =>
    by_cases hc : c = '\n'
    · subst hc
      rw [linesFrom_newline, hreverse] at h
      obtain ⟨rest, hrest⟩ := dropReturn_append hstart more.reverse
      exact ⟨rest, (Option.some.inj h).symm.trans hrest⟩
    · rw [linesFrom_char hc, ← List.cons_append] at h
      exact ih h (by simp)

/-- Text without line feeds, in front of other text, goes in front of its first line. -/
theorem exists_lines_append {start : String} (h : Unbroken start) (hne : start.toList ≠ [])
    (hlast : start.toList.getLast? ≠ some '\r') (s : String) :
    ∃ rest, lines (start ++ s) = (start ++ rest) :: (lines s).tail := by
  have hlines : linesFrom (start ++ s).toList [] = linesFrom s.toList start.toList.reverse := by
    rw [String.toList_append, linesFrom_skip h, List.append_nil]
  have htail := tail_linesFrom s.toList start.toList.reverse
  cases hcases : linesFrom s.toList start.toList.reverse with
  | nil => exact absurd hcases (linesFrom_ne_nil _ (by simpa using hne))
  | cons l ls =>
    have hhead : (linesFrom s.toList ([] ++ start.toList.reverse)).head? = some l := by
      rw [List.nil_append, hcases, List.head?_cons]
    obtain ⟨rest, rfl⟩ := head?_linesFrom hlast hhead
    rw [hcases, List.tail_cons] at htail
    refine ⟨String.ofList rest, ?_⟩
    rw [lines, hlines, hcases, List.map_cons, String.ofList_append, String.ofList_toList, htail,
      List.map_tail, lines]

/-! ## The margin -/

/-- Follow a text from the start of a line, or from inside one, to its end: whether that is the
start of a line again. Nothing if a line begins with a slash. -/
def margin : Bool → List Char → Option Bool
  | start, [] => some start
  | start, c :: cs => if start && c == '/' then none else margin (c == '\n') cs

theorem margin_append (start : Bool) (cs cs' : List Char) :
    margin start (cs ++ cs') = (margin start cs).bind fun start => margin start cs' := by
  induction cs generalizing start with
  | nil => rfl
  | cons c cs ih =>
    simp only [List.cons_append, margin]
    split
    next => rfl
    next => exact ih _

/-- Text without line feeds stays inside a line. -/
theorem margin_of_not_mem (h : '\n' ∉ cs) : margin false cs = some false := by
  induction cs with
  | nil => rfl
  | cons c cs ih =>
    obtain ⟨hc, hcs⟩ := not_or.mp (mt List.mem_cons.mpr h)
    have hc : (c == '\n') = false := beq_eq_false_iff_ne.mpr (Ne.symm hc)
    rw [margin, Bool.false_and, hc]
    exact ih hcs

/-- The text leads from the start of a line, or from inside one, to the start of a line or to the
inside of one, and no line in it begins with a slash. -/
def Spans (start stop : Bool) (s : String) : Prop := margin start s.toList = some stop

instance (start stop : Bool) (s : String) : Decidable (Spans start stop s) :=
  inferInstanceAs (Decidable (margin start s.toList = some stop))

/-- To follow a literal it is enough to follow its characters. -/
theorem spans_ofList {start stop : Bool} (h : margin start cs = some stop) :
    Spans start stop (String.ofList cs) := by
  rw [Spans, String.toList_ofList, h]

theorem Spans.append {a b c : Bool} {t : String} (hs : Spans a b s) (ht : Spans b c t) :
    Spans a c (s ++ t) := by
  unfold Spans at *
  rw [String.toList_append, margin_append, hs, Option.bind_some, ht]

theorem Unbroken.spans (h : Unbroken s) : Spans false false s := margin_of_not_mem h

theorem spans_join {l : List String} {a : Bool} (h : ∀ s ∈ l, Spans a a s) :
    Spans a a (String.join l) := by
  induction l with
  | nil => rfl
  | cons s l ih =>
    rw [String.join_cons]
    exact (h s List.mem_cons_self).append (ih fun t ht => h t (List.mem_cons_of_mem s ht))

/-- Whole lines are divided by themselves, whatever follows. -/
theorem linesFrom_append_of_margin (rest : List Char) (h : margin line.isEmpty cs = some true) :
    linesFrom (cs ++ rest) line = linesFrom cs line ++ linesFrom rest [] := by
  induction cs generalizing line with
  | nil =>
    cases line with
    | nil => rfl
    | cons => cases h
  | cons c cs ih =>
    rw [margin] at h
    split at h
    next => cases h
    next =>
      by_cases hc : c = '\n'
      · subst hc
        have h : margin ([] : List Char).isEmpty cs = some true := h
        rw [List.cons_append, linesFrom_newline, linesFrom_newline, ih h, List.cons_append]
      · have h : margin (c :: line).isEmpty cs = some true := by
          rwa [beq_eq_false_iff_ne.mpr hc] at h
        rw [List.cons_append, linesFrom_char hc, linesFrom_char hc, ih h]

theorem Spans.lines_append (h : Spans true true s) (t : String) :
    lines (s ++ t) = lines s ++ lines t := by
  have h : margin ([] : List Char).isEmpty s.toList = some true := h
  rw [lines, String.toList_append, linesFrom_append_of_margin t.toList h, List.map_append]
  rfl

theorem head?_dropReturn {c : Char} (h : (dropReturn line).head? = some c) :
    line.head? = some c := by
  unfold dropReturn at h
  split at h
  next r hr =>
    have hline : line = r.reverse ++ ['\r'] := by
      rw [← List.reverse_reverse line, hr, List.reverse_cons]
    rw [hline, List.head?_append, h]
    rfl
  next => exact h

/-- None of the lines begins with a slash. -/
theorem head?_ne_of_mem_linesFrom {l : List Char} {stop : Bool}
    (hline : line.reverse.head? ≠ some '/') (h : margin line.isEmpty cs = some stop)
    (hl : l ∈ linesFrom cs line) : l.head? ≠ some '/' := by
  induction cs generalizing line with
  | nil =>
    cases line with
    | nil => cases hl
    | cons =>
      obtain rfl := List.mem_singleton.mp hl
      exact hline
  | cons c cs ih =>
    rw [margin] at h
    split at h
    next => cases h
    next hstart =>
      by_cases hc : c = '\n'
      · subst hc
        rw [linesFrom_newline] at hl
        rcases List.mem_cons.mp hl with rfl | hl
        · exact mt head?_dropReturn hline
        · have h : margin ([] : List Char).isEmpty cs = some stop := h
          exact ih (by simp) h hl
      · rw [linesFrom_char hc] at hl
        have h : margin (c :: line).isEmpty cs = some stop := by
          rwa [beq_eq_false_iff_ne.mpr hc] at h
        refine ih ?_ h hl
        -- The first character of a line is the one that the margin looks at.
        cases line with
        | nil => simpa using hstart
        | cons => simpa [List.head?_append] using hline

theorem Spans.head?_ne {l : String} {stop : Bool} (h : Spans true stop s) (hl : l ∈ lines s) :
    l.toList.head? ≠ some '/' := by
  obtain ⟨cs, hcs, rfl⟩ := List.mem_map.mp hl
  have h : margin ([] : List Char).isEmpty s.toList = some stop := h
  rw [String.toList_ofList]
  exact head?_ne_of_mem_linesFrom (by simp) h hcs

end SafeIR.Text
