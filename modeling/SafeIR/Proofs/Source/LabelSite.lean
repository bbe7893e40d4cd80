import SafeIR.Proofs.Peg.Edit
import SafeIR.Proofs.Peg.Row
import SafeIR.Proofs.Source.LabelLine

/-!
# Texts around a label

A label site is the part of a text from the line feed before a line that ends a block, over blanks
and the label of the next block, to the end of the text. The label may be replaced by another one,
and what a match comes to in the one text it should come to in the other. This depends on where the
match starts: ahead of the line, at the line, in the gap behind it, at the label or behind it.
-/

namespace SafeIR.Source

open Peg (Cursor Edit Expr Mode ParseTree literal? spanFrom size)
open Peg.Grammar
open Rule (isIdentChar)

/-- The characters that may stand between two parts. -/
def isBlankChar (c : Char) : Bool := c == ' ' || c == '\t' || c == '\r' || c == '\n'

/-- The name of a block, without quotes. -/
structure Label where
  chars : List Char
  ne_nil : chars ≠ []
  ident : ∀ c ∈ chars, isIdentChar c = true

theorem Label.size_pos (x : Label) : 0 < size x.chars := by
  rw [Nat.pos_iff_ne_zero]
  intro h
  exact x.ne_nil (Peg.size_eq_zero h)

/-- A line that ends a block. -/
inductive EndLine where
  | retVoid
  | unreachable
  | br (target : Label)

/-- The line as it is written. -/
def EndLine.chars : EndLine → List Char
  | retVoid => "ret void".toList
  | unreachable => "unreachable".toList
  | br target => "br label %".toList ++ target.chars

/-- The last line of a block and what stands behind it, up to a label and from its colon on. -/
structure LabelSite where
  indent : List Char
  line : EndLine
  gap : List Char
  /-- What stands behind the colon. -/
  tail : List Char
  indent_blank : ∀ c ∈ indent, isBlankChar c = true
  gap_blank : ∀ c ∈ gap, isBlankChar c = true
  gap_ne_nil : gap ≠ []

namespace LabelSite

variable (s : LabelSite) (x y : Label) (p : Nat) (v : List Char) (c : Cursor)

/-- The text from the label on. -/
def fromLabel : List Char := x.chars ++ ':' :: s.tail

/-- What stands before the label, from the start of the line. -/
def lead : List Char := s.indent ++ (s.line.chars ++ s.gap)

/-- The text with a label at the site. -/
def text (head : List Char) : List Char := head ++ '\n' :: (s.lead ++ s.fromLabel x)

/-- Where the label stands. -/
def labelOffset (head : List Char) : Nat := size head + 1 + size s.lead

/-- The text with another label: `x` stood at the offset `p`, and `y` replaces it. -/
def relabel : Edit where
  rest r :=
    if r.length ≤ s.tail.length + 1 then r
    else r.take (r.length - (s.fromLabel x).length) ++ s.fromLabel y
  offset o := if o ≤ p then o else o + size y.chars - size x.chars

/-! ## Positions -/

/-- Between the cursor and the label, which stands at the offset `p`, are the characters `v`. -/
def Before : Prop := c.rest = v ++ s.fromLabel x ∧ c.offset + size v = p

/-- Somewhere before the line. -/
def Ahead : Prop := ∃ v, s.Before x p (v ++ '\n' :: s.lead) c

/-- At the start of the line. -/
def AtLine : Prop := s.Before x p (s.line.chars ++ s.gap) c

/-- Between the line and the label. -/
def InGap : Prop := s.Before x p s.gap c

/-- At the label. -/
def AtLabel : Prop := s.Before x p [] c

/-- From the colon on. -/
def Behind : Prop :=
  ∃ b : Cursor, Cursor.Reaches ⟨':' :: s.tail, 0⟩ b ∧ c = b.moved (p + size x.chars) []

/-- Where a token that has no blanks in it can start or end. -/
def Sharp : Prop := s.Ahead x p c ∨ s.Behind x p c

/-- Where parts with blanks between them can start or end. -/
def Loose : Prop := s.Sharp x p c ∨ s.AtLine x p c

/-- Where an instruction can start, or blanks behind one end. -/
def Open : Prop := s.Loose x p c ∨ s.AtLabel x p c

variable {s x y p v c}

theorem Before.edit (h : s.Before x p v c) :
    c.edit (s.relabel x y p) = ⟨v ++ s.fromLabel y, c.offset⟩ := by
  obtain ⟨hrest, hoffset⟩ := h
  have hpos : 0 < x.chars.length := List.length_pos_iff.mpr x.ne_nil
  have hlong : ¬ c.rest.length ≤ s.tail.length + 1 := by
    simp only [hrest, fromLabel, List.length_append, List.length_cons]
    omega
  have htake : c.rest.take (c.rest.length - (s.fromLabel x).length) = v := by
    rw [hrest, List.length_append, Nat.add_sub_cancel, List.take_left]
  have hle : c.offset ≤ p := by omega
  simp only [Cursor.edit, relabel, if_neg hlong, htake, if_pos hle]

theorem Before.relabel (h : s.Before x p v c) :
    s.Before y p v (c.edit (s.relabel x y p)) := by
  rw [h.edit]
  exact ⟨rfl, h.2⟩

theorem edit_moved {b : Cursor} (h : Cursor.Reaches ⟨':' :: s.tail, 0⟩ b) :
    (b.moved (p + size x.chars) []).edit (s.relabel x y p) = b.moved (p + size y.chars) [] := by
  have hshort : (b.rest ++ []).length ≤ s.tail.length + 1 := by
    rw [List.append_nil]
    exact length_le_of_reaches h
  have hlate : ¬ b.offset + (p + size x.chars) ≤ p := by
    have hpos := x.size_pos
    omega
  have hsub : b.offset + (p + size x.chars) + size y.chars - size x.chars
      = b.offset + (p + size y.chars) := by omega
  simp only [Cursor.edit, Cursor.moved, LabelSite.relabel, if_pos hshort, if_neg hlate, hsub]

mutual

theorem tree_edit_moved : ∀ {t : ParseTree Rule} {a b : Cursor},
    Cursor.Reaches ⟨':' :: s.tail, 0⟩ a → t.Spans a b →
      (t.moved (p + size x.chars) []).edit (s.relabel x y p) = t.moved (p + size y.chars) []
  | .node r start input stop children, a, b, ha, h => by
    obtain ⟨rfl, rfl, hrow⟩ := h
    have hstart := edit_moved (x := x) (y := y) (p := p) ha
    have hstop := edit_moved (x := x) (y := y) (p := p) (ha.trans hrow.reaches)
    simp only [Cursor.edit, Cursor.moved, Cursor.mk.injEq] at hstart hstop
    rw [ParseTree.moved, ParseTree.edit, ParseTree.moved, hstart.1, hstart.2, hstop.2,
      trees_edit_moved ha hrow]

theorem trees_edit_moved : ∀ {ts : List (ParseTree Rule)} {a b : Cursor},
    Cursor.Reaches ⟨':' :: s.tail, 0⟩ a → ParseTree.Row ts a b →
      ParseTree.editAll (s.relabel x y p) (ParseTree.movedAll (p + size x.chars) [] ts)
        = ParseTree.movedAll (p + size y.chars) [] ts
  | [], _, _, _, _ => rfl
  | t :: ts, a, b, ha, h => by
    obtain ⟨start, stop, hstart, hspans, hrow⟩ := h
    rw [ParseTree.movedAll, ParseTree.editAll, ParseTree.movedAll,
      tree_edit_moved (ha.trans hstart) hspans,
      trees_edit_moved (ha.trans (hstart.trans hspans.reaches)) hrow]

end

/-- Behind the label everything is matched alike, since a match does not depend on what stands
before it. -/
theorem alike_behind (m : Mode) (e : Expr Rule) :
    grammar.Alike (s.relabel x y p) (s.Behind x p) (s.Behind x p) m e := by
  rintro d c o ⟨b, hb, rfl⟩ hne ho
  have hmoved (k : Nat) :
      grammar.outcome d m e (b.moved k []) = (grammar.outcome d m e b).moved k [] :=
    outcome_moved skipMoves d m e b (.inl rfl)
  rw [hmoved] at ho
  subst ho
  rw [edit_moved hb]
  cases ho : grammar.outcome d m e b with
  | stuck =>
    rw [ho] at hne
    exact absurd rfl hne
  | fail =>
    exact ⟨⟨by simp [Peg.Outcome.edit, Peg.Outcome.moved, Peg.Outcome.elim], d,
      by rw [hmoved, ho]; rfl⟩, by simp [Peg.Outcome.moved, Peg.Outcome.elim]⟩
  | ok next ts =>
    have hrow := (derives_of_outcome d ho).row skipReaches
    have htrees := trees_edit_moved (x := x) (y := y) (p := p) hb hrow
    rw [ParseTree.movedAll_eq_map, ParseTree.editAll_eq_map, ParseTree.movedAll_eq_map] at htrees
    have hnext := edit_moved (x := x) (y := y) (p := p) (hb.trans hrow.reaches)
    refine ⟨⟨by simp [Peg.Outcome.edit, Peg.Outcome.moved, Peg.Outcome.elim], d, ?_⟩, ?_⟩
    · rw [hmoved, ho]
      simp only [Peg.Outcome.edit, Peg.Outcome.moved, Peg.Outcome.elim, hnext, htrees]
    · intro next' us h
      cases h
      exact ⟨next, hb.trans hrow.reaches, rfl⟩

/-! ## Tokens -/

/-- The characters between the line feed before the line and the colon behind the label. -/
def isSiteChar (c : Char) : Bool := isIdentChar c || isBlankChar c || c == '%'

def siteChars : List Char := ((List.range 128).map Char.ofNat).filter isSiteChar

theorem lt_of_isSiteChar {z : Char} (h : isSiteChar z = true) : z.toNat < 128 := by
  simp only [isSiteChar, isIdentChar, Rule.isWordChar, isBlankChar, Bool.or_eq_true,
    beq_iff_eq] at h
  rcases h with (((((h | rfl) | rfl) | rfl) | rfl) | ((rfl | rfl) | rfl) | rfl) | rfl
  · rw [Text.isAlphanum_iff, Text.isUpper_iff, Text.isLower_iff, Char.isDigit_iff_toNat] at h
    change _ ∨ _ ∨ 48 ≤ z.toNat ∧ z.toNat ≤ 57 at h
    omega
  all_goals decide

theorem mem_siteChars {z : Char} (h : isSiteChar z = true) : z ∈ siteChars := by
  refine List.mem_filter.mpr ⟨List.mem_map.mpr ⟨z.toNat, ?_, Char.ofNat_toNat z⟩, h⟩
  exact List.mem_range.mpr (lt_of_isSiteChar h)

theorem isSiteChar_of_mem_line {l : EndLine} {z : Char} (h : z ∈ l.chars) :
    isSiteChar z = true := by
  cases l with
  | retVoid => exact List.all_eq_true.mp (by decide : "ret void".toList.all isSiteChar = true) z h
  | unreachable =>
    exact List.all_eq_true.mp (by decide : "unreachable".toList.all isSiteChar = true) z h
  | br target =>
    rcases List.mem_append.mp h with h | h
    · exact List.all_eq_true.mp (by decide : "br label %".toList.all isSiteChar = true) z h
    · simp [isSiteChar, target.ident z h]

theorem isSiteChar_of_mem_lead {z : Char} (h : z ∈ '\n' :: (s.lead ++ x.chars)) :
    isSiteChar z = true := by
  rcases List.mem_cons.mp h with rfl | h
  · decide
  · simp only [lead, List.mem_append] at h
    rcases h with (h | h | h) | h
    · simp [isSiteChar, s.indent_blank z h]
    · exact isSiteChar_of_mem_line h
    · simp [isSiteChar, s.gap_blank z h]
    · simp [isSiteChar, x.ident z h]

/-- A cursor as far from the line feed as its offset says. -/
theorem Before.slide {w : List Char} {o : Nat} (h : s.Before x p (v ++ '\n' :: s.lead) c)
    (ho : o + size w = c.offset + size v) :
    s.Before x p (w ++ '\n' :: s.lead) ⟨w ++ '\n' :: (s.lead ++ s.fromLabel x), o⟩ := by
  have hoffset := h.2
  simp only [Before, Peg.size_append] at hoffset ⊢
  exact ⟨by simp, by omega⟩

theorem Before.edit_slide (h : s.Before x p (v ++ '\n' :: s.lead) c) :
    c.edit (s.relabel x y p) = ⟨v ++ '\n' :: (s.lead ++ s.fromLabel y), c.offset⟩ := by
  rw [h.edit, List.append_assoc, List.cons_append]

theorem Ahead.literal {word : List Char} (hword : '\n' ∉ word) (h : s.Ahead x p c) :
    literal? word (c.edit (s.relabel x y p))
        = (literal? word c).map (Cursor.edit (s.relabel x y p)) ∧
      ∀ next, literal? word c = some next → s.Ahead x p next := by
  obtain ⟨v, hv⟩ := h
  obtain ⟨rest, offset⟩ := c
  obtain rfl : rest = v ++ '\n' :: (s.lead ++ s.fromLabel x) := by simpa using hv.1
  rw [hv.edit_slide, Peg.literal?_barrier hword, Peg.literal?_barrier hword]
  cases hpre : word.isPrefixOf? v with
  | none => simp
  | some v' =>
    obtain rfl : word ++ v' = v := List.isPrefixOf?_eq_some_iff_append_eq.mp hpre
    have hnext := hv.slide (w := v') (o := offset + size word) (by simp [Nat.add_assoc])
    refine ⟨?_, ?_⟩
    · rw [Option.map_some, Option.map_some, Option.map_some, hnext.edit_slide]
    · intro next h
      cases h
      exact ⟨v', hnext⟩

/-- The class of a run: either it ends before a line feed, or it has all characters of the site. -/
def crosses (q : Char → Bool) : Bool := !q '\n' || siteChars.all q

theorem Ahead.span {q : Char → Bool} (hq : crosses q = true) (h : s.Ahead x p c) :
    spanFrom q ((s.relabel x y p).rest c.rest) ((s.relabel x y p).offset c.offset)
        = (spanFrom q c.rest c.offset).edit (s.relabel x y p) ∧
      s.Sharp x p (spanFrom q c.rest c.offset) := by
  obtain ⟨v, hv⟩ := h
  obtain ⟨rest, offset⟩ := c
  obtain rfl : rest = v ++ '\n' :: (s.lead ++ s.fromLabel x) := by simpa using hv.1
  have hedit := hv.edit_slide (y := y)
  simp only [Cursor.edit, Cursor.mk.injEq] at hedit
  rw [hedit.1, hedit.2]
  -- where the run ends before the line feed
  have ends {w : List Char} {o : Nat} (ho : o + size w = offset + size v) :
      (⟨w ++ '\n' :: (s.lead ++ s.fromLabel y), o⟩ : Cursor)
          = Cursor.edit (s.relabel x y p) ⟨w ++ '\n' :: (s.lead ++ s.fromLabel x), o⟩ ∧
        s.Sharp x p ⟨w ++ '\n' :: (s.lead ++ s.fromLabel x), o⟩ :=
    ⟨(hv.slide ho).edit_slide.symm, .inl ⟨w, hv.slide ho⟩⟩
  have hsize : size (v.takeWhile q) + size (v.dropWhile q) = size v := by
    rw [← Peg.size_append, List.takeWhile_append_dropWhile]
  by_cases hall : v.all q = true
  · by_cases hline : q '\n' = true
    · -- the run goes on to the colon at least
      have hsite : siteChars.all q = true := by simpa [crosses, hline] using hq
      have pass (z : Label) : spanFrom q (v ++ '\n' :: (s.lead ++ s.fromLabel z)) offset
          = (spanFrom q (':' :: s.tail) 0).moved (p + size z.chars) [] := by
        have hz : ('\n' :: (s.lead ++ z.chars)).all q = true := by
          rw [List.all_eq_true]
          intro w hw
          exact List.all_eq_true.mp hsite w (mem_siteChars (isSiteChar_of_mem_lead hw))
        have hstart : offset + size v + size ('\n' :: (s.lead ++ z.chars))
            = 0 + (p + size z.chars) := by
          have hoffset := hv.2
          simp only [Peg.size_append, Peg.size_cons] at hoffset ⊢
          omega
        rw [Peg.spanFrom_append, if_pos hall, fromLabel, ← List.append_assoc, ← List.cons_append,
          Peg.spanFrom_append, if_pos hz, hstart, ← Peg.spanFrom_moved 0 (.inl rfl),
          List.append_nil]
      have hreaches := Peg.reaches_spanFrom q (':' :: s.tail) 0
      rw [pass x, pass y, edit_moved hreaches]
      exact ⟨rfl, .inr ⟨_, hreaches, rfl⟩⟩
    · have hstop (r : List Char) :
          spanFrom q (v ++ '\n' :: r) offset = ⟨'\n' :: r, offset + size v⟩ := by
        rw [Peg.spanFrom_append, if_pos hall, spanFrom, if_neg hline]
      rw [hstop, hstop]
      exact ends (w := []) rfl
  · have hstop (r : List Char) : spanFrom q (v ++ '\n' :: r) offset
        = ⟨v.dropWhile q ++ '\n' :: r, offset + size (v.takeWhile q)⟩ := by
      rw [Peg.spanFrom_append, if_neg hall]
    rw [hstop, hstop]
    exact ends (by omega)

theorem Ahead.one {q : Char → Bool} (hq : q '\n' = false) (m : Mode) :
    grammar.Alike (s.relabel x y p) (s.Ahead x p) (s.Ahead x p) m (.one q) := by
  refine fun d => .one ?_
  rintro ⟨rest, offset⟩ ⟨v, hv⟩
  obtain rfl : rest = v ++ '\n' :: (s.lead ++ s.fromLabel x) := by simpa using hv.1
  have hedit := hv.edit_slide (y := y)
  simp only [Cursor.edit, Cursor.mk.injEq] at hedit
  rw [hedit.1, hedit.2]
  cases v with
  | nil => exact ⟨'\n', _, _, rfl, rfl, by simp [hq]⟩
  | cons z v =>
    have hnext := hv.slide (w := v) (o := offset + z.utf8Size) (by simp [Nat.add_assoc])
    exact ⟨z, _, _, rfl, rfl, fun _ => ⟨hnext.edit_slide, v, hnext⟩⟩

/-- An expression without blanks that does not stop inside the site. -/
def tight : Expr Rule → Bool
  | .lit word => ! word.toList.contains '\n'
  | .one q => ! q '\n'
  | .span q => crosses q
  | .seq a b | .alt a b => tight a && tight b
  | .opt a | .not a => tight a
  | .done | .rule _ | .star _ | .more _ => false

theorem skips_of_blanks {m : Mode} (hm : m.blanks = false) {φ : Edit} {S : Cursor → Prop} :
    grammar.Skips φ S S m := by
  intro c hc
  have hblanks (c : Cursor) : grammar.blanks m c = c := by
    rw [blanks, hm, if_neg Bool.false_ne_true]
  rw [hblanks, hblanks]
  exact ⟨hc, rfl⟩

theorem alike_sharp {S : Cursor → Prop} {m : Mode} {e : Expr Rule}
    (h : grammar.Alike (s.relabel x y p) (s.Ahead x p) S m e) (hS : ∀ c, s.Behind x p c → S c) :
    grammar.Alike (s.relabel x y p) (s.Sharp x p) S m e :=
  h.or ((alike_behind m e).mono (fun _ hc => hc) hS)

theorem Ahead.lit {word : String} (hword : '\n' ∉ word.toList) (m : Mode) :
    grammar.Alike (s.relabel x y p) (s.Ahead x p) (s.Ahead x p) m (.lit word) :=
  fun _ => .lit fun _ hc => hc.literal hword

theorem alike_tight {e : Expr Rule} (he : tight e = true) {m : Mode} (hm : m.blanks = false) :
    grammar.Alike (s.relabel x y p) (s.Sharp x p) (s.Sharp x p) m e := by
  induction e generalizing m with
  | lit word =>
    have hword : '\n' ∉ word.toList := by simpa [tight] using he
    have hlit := Ahead.lit (s := s) (x := x) (y := y) (p := p) hword m
    exact alike_sharp (hlit.mono (fun _ hc => hc) fun _ => .inl) fun _ => .inr
  | one q =>
    have hone := Ahead.one (s := s) (x := x) (y := y) (p := p) (q := q)
      (by simpa [tight] using he) m
    exact alike_sharp (hone.mono (fun _ hc => hc) fun _ => .inl) fun _ => .inr
  | span q => exact alike_sharp (fun d => .span fun c hc => hc.span he) fun _ => .inr
  | seq a b iha ihb =>
    rw [tight, Bool.and_eq_true] at he
    exact .seq (iha he.1 hm) (skips_of_blanks hm) (ihb he.2 hm)
  | alt a b iha ihb =>
    rw [tight, Bool.and_eq_true] at he
    exact .alt (iha he.1 hm) (ihb he.2 hm)
  | opt a ih => exact .opt (ih he hm) fun _ hc => hc
  | not a ih => exact .not (ih (m := m.negate) he hm)
  | done | rule | star | more => cases he

/-! ## Blanks -/

/-- Blanks end before a line feed, or they go on behind it. -/
theorem skipFrom_cases (comment : Bool) (v : List Char) (offset : Nat) :
    (∃ u z v', v = u ++ z :: v' ∧
        ∀ r, skipFrom comment (v ++ '\n' :: r) offset = ⟨z :: v' ++ '\n' :: r, offset + size u⟩) ∨
      ∀ r, skipFrom comment (v ++ '\n' :: r) offset = skipFrom false r (offset + size v + 1) := by
  induction v generalizing comment offset with
  | nil => exact .inr fun r => skipFrom_newline comment r offset
  | cons z v ih =>
    rcases skipFrom_cons comment z with ⟨-, hstop⟩ | ⟨comment', hpass⟩
    · exact .inl ⟨[], z, v, rfl, fun r => hstop (v ++ '\n' :: r) offset⟩
    · simp only [List.cons_append, hpass, Peg.size_cons, ← Nat.add_assoc]
      rcases ih comment' (offset + z.utf8Size) with ⟨u, w, v', rfl, hstop⟩ | hline
      · refine .inl ⟨z :: u, w, v', rfl, fun r => ?_⟩
        rw [hstop, Peg.size_cons, Nat.add_assoc]
        rfl
      · exact .inr hline

theorem skipFrom_blanks {u : List Char} (hu : ∀ z ∈ u, isBlankChar z = true) (r : List Char)
    (offset : Nat) : skipFrom false (u ++ r) offset = skipFrom false r (offset + size u) := by
  induction u generalizing offset with
  | nil => rfl
  | cons z u ih =>
    have hz : (z == ' ' || z == '\t' || z == '\r' || z == '\n') = true :=
      hu z List.mem_cons_self
    have hsize : z.utf8Size = 1 := by
      simp only [Bool.or_eq_true, beq_iff_eq] at hz
      rcases hz with ((rfl | rfl) | rfl) | rfl <;> rfl
    rw [List.cons_append, skipFrom, if_neg Bool.false_ne_true, if_pos hz,
      ih fun w hw => hu w (List.mem_cons_of_mem z hw), Peg.size_cons, hsize, Nat.add_assoc]

def unreachableChars : List Char := ['u', 'n', 'r', 'e', 'a', 'c', 'h', 'a', 'b', 'l', 'e']

/-- How the lines that end a block start. -/
def lineStarts : List (List Char) :=
  ['r', 'e', 't', ' '] :: ['b', 'r', ' '] ::
    [' ', '\t', '\r', '\n'].map fun z => unreachableChars ++ [z]

theorem exists_lineStart (s : LabelSite) :
    ∃ w ∈ lineStarts, ∃ r, s.line.chars ++ s.gap = w ++ r := by
  cases hline : s.line with
  | retVoid =>
    have hchars : "ret void".toList = ['r', 'e', 't', ' '] ++ ['v', 'o', 'i', 'd'] := by decide
    refine ⟨['r', 'e', 't', ' '], by simp [lineStarts], ['v', 'o', 'i', 'd'] ++ s.gap, ?_⟩
    show "ret void".toList ++ s.gap = _
    rw [hchars, List.append_assoc]
  | br target =>
    have hchars : "br label %".toList = ['b', 'r', ' '] ++ "label %".toList := by decide
    refine ⟨['b', 'r', ' '], by simp [lineStarts], "label %".toList ++ (target.chars ++ s.gap), ?_⟩
    show "br label %".toList ++ target.chars ++ s.gap = _
    rw [hchars, List.append_assoc, List.append_assoc]
  | unreachable =>
    have hchars : "unreachable".toList = unreachableChars := by decide
    cases hgap : s.gap with
    | nil => exact absurd hgap s.gap_ne_nil
    | cons z r =>
      have hz : isBlankChar z = true := s.gap_blank z (by rw [hgap]; exact List.mem_cons_self)
      refine ⟨unreachableChars ++ [z], ?_, r, ?_⟩
      · refine List.mem_cons_of_mem _ (List.mem_cons_of_mem _ (List.mem_map_of_mem ?_))
        simpa [isBlankChar, or_assoc] using hz
      · show "unreachable".toList ++ z :: r = _
        rw [hchars, List.append_assoc, List.singleton_append]

theorem AtLine.exists_start (h : s.AtLine x p c) :
    ∃ w ∈ lineStarts, ∃ r, c = Cursor.moved c.offset r ⟨w, 0⟩ := by
  obtain ⟨w, hw, r, hline⟩ := s.exists_lineStart
  obtain ⟨hrest, -⟩ := h
  refine ⟨w, hw, r ++ s.fromLabel x, ?_⟩
  obtain ⟨rest, offset⟩ := c
  rw [Cursor.moved, Nat.zero_add, Cursor.mk.injEq]
  refine ⟨?_, rfl⟩
  dsimp only at hrest
  rw [hrest, hline, List.append_assoc]

theorem AtLine.skip (h : s.AtLine x p c) : grammar.skip c = c := by
  have hstarts : ∀ w ∈ lineStarts, grammar.skip ⟨w, 0⟩ = ⟨w, 0⟩ ∧ w ≠ [] := by
    simp only [lineStarts, List.map_cons, List.map_nil, List.forall_mem_cons]
    exact ⟨⟨rfl, by simp⟩, ⟨rfl, by simp⟩, ⟨rfl, by simp⟩, ⟨rfl, by simp⟩, ⟨rfl, by simp⟩,
      ⟨rfl, by simp⟩, by simp⟩
  obtain ⟨w, hw, r, hc⟩ := h.exists_start
  obtain ⟨hskip, hne⟩ := hstarts w hw
  rw [hc, skipMoves _ r ⟨w, 0⟩ (.inr (by rw [hskip]; exact hne)), hskip]

theorem Ahead.skip (h : s.Ahead x p c) :
    s.Loose x p (grammar.skip c) ∧
      grammar.skip (c.edit (s.relabel x y p)) = (grammar.skip c).edit (s.relabel x y p) := by
  obtain ⟨v, hv⟩ := h
  obtain ⟨rest, offset⟩ := c
  obtain rfl : rest = v ++ '\n' :: (s.lead ++ s.fromLabel x) := by simpa using hv.1
  rw [hv.edit_slide]
  show s.Loose x p (skipFrom false _ _) ∧ skipFrom false _ _ = (skipFrom false _ _).edit _
  rcases skipFrom_cases false v offset with ⟨u, z, v', rfl, hstop⟩ | hpass
  · have hnext := hv.slide (w := z :: v') (o := offset + size u) (by simp [Nat.add_assoc])
    rw [hstop, hstop]
    exact ⟨.inl (.inl ⟨z :: v', hnext⟩), hnext.edit_slide.symm⟩
  · -- the blanks before the line are passed over too
    have hline (z : Label) : s.AtLine z p
        ⟨s.line.chars ++ s.gap ++ s.fromLabel z, offset + size v + 1 + size s.indent⟩ := by
      have hoffset := hv.2
      refine ⟨rfl, ?_⟩
      simp only [lead, Peg.size_append, Peg.size_cons, show Char.utf8Size '\n' = 1 from rfl]
        at hoffset ⊢
      omega
    have hskip (z : Label) : skipFrom false (v ++ '\n' :: (s.lead ++ s.fromLabel z)) offset
        = ⟨s.line.chars ++ s.gap ++ s.fromLabel z, offset + size v + 1 + size s.indent⟩ := by
      rw [hpass, lead, List.append_assoc, skipFrom_blanks s.indent_blank]
      exact (hline z).skip
    rw [hskip x, hskip y, (hline x).edit]
    exact ⟨.inr (hline x), rfl⟩

theorem Behind.skip (h : s.Behind x p c) :
    s.Behind x p (grammar.skip c) ∧
      grammar.skip (c.edit (s.relabel x y p)) = (grammar.skip c).edit (s.relabel x y p) := by
  obtain ⟨b, hb, rfl⟩ := h
  have hnext := hb.trans (skipReaches b)
  rw [edit_moved hb, skipMoves _ _ b (.inl rfl), skipMoves _ _ b (.inl rfl), edit_moved hnext]
  exact ⟨⟨_, hnext, rfl⟩, rfl⟩

theorem Loose.skip (h : s.Loose x p c) :
    s.Loose x p (grammar.skip c) ∧
      grammar.skip (c.edit (s.relabel x y p)) = (grammar.skip c).edit (s.relabel x y p) := by
  rcases h with (h | h) | h
  · exact h.skip
  · obtain ⟨hnext, hedit⟩ := h.skip (y := y)
    exact ⟨.inl (.inr hnext), hedit⟩
  · have hline : s.AtLine y p (c.edit (s.relabel x y p)) := Before.relabel h
    rw [h.skip, hline.skip]
    exact ⟨.inr h, rfl⟩

theorem AtLabel.skip (h : s.AtLabel x p c) : grammar.skip c = c := by
  obtain ⟨rest, offset⟩ := c
  obtain ⟨hrest, -⟩ := h
  dsimp only at hrest
  rw [hrest]
  exact skip_ident x.ident offset

theorem InGap.skip (h : s.InGap x p c) :
    s.AtLabel x p (grammar.skip c) ∧
      grammar.skip (c.edit (s.relabel x y p)) = (grammar.skip c).edit (s.relabel x y p) := by
  have hskip {z : Label} {c : Cursor} (h : s.InGap z p c) :
      grammar.skip c = ⟨s.fromLabel z, p⟩ := by
    obtain ⟨rest, offset⟩ := c
    obtain ⟨hrest, hoffset⟩ := h
    dsimp only at hrest hoffset
    show skipFrom false rest offset = _
    rw [hrest, skipFrom_blanks s.gap_blank, hoffset]
    exact skip_ident z.ident p
  have hlabel : s.AtLabel x p ⟨s.fromLabel x, p⟩ := ⟨rfl, rfl⟩
  have hedit : (⟨s.fromLabel x, p⟩ : Cursor).edit (s.relabel x y p) = ⟨s.fromLabel y, p⟩ :=
    hlabel.edit
  have hgap : s.InGap y p (c.edit (s.relabel x y p)) := Before.relabel h
  rw [hskip h, hskip hgap, hedit]
  exact ⟨hlabel, rfl⟩

end LabelSite

end SafeIR.Source
