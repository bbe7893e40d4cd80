import SafeIR.Proofs.Peg.Edit

/-!
# Trees in their place

The trees that a match leaves stand one behind the other in what the match consumed, and so do the
trees in each of them. So a tree is kept by an edit that keeps what stands between two cursors of a
set, if the match started and ended in that set.
-/

namespace SafeIR.Peg

variable {R : Type}

mutual

/-- The tree was matched from one cursor to another. -/
def ParseTree.Spans : ParseTree R → Cursor → Cursor → Prop
  | .node _ start input stop children, a, b =>
    a = ⟨input, start⟩ ∧ b.offset = stop ∧ Row children a b

/-- The trees stand one behind the other between two cursors. -/
def ParseTree.Row : List (ParseTree R) → Cursor → Cursor → Prop
  | [], a, b => a.Reaches b
  | t :: ts, a, b => ∃ start stop, a.Reaches start ∧ t.Spans start stop ∧ Row ts stop b

end

namespace ParseTree

variable {t : ParseTree R} {ts us : List (ParseTree R)} {a b c : Cursor}

mutual

theorem Spans.reaches : ∀ {t : ParseTree R} {a b : Cursor}, t.Spans a b → a.Reaches b
  | .node _ _ _ _ _, _, _, h => Row.reaches h.2.2

theorem Row.reaches : ∀ {ts : List (ParseTree R)} {a b : Cursor}, Row ts a b → a.Reaches b
  | [], _, _, h => h
  | _ :: _, _, _, h => by
    obtain ⟨start, stop, hstart, hspans, hrow⟩ := h
    exact hstart.trans ((Spans.reaches hspans).trans (Row.reaches hrow))

end

theorem Row.behind (h : a.Reaches b) (hrow : Row ts b c) : Row ts a c := by
  cases ts with
  | nil => exact h.trans hrow
  | cons t ts =>
    obtain ⟨start, stop, hstart, hspans, hrow⟩ := hrow
    exact ⟨start, stop, h.trans hstart, hspans, hrow⟩

theorem Row.append (hts : Row ts a b) (hus : Row us b c) : Row (ts ++ us) a c := by
  induction ts generalizing a with
  | nil => exact .behind hts hus
  | cons t ts ih =>
    obtain ⟨start, stop, hstart, hspans, hrow⟩ := hts
    exact ⟨start, stop, hstart, hspans, ih hrow⟩

theorem Row.extend (h : Row ts a b) (hreaches : b.Reaches c) : Row ts a c := by
  have hnil : Row ([] : List (ParseTree R)) b c := hreaches
  have hrow := h.append hnil
  rw [List.append_nil] at hrow
  exact hrow

theorem Row.singleton (h : t.Spans a b) : Row [t] a b := ⟨a, b, .refl a, h, .refl b⟩

theorem Row.exists_spans (h : Row ts a b) (ht : t ∈ ts) :
    ∃ start stop, a.Reaches start ∧ t.Spans start stop ∧ stop.Reaches b := by
  induction ts generalizing a with
  | nil => cases ht
  | cons u ts ih =>
    obtain ⟨start, stop, hstart, hspans, hrow⟩ := h
    rcases List.mem_cons.mp ht with rfl | ht
    · exact ⟨start, stop, hstart, hspans, hrow.reaches⟩
    · obtain ⟨start', stop', hstart', hspans', hstop⟩ := ih hrow ht
      exact ⟨start', stop', hstart.trans (hspans.reaches.trans hstart'), hspans', hstop⟩

theorem Spans.start (h : t.Spans a b) : t.start = a.offset := by
  cases t with
  | node r start input stop children => rw [h.1, ParseTree.start]

theorem Spans.row (h : t.Spans a b) : Row t.children a b := by
  cases t with
  | node r start input stop children => exact h.2.2

theorem Row.exists_child (h : Row ts a b) {u : ParseTree R} (hu : u ∈ ts) (ht : t ∈ u.children) :
    ∃ c : Cursor, t.start = c.offset ∧ a.Reaches c ∧ c.Reaches b := by
  obtain ⟨start, stop, hstart, hspans, hstop⟩ := h.exists_spans hu
  obtain ⟨start', stop', hstart', hspans', hstop'⟩ := hspans.row.exists_spans ht
  exact ⟨start', hspans'.start, hstart.trans hstart',
    hspans'.reaches.trans (hstop'.trans hstop)⟩

end ParseTree

/-- The edit leaves alone what stands between two cursors of the set. -/
structure Edit.Keeps (φ : Edit) (S : Cursor → Prop) : Prop where
  between {a b c : Cursor} : S a → a.Reaches c → c.Reaches b → S b → S c
  takes {a b : Cursor} : S a → S b → a.Reaches b →
    ParseTree.takeBytes (φ.offset b.offset - φ.offset a.offset) (φ.rest a.rest)
      = ParseTree.takeBytes (b.offset - a.offset) a.rest

mutual

theorem ParseTree.Spans.kept {φ : Edit} {S : Cursor → Prop} (hS : φ.Keeps S) :
    ∀ {t : ParseTree R} {a b : Cursor}, t.Spans a b → S a → S b → t.Kept φ
  | .node _ _ _ _ _, _, _, h, ha, hb => by
    obtain ⟨rfl, rfl, hrow⟩ := h
    exact ⟨hS.takes ha hb hrow.reaches, hrow.allKept hS ha hb⟩

theorem ParseTree.Row.allKept {φ : Edit} {S : Cursor → Prop} (hS : φ.Keeps S) :
    ∀ {ts : List (ParseTree R)} {a b : Cursor}, Row ts a b → S a → S b → AllKept φ ts
  | [], _, _, _, _, _ => trivial
  | _ :: _, _, _, h, ha, hb => by
    obtain ⟨start, stop, hstart, hspans, hrow⟩ := h
    have hstop := hrow.reaches
    have hstartS := hS.between ha hstart (hspans.reaches.trans hstop) hb
    have hstopS := hS.between ha (hstart.trans hspans.reaches) hstop hb
    exact ⟨hspans.kept hS hstartS hstopS, hrow.allKept hS hstopS hb⟩

end

namespace Grammar

variable {g : Grammar R}

/-- A match leaves its trees in a row. -/
theorem Derives.row (hskip : g.SkipReaches) {m : Mode} {e : Expr R} {c next : Cursor}
    {trees : List (ParseTree R)} (h : g.Derives m e c next trees) :
    ParseTree.Row trees c next := by
  induction h with
  | lit hlit => exact reaches_of_literal? hlit
  | one _ => exact .cons (.refl _)
  | @span _ p c => exact reaches_spanFrom p c.rest c.offset
  | done | optNone | starNone | moreNone | not => exact .refl _
  | rule _ hrow =>
    unfold shown
    split
    next => exact hrow.reaches
    next => exact .singleton ⟨rfl, rfl, hrow⟩
  | @seq m _ _ _ mid _ _ _ _ _ iha ihb =>
    exact iha.append (.behind (reaches_blanks hskip m mid) ihb)
  | altLeft _ ih | altRight _ ih | opt _ ih => exact ih
  | star _ _ iha ihmore => exact iha.append ihmore
  | @more m _ c _ _ _ _ _ _ iha ihmore =>
    exact .behind (reaches_blanks hskip m c) (iha.append ihmore)

end Grammar

end SafeIR.Peg
