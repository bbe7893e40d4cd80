import SafeIR.Proofs.Source.Blocks
import SafeIR.Proofs.Source.Relabel

/-!
# The place of a label in a module

Where a line that ends a block is an instruction of a function, the label behind it starts the next
block of that function, unless it is taken for an instruction. `Split` has the trees of the function
on both sides of the label. All of them but the block of the label are kept if the label is
replaced.
-/

namespace SafeIR.Source.LabelSite

open Peg (Cursor Edit Expr Mode ParseTree size)
open Peg.Grammar

variable {s : LabelSite} {x y : Label} {p : Nat} {head : List Char} {a b c last : Cursor}
  {t : ParseTree Rule} {ts : List (ParseTree Rule)}

/-! ## Offsets -/

/-- Where the line before the label stands. -/
def lineOffset (s : LabelSite) (head : List Char) : Nat := size head + 1 + size s.indent

theorem lineOffset_le (s : LabelSite) (head : List Char) :
    s.lineOffset head ≤ s.labelOffset head := by
  simp only [lineOffset, labelOffset, lead, Peg.size_append]
  omega

theorem atLine_of_offset (h : Cursor.Reaches ⟨s.text x head, 0⟩ c)
    (hoffset : c.offset = s.lineOffset head) : s.AtLine x (s.labelOffset head) c := by
  have hreaches : Cursor.Reaches ⟨s.text x head, 0⟩
      ⟨s.line.chars ++ s.gap ++ s.fromLabel x, s.lineOffset head⟩ := by
    refine ⟨head ++ '\n' :: s.indent, by simp [text, lead], ?_⟩
    simp only [lineOffset, Peg.size_append, Peg.size_cons, show Char.utf8Size '\n' = 1 from rfl]
    omega
  rw [h.unique hreaches hoffset]
  refine ⟨rfl, ?_⟩
  simp only [lineOffset, labelOffset, lead, Peg.size_append]
  omega

theorem atLabel_of_offset (h : Cursor.Reaches ⟨s.text x head, 0⟩ c)
    (hoffset : c.offset = s.labelOffset head) : s.AtLabel x (s.labelOffset head) c := by
  have hreaches : Cursor.Reaches ⟨s.text x head, 0⟩ ⟨s.fromLabel x, s.labelOffset head⟩ := by
    refine ⟨head ++ '\n' :: s.lead, by simp [text], ?_⟩
    simp only [labelOffset, Peg.size_append, Peg.size_cons, show Char.utf8Size '\n' = 1 from rfl]
    omega
  rw [h.unique hreaches hoffset]
  exact ⟨rfl, rfl⟩

/-! ## What is kept -/

/-- Before the label or at it. -/
def UpTo (s : LabelSite) (x : Label) (p : Nat) (c : Cursor) : Prop := ∃ v, s.Before x p v c

theorem UpTo.of_reaches (hb : s.UpTo x p b) (h : a.Reaches b) : s.UpTo x p a := by
  obtain ⟨v, hrest, hoffset⟩ := hb
  obtain ⟨consumed, hconsumed, hsize⟩ := h
  refine ⟨consumed ++ v, by rw [hconsumed, hrest, List.append_assoc], ?_⟩
  rw [Peg.size_append]
  omega

theorem Behind.of_reaches (ha : s.Behind x p a) (h : a.Reaches b) : s.Behind x p b := by
  obtain ⟨a, hstart, rfl⟩ := ha
  obtain ⟨consumed, hconsumed, hsize⟩ := h
  have hrest : a.rest = consumed ++ b.rest := by simpa [Cursor.moved] using hconsumed
  refine ⟨⟨b.rest, a.offset + size consumed⟩, hstart.trans ⟨consumed, hrest, rfl⟩, ?_⟩
  obtain ⟨rest, offset⟩ := b
  simp only [Cursor.moved] at hsize ⊢
  rw [List.append_nil, hsize, Nat.add_right_comm]

theorem Behind.lt (h : s.Behind x p c) : p < c.offset := by
  obtain ⟨b, -, rfl⟩ := h
  have hpos := x.size_pos
  show p < b.offset + (p + size x.chars)
  omega

theorem keeps_upTo : (s.relabel x y p).Keeps (s.UpTo x p) where
  between := fun _ _ hcb hb => hb.of_reaches hcb
  takes := by
    intro a b ha hb h
    obtain ⟨v, hv⟩ := hb
    obtain ⟨consumed, hrest, hoffset⟩ := h
    have hbefore : s.Before x p (consumed ++ v) a := by
      refine ⟨by rw [hrest, hv.1, List.append_assoc], ?_⟩
      have hsum := hv.2
      rw [Peg.size_append]
      omega
    have hstart := hbefore.edit (y := y)
    have hstop := hv.edit (y := y)
    simp only [Cursor.edit, Cursor.mk.injEq] at hstart hstop
    rw [hstart.1, hstart.2, hstop.2, hrest, hoffset, Nat.add_sub_cancel_left, List.append_assoc,
      ParseTree.takeBytes_size, ParseTree.takeBytes_size]

theorem keeps_behind : (s.relabel x y p).Keeps (s.Behind x p) where
  between := fun ha hac _ _ => ha.of_reaches hac
  takes := by
    intro a b ha hb _
    have hlt := ha.lt
    have hlt' := hb.lt
    have hpos := x.size_pos
    have hrest : (s.relabel x y p).rest a.rest = a.rest := by
      obtain ⟨a, hstart, rfl⟩ := ha
      have hedit := edit_moved (x := x) (y := y) (p := p) hstart
      simp only [Cursor.edit, Cursor.moved, Cursor.mk.injEq] at hedit
      exact hedit.1
    have hle {c : Cursor} (h : s.Behind x p c) : size x.chars ≤ c.offset := by
      obtain ⟨c, -, rfl⟩ := h
      show size x.chars ≤ c.offset + (p + size x.chars)
      omega
    have hsize := hle ha
    have hsize' := hle hb
    -- behind the label both offsets move alike
    have hdiff : (s.relabel x y p).offset b.offset - (s.relabel x y p).offset a.offset
        = b.offset - a.offset := by
      simp only [relabel, if_neg (Nat.not_le.mpr hlt), if_neg (Nat.not_le.mpr hlt')]
      omega
    rw [hrest, hdiff]

/-! ## The function of the line -/

/-- Every block starts before the row of blocks ends. -/
theorem start_lt_of_row (h : RuleRow grammar .block c ts last) :
    ∀ t ∈ ts, t.start < last.offset := by
  induction h with
  | nil => simp
  | @cons c next last t ts item rest ih =>
    obtain ⟨us, htree, -⟩ := yields_rule_inv item
    have hlength := item.derives.length_lt skipReaches
      (show grammar.consumes levels (.rule .block) = true from rfl)
    cases htree
    obtain ⟨consumed, hconsumed, hoffset⟩ := (item.row skipReaches).reaches
    -- the instruction that every block has takes up space
    have hpos : size consumed ≠ 0 := by
      intro hzero
      rw [Peg.size_eq_zero hzero] at hconsumed
      rw [hconsumed, List.nil_append] at hlength
      exact Nat.lt_irrefl _ hlength
    obtain ⟨_, -, hlast⟩ := (skipReaches next).trans (row_of_ruleRow rest).reaches
    refine List.forall_mem_cons.mpr ⟨?_, ih⟩
    show c.offset < last.offset
    omega

/-- The trees of a function around the label. -/
structure Split (s : LabelSite) (x : Label) (head : List Char) (u : ParseTree Rule)
    (a b : Cursor) where
  heading : List (ParseTree Rule)
  before : List (ParseTree Rule)
  prev : ParseTree Rule
  block : ParseTree Rule
  after : List (ParseTree Rule)
  first : Cursor
  label : Cursor
  stop : Cursor
  last : Cursor
  children_eq : u.children = heading ++ (before ++ prev :: block :: after)
  parts_eq : Parse.parts u .block = before ++ prev :: block :: after
  heading_row : ParseTree.Row heading a first
  blocks_row : RuleRow grammar .block first (before ++ prev :: block :: after) last
  before_row : RuleRow grammar .block first (before ++ [prev]) label
  /-- The line is the last instruction of the block before. -/
  prev_line : ∃ is i, Parse.parts prev .instruction = is ++ [i] ∧ i.start = s.lineOffset head
  label_eq : s.AtLabel x (s.labelOffset head) label
  block_match : grammar.Yields {} (.rule .block) label (.ok stop [block])
  after_row : RuleRow grammar .block (grammar.skip stop) after last
  reaches_end : last.Reaches b

section

variable (hx : takenForInstruction x.chars = false)
include hx

/-- The line is the last of the instructions in a row. -/
theorem instructions_at_line (h : RuleRow grammar .instruction c ts last)
    (hc : Cursor.Reaches ⟨s.text x head, 0⟩ c) {i : ParseTree Rule} (hi : i ∈ ts)
    (hline : i.start = s.lineOffset head) :
    s.AtLabel x (s.labelOffset head) last ∧
      ∃ is j, ts = is ++ [j] ∧ j.start = s.lineOffset head := by
  induction h with
  | nil => cases hi
  | @cons c next last t ts item rest ih =>
    rcases List.mem_cons.mp hi with rfl | hi
    · obtain ⟨us, htree, -⟩ := yields_rule_inv item
      have hoffset : c.offset = s.lineOffset head := by
        cases htree
        exact hline
      obtain ⟨next', us', hmatch, -, hlabel⟩ :=
        passes_instruction (y := x) c (atLine_of_offset hc hoffset)
      obtain ⟨rfl, -⟩ : next' = next ∧ us' = [i] := by simpa using hmatch.unique item
      -- at the label no instruction follows
      have hskip : grammar.blanks {} next' = next' := hlabel.skip
      rw [hskip] at rest
      cases rest with
      | nil => exact ⟨hlabel, [], i, rfl, hline⟩
      | cons item' _ => cases (fails_instruction (y := x) hx hx next' hlabel).1.unique item'
    · have hnext := hc.trans ((item.row skipReaches).reaches.trans (skipReaches next))
      obtain ⟨hlabel, is, j, rfl, hj⟩ := ih hnext hi
      exact ⟨hlabel, t :: is, j, rfl, hj⟩

/-- In a row of blocks that ends before a brace, the label starts the block behind the line. -/
theorem blocks_at_line (h : RuleRow grammar .block c ts last)
    (hc : Cursor.Reaches ⟨s.text x head, 0⟩ c)
    (hend : grammar.Yields {} (.lit "\x7d") last (.ok b [])) (ht : t ∈ ts) {i : ParseTree Rule}
    (hi : i ∈ Parse.parts t .instruction) (hline : i.start = s.lineOffset head) :
    ∃ before prev block after label stop, ts = before ++ prev :: block :: after ∧
      RuleRow grammar .block c (before ++ [prev]) label ∧
      (∃ is j, Parse.parts prev .instruction = is ++ [j] ∧ j.start = s.lineOffset head) ∧
      s.AtLabel x (s.labelOffset head) label ∧
      grammar.Yields {} (.rule .block) label (.ok stop [block]) ∧
      RuleRow grammar .block (grammar.skip stop) after last := by
  induction h with
  | nil => cases ht
  | @cons c next last u ts item rest ih =>
    rcases List.mem_cons.mp ht with rfl | ht
    · obtain ⟨ls, is, mid, -, hparts, hlabel, -, hrow, -⟩ := block_inv item
      have hmid := hc.trans ((hlabel.row skipReaches).reaches.trans (skipReaches mid))
      rw [hparts] at hi
      obtain ⟨hnext, hlast⟩ := instructions_at_line hx hrow hmid hi hline
      rw [← hparts] at hlast
      -- no brace stands at the label, so the row goes on
      cases rest with
      | nil => cases (fails_lit (y := x) (by decide) _ hnext).1.unique hend
      | @cons _ stop _ block after item' rest' =>
        exact ⟨[], t, block, after, _, stop, rfl, .cons item (.nil _), hlast, hnext, item', rest'⟩
    · have hnext := hc.trans ((item.row skipReaches).reaches.trans (skipReaches next))
      obtain ⟨before, prev, block, after, label, stop, rfl, hbefore, h⟩ := ih hnext hend ht
      exact ⟨u :: before, prev, block, after, label, stop, rfl, .cons item hbefore, h⟩

theorem exists_split {u : ParseTree Rule} (h : grammar.Yields {} (.rule .functionDef) a (.ok b [u]))
    (ha : Cursor.Reaches ⟨s.text x head, 0⟩ a) (ht : t ∈ Parse.parts u .block) {i : ParseTree Rule}
    (hi : i ∈ Parse.parts t .instruction) (hline : i.start = s.lineOffset head) :
    Nonempty (s.Split x head u a b) := by
  obtain ⟨hs, bs, first, last, hchildren, hparts, hrow, hblocks, hend⟩ := functionDef_inv h
  rw [hparts] at ht
  obtain ⟨before, prev, block, after, label, stop, rfl, hbefore, hlast, hlabel, hmatch, hafter⟩ :=
    blocks_at_line hx hblocks (ha.trans hrow.reaches) hend ht hi hline
  exact ⟨{
    heading := hs, before, prev, block, after, first, label, stop, last
    children_eq := hchildren
    parts_eq := hparts
    heading_row := hrow
    blocks_row := hblocks
    before_row := hbefore
    prev_line := hlast
    label_eq := hlabel
    block_match := hmatch
    after_row := hafter
    reaches_end := (hend.row skipReaches).reaches }⟩

end

/-! ## The block of the label -/

/-- The tree of the label. -/
def labelTree (s : LabelSite) (x : Label) (p : Nat) : ParseTree Rule :=
  .node .blockLabel p (s.fromLabel x) (p + size x.chars + 1)
    [.node .labelName p (s.fromLabel x) (p + size x.chars) []]

theorem yields_blockLabel (hc : s.AtLabel x p c) :
    ∃ next, s.Behind x p next ∧
      grammar.Yields {} (.rule .blockLabel) c (.ok next [s.labelTree x p]) := by
  obtain rfl : c = ⟨s.fromLabel x, p⟩ := by
    obtain ⟨rest, offset⟩ := c
    obtain ⟨hrest, hoffset⟩ := hc
    exact congrArg₂ Cursor.mk hrest hoffset
  have hname : grammar.Yields { blanks := false } (.rule .labelName) ⟨s.fromLabel x, p⟩
      (.ok ⟨':' :: s.tail, p + size x.chars⟩
        [.node .labelName p (s.fromLabel x) (p + size x.chars) []]) :=
    .rule (yields_identifier rfl x (by decide) s.tail p)
  have hcolon : grammar.Yields { blanks := false } (.lit ":") ⟨':' :: s.tail, p + size x.chars⟩
      (.ok ⟨s.tail, p + size x.chars + 1⟩ []) := .lit rfl
  have hbody := Yields.seq hname hcolon
  refine ⟨⟨s.tail, p + size x.chars + 1⟩, ⟨⟨s.tail, 1⟩, ⟨[':'], rfl, rfl⟩, ?_⟩, .rule hbody⟩
  rw [Cursor.moved, List.append_nil, Nat.add_comm]

theorem labelTree_edit :
    (s.labelTree x p).edit (s.relabel x y p) = s.labelTree y p := by
  have hstart := Before.edit (y := y) (show s.Before x p [] ⟨s.fromLabel x, p⟩ from ⟨rfl, rfl⟩)
  have hname := edit_moved (x := x) (y := y) (p := p) (.refl ⟨':' :: s.tail, 0⟩)
  have hcolon := edit_moved (x := x) (y := y) (p := p) (b := ⟨s.tail, 1⟩) ⟨[':'], rfl, rfl⟩
  simp only [Cursor.edit, Cursor.moved, Cursor.mk.injEq, List.nil_append, Nat.zero_add,
    Nat.add_comm 1] at hstart hname hcolon
  simp only [labelTree, ParseTree.edit, ParseTree.editAll, hstart, hname, hcolon]

/-- What a block is matched to at the label. -/
theorem block_at_label (hc : s.AtLabel x p c)
    (h : grammar.Yields {} (.rule .block) c (.ok b [t])) :
    Parse.parts t .blockLabel = [s.labelTree x p] ∧
      (∀ i ∈ Parse.parts t .instruction, i.Kept (s.relabel x y p)) ∧
      s.Behind x p (grammar.skip b) := by
  obtain ⟨ls, is, mid, hls, his, hlabel, -, hrow, -⟩ := block_inv h
  obtain ⟨next, hbehind, hmatch⟩ := yields_blockLabel hc
  -- the label that may be left out is there
  obtain ⟨rfl, rfl⟩ : next = mid ∧ [s.labelTree x p] = ls := by
    simpa using (Yields.opt hmatch).unique hlabel
  have hfirst := hbehind.of_reaches (skipReaches next)
  have hrows := row_of_ruleRow hrow
  have hlast := hfirst.of_reaches hrows.reaches
  refine ⟨hls, ?_, hlast⟩
  rw [his]
  exact ParseTree.allKept_iff.mp (hrows.allKept keeps_behind hfirst hlast)

namespace Split

variable {u : ParseTree Rule} (h : s.Split x head u a b)
include h

theorem upTo_label : s.UpTo x (s.labelOffset head) h.label := ⟨[], h.label_eq⟩

theorem label_offset : h.label.offset = s.labelOffset head := h.label_eq.2

theorem upTo_first : s.UpTo x (s.labelOffset head) h.first :=
  h.upTo_label.of_reaches (row_of_ruleRow h.before_row).reaches

theorem upTo_start : s.UpTo x (s.labelOffset head) a :=
  h.upTo_first.of_reaches h.heading_row.reaches

theorem heading_kept : ∀ t ∈ h.heading, t.Kept (s.relabel x y (s.labelOffset head)) :=
  ParseTree.allKept_iff.mp (h.heading_row.allKept keeps_upTo h.upTo_start h.upTo_first)

theorem before_kept : ∀ t ∈ h.before ++ [h.prev], t.Kept (s.relabel x y (s.labelOffset head)) :=
  ParseTree.allKept_iff.mp
    ((row_of_ruleRow h.before_row).allKept keeps_upTo h.upTo_first h.upTo_label)

theorem before_start : ∀ t ∈ h.before ++ [h.prev], t.start < s.labelOffset head := by
  rw [← h.label_offset]
  exact start_lt_of_row h.before_row

/-- The function starts before the label. -/
theorem start_lt : a.offset < s.labelOffset head := by
  have hprev := h.before_start h.prev (by simp)
  obtain ⟨start, stop, ⟨_, -, hstart⟩, hspans, -⟩ :=
    (row_of_ruleRow h.before_row).exists_spans (t := h.prev) (by simp)
  obtain ⟨_, -, hfirst⟩ := h.heading_row.reaches
  rw [hspans.start] at hprev
  omega

theorem behind_stop : s.Behind x (s.labelOffset head) (grammar.skip h.stop) :=
  (block_at_label (y := x) h.label_eq h.block_match).2.2

theorem behind_last : s.Behind x (s.labelOffset head) h.last :=
  h.behind_stop.of_reaches (row_of_ruleRow h.after_row).reaches

theorem behind_end : s.Behind x (s.labelOffset head) b := h.behind_last.of_reaches h.reaches_end

theorem block_start : h.block.start = s.labelOffset head := by
  obtain ⟨us, htree, -⟩ := yields_rule_inv h.block_match
  rw [(List.cons.inj htree).1]
  exact h.label_offset

theorem after_kept : ∀ t ∈ h.after, t.Kept (s.relabel x y (s.labelOffset head)) :=
  ParseTree.allKept_iff.mp
    ((row_of_ruleRow h.after_row).allKept keeps_behind h.behind_stop h.behind_last)

theorem after_start : ∀ t ∈ h.after, s.labelOffset head < t.start := by
  intro t ht
  obtain ⟨start, stop, hstart, hspans, -⟩ := (row_of_ruleRow h.after_row).exists_spans ht
  rw [hspans.start]
  exact (h.behind_stop.of_reaches hstart).lt

end Split

end SafeIR.Source.LabelSite
