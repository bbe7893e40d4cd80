import Mathlib.Algebra.GroupWithZero.Nat
import SafeIR.Proofs.Peg.Outcome

/-!
# Extents of trees

A match leaves a rest of the input, and the bytes between are counted by the offsets. Hence the
characters of a tree are those its match consumed, and a moved tree has the same characters.
-/

namespace SafeIR.Peg

variable {R : Type}

/-- The number of bytes that characters take. -/
def size (cs : List Char) : Nat := (cs.map Char.utf8Size).sum

@[simp] theorem size_nil : size [] = 0 := rfl

@[simp] theorem size_cons (c : Char) (cs : List Char) : size (c :: cs) = c.utf8Size + size cs := rfl

@[simp] theorem size_append (cs cs' : List Char) : size (cs ++ cs') = size cs + size cs' := by
  simp [size]

theorem size_eq_zero {cs : List Char} (h : size cs = 0) : cs = [] := by
  cases cs with
  | nil => rfl
  | cons c cs =>
    have hpos : 0 < c.utf8Size := Char.utf8Size_pos c
    rw [size_cons] at h
    omega

/-! ## Consumed characters -/

/-- From one cursor to another some characters are consumed. -/
def Cursor.Reaches (c next : Cursor) : Prop :=
  ∃ consumed, c.rest = consumed ++ next.rest ∧ next.offset = c.offset + size consumed

theorem Cursor.Reaches.refl (c : Cursor) : c.Reaches c := ⟨[], rfl, rfl⟩

theorem Cursor.Reaches.trans {a b c : Cursor} (hab : a.Reaches b) (hbc : b.Reaches c) :
    a.Reaches c := by
  obtain ⟨xs, hxs, hoffset⟩ := hab
  obtain ⟨ys, hys, hoffset'⟩ := hbc
  refine ⟨xs ++ ys, by rw [hxs, hys, List.append_assoc], ?_⟩
  rw [hoffset', hoffset, size_append, Nat.add_assoc]

/-- Cursors in one text are told apart by their offsets. -/
theorem Cursor.Reaches.unique {a b c : Cursor} (hb : a.Reaches b) (hc : a.Reaches c)
    (h : b.offset = c.offset) : b = c := by
  obtain ⟨xs, hxs, hoffset⟩ := hb
  obtain ⟨ys, hys, hoffset'⟩ := hc
  have hsize : size xs = size ys := by omega
  have hrest : b.rest = c.rest := by
    rcases List.append_eq_append_iff.mp (hxs.symm.trans hys) with ⟨zs, rfl, hz⟩ | ⟨zs, rfl, hz⟩
    · obtain rfl : zs = [] := size_eq_zero (by simpa using hsize)
      exact hz
    · obtain rfl : zs = [] := size_eq_zero (by simpa using hsize)
      exact hz.symm
  cases b
  cases c
  rw [Cursor.mk.injEq]
  exact ⟨hrest, h⟩

theorem Cursor.Reaches.offset_of_nil {c next : Cursor} (h : c.Reaches next)
    (hnext : next.rest = []) : next.offset = c.offset + size c.rest := by
  obtain ⟨consumed, hrest, hoffset⟩ := h
  rw [hoffset, hrest, hnext, List.append_nil]

/-- One character, and what is consumed behind it. -/
theorem Cursor.Reaches.cons {x : Char} {rest : List Char} {offset : Nat} {next : Cursor}
    (h : Cursor.Reaches ⟨rest, offset + x.utf8Size⟩ next) :
    Cursor.Reaches ⟨x :: rest, offset⟩ next := by
  obtain ⟨consumed, hrest, hoffset⟩ := h
  refine ⟨x :: consumed, by rw [List.cons_append, ← hrest], ?_⟩
  rw [hoffset, size_cons, Nat.add_assoc]

theorem reaches_of_literal? {text : List Char} {c next : Cursor}
    (h : literal? text c = some next) : c.Reaches next := by
  induction text generalizing c with
  | nil =>
    cases h
    exact .refl _
  | cons x xs ih =>
    obtain ⟨rest, offset⟩ := c
    cases rest with
    | nil => cases h
    | cons z rest =>
      rw [literal?] at h
      split at h
      next => exact .cons (ih h)
      next => cases h

theorem reaches_spanFrom (p : Char → Bool) (cs : List Char) (offset : Nat) :
    Cursor.Reaches ⟨cs, offset⟩ (spanFrom p cs offset) := by
  induction cs generalizing offset with
  | nil => exact .refl _
  | cons c cs ih =>
    rw [spanFrom]
    split
    next => exact .cons (ih _)
    next => exact .refl _

/-! ## Trees -/

mutual

/-- The tree ends inside its input, and so do the trees in it. -/
def ParseTree.Fits : ParseTree R → Prop
  | .node _ start input stop children =>
    (∃ consumed rest, input = consumed ++ rest ∧ stop = start + size consumed) ∧ AllFit children

def ParseTree.AllFit : List (ParseTree R) → Prop
  | [] => True
  | t :: ts => t.Fits ∧ AllFit ts

end

theorem ParseTree.allFit_iff {ts : List (ParseTree R)} : AllFit ts ↔ ∀ t ∈ ts, t.Fits := by
  induction ts with
  | nil => simp [AllFit]
  | cons t ts ih => simp [AllFit, ih]

namespace ParseTree

theorem takeBytes_size (consumed rest : List Char) :
    takeBytes (size consumed) (consumed ++ rest) = consumed := by
  induction consumed with
  | nil => cases rest <;> rfl
  | cons c cs ih =>
    have hpos : 0 < c.utf8Size := Char.utf8Size_pos c
    rw [List.cons_append, takeBytes, size_cons, if_neg (by omega), Nat.add_sub_cancel_left, ih]

end ParseTree

namespace Grammar

variable {g : Grammar R}

/-- Blanks that are passed over are consumed. -/
def SkipReaches (g : Grammar R) : Prop := ∀ c : Cursor, c.Reaches (g.skip c)

theorem reaches_blanks (hskip : g.SkipReaches) (m : Mode) (c : Cursor) :
    c.Reaches (g.blanks m c) := by
  unfold blanks
  split
  next => exact hskip c
  next => exact .refl c

/-- A match consumes characters, and so do the matches of the trees it leaves. -/
theorem Derives.reaches (hskip : g.SkipReaches) {m : Mode} {e : Expr R} {c next : Cursor}
    {trees : List (ParseTree R)} (h : g.Derives m e c next trees) :
    c.Reaches next ∧ ∀ t ∈ trees, t.Fits := by
  have none_fit : ∀ t ∈ ([] : List (ParseTree R)), t.Fits := by simp
  induction h with
  | lit hlit => exact ⟨reaches_of_literal? hlit, none_fit⟩
  | one _ => exact ⟨.cons (.refl _), none_fit⟩
  | @span _ p c => exact ⟨reaches_spanFrom p c.rest c.offset, none_fit⟩
  | done | optNone | starNone | moreNone | not => exact ⟨.refl _, none_fit⟩
  | @rule _ _ _ next _ _ ih =>
    obtain ⟨⟨consumed, hrest, hoffset⟩, hts⟩ := ih
    refine ⟨⟨consumed, hrest, hoffset⟩, ?_⟩
    unfold shown
    split
    next => exact none_fit
    next =>
      intro t ht
      rw [List.mem_singleton.mp ht, ParseTree.Fits]
      exact ⟨⟨consumed, next.rest, hrest, hoffset⟩, ParseTree.allFit_iff.mpr hts⟩
  | @seq m _ _ _ mid _ _ _ _ _ iha ihb =>
    have hblanks := reaches_blanks hskip m mid
    exact ⟨iha.1.trans (hblanks.trans ihb.1), List.forall_mem_append.mpr ⟨iha.2, ihb.2⟩⟩
  | altLeft _ ih | altRight _ ih | opt _ ih => exact ih
  | star _ _ iha ihmore =>
    exact ⟨iha.1.trans ihmore.1, List.forall_mem_append.mpr ⟨iha.2, ihmore.2⟩⟩
  | @more m _ c _ _ _ _ _ _ iha ihmore =>
    have hblanks := reaches_blanks hskip m c
    exact ⟨hblanks.trans (iha.1.trans ihmore.1), List.forall_mem_append.mpr ⟨iha.2, ihmore.2⟩⟩

end Grammar

end SafeIR.Peg
