import SafeIR.Proofs.Peg.Extent
import SafeIR.Source.Grammar

/-!
# Blanks

What is passed over between two parts of a text: blanks and comments. Where they end is settled by
the character they end before, and passing over them twice is passing over them once.
-/

namespace SafeIR.Source

open Peg (Cursor)
open Peg.Grammar

/-- At a character the blanks end, or they go on behind it. -/
theorem skipFrom_cons (comment : Bool) (c : Char) :
    (comment = false ∧ ∀ cs offset, skipFrom comment (c :: cs) offset = ⟨c :: cs, offset⟩) ∨
      ∃ comment', ∀ cs offset,
        skipFrom comment (c :: cs) offset = skipFrom comment' cs (offset + c.utf8Size) := by
  cases comment with
  | true => exact .inr ⟨c != '\n', fun cs offset => rfl⟩
  | false =>
    by_cases hblank : (c == ' ' || c == '\t' || c == '\r' || c == '\n') = true
    · have hsize : c.utf8Size = 1 := by
        simp only [Bool.or_eq_true, beq_iff_eq] at hblank
        rcases hblank with ((rfl | rfl) | rfl) | rfl <;> rfl
      refine .inr ⟨false, fun cs offset => ?_⟩
      rw [skipFrom, if_neg Bool.false_ne_true, if_pos hblank, hsize]
    · by_cases hmark : (c == ';') = true
      · obtain rfl := beq_iff_eq.mp hmark
        exact .inr ⟨true, fun cs offset => rfl⟩
      · refine .inl ⟨rfl, fun cs offset => ?_⟩
        rw [skipFrom, if_neg Bool.false_ne_true, if_neg hblank, if_neg hmark]

theorem skipFrom_moved {k : Nat} {y cs : List Char} (comment : Bool) (offset : Nat)
    (h : y = [] ∨ (skipFrom comment cs offset).rest ≠ []) :
    skipFrom comment (cs ++ y) (offset + k) = (skipFrom comment cs offset).moved k y := by
  induction cs generalizing comment offset with
  | nil =>
    rcases h with rfl | h
    · rfl
    · exact absurd rfl h
  | cons c cs ih =>
    rcases skipFrom_cons comment c with ⟨-, hstop⟩ | ⟨comment', hpass⟩
    · rw [List.cons_append, hstop, hstop]
      rfl
    · rw [hpass] at h
      rw [List.cons_append, hpass, hpass, Nat.add_right_comm]
      exact ih _ _ h

theorem skipFrom_skipFrom (comment : Bool) (cs : List Char) (offset : Nat) :
    grammar.skip (skipFrom comment cs offset) = skipFrom comment cs offset := by
  induction cs generalizing comment offset with
  | nil => rfl
  | cons c cs ih =>
    rcases skipFrom_cons comment c with ⟨rfl, hstop⟩ | ⟨comment', hpass⟩
    · rw [hstop]
      exact hstop cs offset
    · rw [hpass]
      exact ih _ _

theorem reaches_skipFrom (comment : Bool) (cs : List Char) (offset : Nat) :
    Cursor.Reaches ⟨cs, offset⟩ (skipFrom comment cs offset) := by
  induction cs generalizing comment offset with
  | nil => exact .refl _
  | cons c cs ih =>
    rcases skipFrom_cons comment c with ⟨-, hstop⟩ | ⟨comment', hpass⟩
    · rw [hstop]
      exact .refl _
    · rw [hpass]
      exact .cons (ih _ _)

theorem skipFrom_newline (comment : Bool) (cs : List Char) (offset : Nat) :
    skipFrom comment ('\n' :: cs) offset = skipFrom false cs (offset + 1) := by
  cases comment <;> rfl

/-- Blanks that go on behind a line feed do so whatever stands there. -/
theorem skipFrom_line {comment : Bool} {u v : List Char} {offset : Nat}
    (h : offset + Peg.size u < (skipFrom comment (u ++ '\n' :: v) offset).offset)
    (v' : List Char) :
    skipFrom comment (u ++ '\n' :: v') offset = skipFrom false v' (offset + Peg.size u + 1) := by
  induction u generalizing comment offset with
  | nil => exact skipFrom_newline comment v' offset
  | cons c u ih =>
    rw [List.cons_append] at h ⊢
    rw [Peg.size_cons, ← Nat.add_assoc] at h ⊢
    rcases skipFrom_cons comment c with ⟨-, hstop⟩ | ⟨comment', hpass⟩
    · rw [hstop] at h
      exact absurd h (by simp; omega)
    · rw [hpass] at h ⊢
      exact ih h

theorem skipMoves : grammar.SkipMoves := fun _ _ c h => skipFrom_moved false c.offset h

theorem skipReaches : grammar.SkipReaches := fun c => reaches_skipFrom false c.rest c.offset

theorem skip_skip (c : Cursor) : grammar.skip (grammar.skip c) = grammar.skip c :=
  skipFrom_skipFrom false c.rest c.offset

end SafeIR.Source
