import SafeIR.Proofs.Peg.Extent

/-!
# Matches before a barrier

A character that a literal does not contain, or that is not of the class of a run, is a barrier: the
match ends before it, and what stands behind it does not matter.
-/

namespace SafeIR.Peg

variable {p : Char → Bool} {q : Char}

theorem literal?_append (text rest : List Char) (offset : Nat) :
    literal? text ⟨text ++ rest, offset⟩ = some ⟨rest, offset + size text⟩ := by
  induction text generalizing offset with
  | nil => rfl
  | cons x xs ih => rw [List.cons_append, literal?, if_pos rfl, ih, size_cons, Nat.add_assoc]

theorem literal?_barrier {text v rest : List Char} (hq : q ∉ text) (offset : Nat) :
    literal? text ⟨v ++ q :: rest, offset⟩
      = (text.isPrefixOf? v).map fun v' => ⟨v' ++ q :: rest, offset + size text⟩ := by
  induction text generalizing v offset with
  | nil => rfl
  | cons x xs ih =>
    rw [List.mem_cons, not_or] at hq
    obtain ⟨hx, hxs⟩ := hq
    cases v with
    | nil =>
      rw [List.nil_append, literal?, if_neg (Ne.symm hx)]
      rfl
    | cons y v =>
      rw [List.cons_append, literal?, List.isPrefixOf?]
      by_cases hxy : x = y
      · subst hxy
        rw [if_pos rfl, if_pos (beq_self_eq_true x), ih hxs, size_cons, Nat.add_assoc]
      · rw [if_neg hxy, if_neg (by simpa using hxy)]
        rfl

theorem spanFrom_eq (p : Char → Bool) (cs : List Char) (offset : Nat) :
    spanFrom p cs offset = ⟨cs.dropWhile p, offset + size (cs.takeWhile p)⟩ := by
  induction cs generalizing offset with
  | nil => rfl
  | cons c cs ih =>
    rw [spanFrom, List.dropWhile_cons, List.takeWhile_cons]
    by_cases hc : p c = true
    · rw [if_pos hc, if_pos hc, if_pos hc, ih, size_cons, Nat.add_assoc]
    · rw [if_neg hc, if_neg hc, if_neg hc]
      rfl

theorem dropWhile_barrier (hq : p q = false) (v rest : List Char) :
    (v ++ q :: rest).dropWhile p = v.dropWhile p ++ q :: rest := by
  induction v with
  | nil => simp [hq]
  | cons c v ih =>
    rw [List.cons_append, List.dropWhile_cons, List.dropWhile_cons]
    by_cases hc : p c = true
    · rw [if_pos hc, if_pos hc, ih]
    · rw [if_neg hc, if_neg hc, List.cons_append]

theorem takeWhile_barrier (hq : p q = false) (v rest : List Char) :
    (v ++ q :: rest).takeWhile p = v.takeWhile p := by
  induction v with
  | nil => simp [hq]
  | cons c v ih =>
    rw [List.cons_append, List.takeWhile_cons, List.takeWhile_cons]
    by_cases hc : p c = true
    · rw [if_pos hc, if_pos hc, ih]
    · rw [if_neg hc, if_neg hc]

theorem spanFrom_barrier (hq : p q = false) (v rest : List Char) (offset : Nat) :
    spanFrom p (v ++ q :: rest) offset
      = ⟨v.dropWhile p ++ q :: rest, offset + size (v.takeWhile p)⟩ := by
  rw [spanFrom_eq, dropWhile_barrier hq, takeWhile_barrier hq]

/-- A run that takes all of the first part goes on behind it. -/
theorem spanFrom_append (p : Char → Bool) (v rest : List Char) (offset : Nat) :
    spanFrom p (v ++ rest) offset = if v.all p then spanFrom p rest (offset + size v)
      else ⟨v.dropWhile p ++ rest, offset + size (v.takeWhile p)⟩ := by
  induction v generalizing offset with
  | nil => simp
  | cons c v ih =>
    rw [List.cons_append, spanFrom]
    by_cases hc : p c = true
    · simp only [hc, if_true, ih, List.all_cons, Bool.true_and, List.dropWhile_cons_of_pos,
        List.takeWhile_cons_of_pos, size_cons, Nat.add_assoc]
    · simp [hc]

end SafeIR.Peg
