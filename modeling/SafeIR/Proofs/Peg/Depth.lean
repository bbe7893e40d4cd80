import SafeIR.Proofs.Peg.Extent
import SafeIR.Proofs.Peg.Yield

/-!
# Enough depth

A match nests as deep as the expressions go before a character is consumed, and then again before
the next one. Where no repeated item is empty and no rule comes back to itself without consuming
anything, the number of levels between two characters is bounded (`descends`), and the depth that
`parse` computes is enough (`outcome_ne_stuck`).
-/

namespace SafeIR.Peg.Grammar

variable {R : Type} {next c : Cursor} {e : Expr R}

/-- Every match consumes a character. Rules are looked into, `n` levels down. -/
def consumes (g : Grammar R) : Nat → Expr R → Bool
  | 0, _ => false
  | n + 1, e =>
    match e with
    | .lit text => ! text.toList.isEmpty
    | .one _ => true
    | .rule r => g.consumes n (g.body r)
    | .seq a b => g.consumes n a || g.consumes n b
    | .alt a b => g.consumes n a && g.consumes n b
    | _ => false

/-- The number of levels between two characters. -/
def levels : Nat := 128

/-- No match nests more than this many levels deep before it consumes a character. -/
def descends (g : Grammar R) : Nat → Expr R → Bool
  | 0, _ => false
  | k + 1, e =>
    match e with
    | .lit _ | .one _ | .span _ | .done => true
    | .rule r => g.descends k (g.body r)
    | .seq a b => g.descends k a && (g.consumes levels a || g.descends k b)
    | .alt a b => g.descends k a && g.descends k b
    | .opt a | .not a => g.descends k a
    | .star a | .more a => g.consumes levels a && g.descends k a

/-- The bound on levels holds again from wherever a character may have been consumed. -/
def bounded (g : Grammar R) : Expr R → Bool
  | .seq a b => g.bounded a && g.bounded b && g.descends levels b
  | .alt a b => g.bounded a && g.bounded b
  | .opt a | .star a | .more a | .not a => g.bounded a
  | .lit _ | .one _ | .span _ | .done | .rule _ => true

variable {g : Grammar R}

theorem descends_mono {k k' : Nat} (hle : k ≤ k') (h : g.descends k e = true) :
    g.descends k' e = true := by
  induction k generalizing k' e with
  | zero => cases h
  | succ k ih =>
    obtain ⟨k', rfl⟩ : ∃ k'', k' = k'' + 1 := ⟨k' - 1, by omega⟩
    have hle' : k ≤ k' := by omega
    cases e with
    | lit _ | one _ | span _ | done => rfl
    | rule r => exact ih (e := g.body r) hle' h
    | seq a b =>
      obtain ⟨ha, hb⟩ := Bool.and_eq_true_iff.mp h
      refine Bool.and_eq_true_iff.mpr ⟨ih hle' ha, ?_⟩
      exact Bool.or_eq_true_iff.mpr ((Bool.or_eq_true_iff.mp hb).imp_right (ih hle'))
    | alt a b =>
      obtain ⟨ha, hb⟩ := Bool.and_eq_true_iff.mp h
      exact Bool.and_eq_true_iff.mpr ⟨ih hle' ha, ih hle' hb⟩
    | opt a | not a => exact ih (e := a) hle' h
    | star a | more a =>
      obtain ⟨hc, ha⟩ := Bool.and_eq_true_iff.mp h
      exact Bool.and_eq_true_iff.mpr ⟨hc, ih hle' ha⟩

theorem length_lt_of_literal? {text : List Char}
    (h : literal? text c = some next) (hne : text ≠ []) : next.rest.length < c.rest.length := by
  cases text with
  | nil => exact absurd rfl hne
  | cons x xs =>
    obtain ⟨rest, offset⟩ := c
    cases rest with
    | nil => cases h
    | cons y rest =>
      rw [literal?] at h
      split at h
      next =>
        obtain ⟨consumed, hrest, -⟩ := reaches_of_literal? h
        simp only at hrest
        rw [hrest, List.length_cons, List.length_append]
        omega
      next => cases h

theorem length_le_of_reaches (h : c.Reaches next) : next.rest.length ≤ c.rest.length := by
  obtain ⟨consumed, hrest, -⟩ := h
  rw [hrest, List.length_append]
  omega

theorem length_blanks_le (hskip : g.SkipReaches) (m : Mode) (c : Cursor) :
    (g.blanks m c).rest.length ≤ c.rest.length :=
  length_le_of_reaches (reaches_blanks hskip m c)

theorem Derives.length_le (hskip : g.SkipReaches) {m : Mode} {ts : List (ParseTree R)}
    (h : g.Derives m e c next ts) : next.rest.length ≤ c.rest.length :=
  length_le_of_reaches (h.reaches hskip).1

/-- What consumes leaves less. -/
theorem Derives.length_lt (hskip : g.SkipReaches) {n : Nat} {m : Mode} {ts : List (ParseTree R)}
    (he : g.consumes n e = true) (h : g.Derives m e c next ts) :
    next.rest.length < c.rest.length := by
  induction n generalizing m e c next ts with
  | zero => cases he
  | succ n ih =>
    cases h with
    | lit hlit => exact length_lt_of_literal? hlit (by simpa [consumes] using he)
    | one _ => exact Nat.lt_succ_self _
    | rule hbody => exact ih he hbody
    | @seq _ _ _ _ mid _ _ _ ha hb =>
      have hmid := ha.length_le hskip
      have hblanks := length_blanks_le hskip m mid
      have hnext := hb.length_le hskip
      rcases Bool.or_eq_true_iff.mp he with hca | hcb
      · have hlt := ih hca ha
        omega
      · have hlt := ih hcb hb
        omega
    | altLeft ha => exact ih (Bool.and_eq_true_iff.mp he).1 ha
    | altRight hb => exact ih (Bool.and_eq_true_iff.mp he).2 hb
    | span | done | opt _ | optNone | star _ _ | starNone | more _ _ | moreNone | not => cases he

/-- **The depth is enough** for the levels that remain before a character is consumed, and for all
levels before each further character. The induction is on the characters, and on the levels before
the next one. -/
theorem outcome_ne_stuck_of_descends (hskip : g.SkipReaches)
    (hg : ∀ r, g.bounded (g.body r) = true) (n : Nat) :
    ∀ (k : Nat) (e : Expr R), k ≤ levels → g.descends k e = true → g.bounded e = true →
      ∀ (m : Mode) (c : Cursor) (d : Nat), c.rest.length ≤ n → levels * n + k ≤ d →
        g.outcome d m e c ≠ .stuck := by
  induction n using Nat.strongRecOn with
  | ind n ihn =>
  intro k
  induction k with
  | zero =>
    intro e _ he
    cases he
  | succ k ih =>
    intro e hk he hbounded m c d hc hd
    obtain ⟨d, rfl⟩ : ∃ d', d = d' + 1 := ⟨d - 1, by omega⟩
    have hd' : levels * n + k ≤ d := by omega
    have hk' : k ≤ levels := by omega
    -- behind a character there are all levels again
    have behind : ∀ {b : Expr R} {c' : Cursor}, g.descends levels b = true → g.bounded b = true →
        c'.rest.length < c.rest.length → g.outcome d m b c' ≠ .stuck := by
      intro b c' hlevels hb hlt
      refine ihn (n - 1) (by omega) levels b (Nat.le_refl _) hlevels hb m c' d (by omega) ?_
      obtain ⟨n', rfl⟩ : ∃ n', n = n' + 1 := ⟨n - 1, by omega⟩
      rw [Nat.mul_succ] at hd'
      rw [Nat.add_sub_cancel]
      omega
    cases e with
    | lit text =>
      rw [outcome]
      cases literal? text.toList c <;> simp
    | one p =>
      rw [outcome]
      cases c.rest with
      | nil => simp
      | cons x rest =>
        simp only
        split <;> simp
    | span p => simp [outcome]
    | done =>
      rw [outcome]
      split <;> simp
    | rule r =>
      exact Outcome.ne_stuck_elim (ih (g.body r) hk' he (hg r) _ c d hc hd') (by simp) (by simp)
    | seq a b =>
      simp only [bounded, Bool.and_eq_true] at hbounded
      obtain ⟨⟨hba, hbb⟩, hlevels⟩ := hbounded
      obtain ⟨hda, hdb⟩ := Bool.and_eq_true_iff.mp he
      refine Outcome.ne_stuck_elim (ih a hk' hda hba m c d hc hd') (by simp) ?_
      intro next ts ha
      rw [Outcome.prepend_ne_stuck]
      have hblanks := length_blanks_le hskip m next
      rcases Bool.or_eq_true_iff.mp hdb with hca | hdb
      · have hlt := (derives_of_outcome d ha).length_lt hskip hca
        exact behind hlevels hbb (by omega)
      · have hle := (derives_of_outcome d ha).length_le hskip
        exact ih b hk' hdb hbb m _ d (by omega) hd'
    | alt a b =>
      simp only [bounded, Bool.and_eq_true] at hbounded
      obtain ⟨hda, hdb⟩ := Bool.and_eq_true_iff.mp he
      refine Outcome.ne_stuck_elim (ih a hk' hda hbounded.1 m c d hc hd') ?_ (by simp)
      intro _
      exact ih b hk' hdb hbounded.2 m c d hc hd'
    | opt a | not a =>
      exact Outcome.ne_stuck_elim (ih a hk' he hbounded _ c d hc hd') (by simp) (by simp)
    | star a =>
      have hmore : g.descends levels (.more a) = true :=
        descends_mono (e := .more a) hk he
      obtain ⟨hca, hda⟩ := Bool.and_eq_true_iff.mp he
      refine Outcome.ne_stuck_elim (ih a hk' hda hbounded m c d hc hd') (by simp) ?_
      intro next ts ha
      rw [Outcome.prepend_ne_stuck]
      exact behind hmore hbounded ((derives_of_outcome d ha).length_lt hskip hca)
    | more a =>
      have hmore : g.descends levels (.more a) = true := descends_mono hk he
      obtain ⟨hca, hda⟩ := Bool.and_eq_true_iff.mp he
      have hblanks := length_blanks_le hskip m c
      refine Outcome.ne_stuck_elim (ih a hk' hda hbounded m _ d (by omega) hd') (by simp) ?_
      intro next ts ha
      rw [Outcome.prepend_ne_stuck]
      have hlt := (derives_of_outcome d ha).length_lt hskip hca
      exact behind hmore hbounded (by omega)

/-- The depth that `parse` computes for an input is enough to match any bounded expression. -/
theorem outcome_ne_stuck (hskip : g.SkipReaches) (hg : ∀ r, g.bounded (g.body r) = true)
    {e : Expr R} (hlevels : g.descends levels e = true) (he : g.bounded e = true) (m : Mode)
    (input : List Char) (offset : Nat) : g.outcome (depth input) m e ⟨input, offset⟩ ≠ .stuck := by
  refine outcome_ne_stuck_of_descends hskip hg input.length levels e (Nat.le_refl _) hlevels he m
    _ _ (Nat.le_refl _) ?_
  simp only [depth, levels]
  omega

end SafeIR.Peg.Grammar
