import SafeIR.Proofs.Peg.Items
import SafeIR.Proofs.Peg.Row
import SafeIR.Proofs.Peg.Yield

/-!
# Matches taken apart

What a match that succeeded was made of: one lemma for each kind of expression, and for a rule that
is repeated the row of its matches, each from where blanks behind the one before it end. A row goes
as far as it can.
-/

namespace SafeIR.Peg

variable {R : Type}

/-- The rules that an expression tries, outside look-aheads. -/
def Expr.rules : Expr R → List R
  | .rule r => [r]
  | .seq a b | .alt a b => a.rules ++ b.rules
  | .opt a | .star a | .more a => a.rules
  | .lit _ | .one _ | .span _ | .done | .not _ => []

namespace Grammar

variable {g : Grammar R} {m : Mode} {e a b : Expr R} {c next last : Cursor}
  {ts : List (ParseTree R)}

namespace Yields

/-- An expression that succeeded did so at some depth above zero. -/
theorem exists_succ (h : g.Yields m e c (.ok next ts)) :
    ∃ d, g.outcome (d + 1) m e c = .ok next ts := by
  obtain ⟨-, d, hd⟩ := h
  cases d with
  | zero => cases hd
  | succ d => exact ⟨d, hd⟩

theorem of_outcome {d : Nat} (h : g.outcome d m e c = .ok next ts) : g.Yields m e c (.ok next ts) :=
  ⟨by simp, d, h⟩

theorem of_outcome_fail {d : Nat} (h : g.outcome d m e c = .fail) : g.Yields m e c .fail :=
  ⟨by simp, d, h⟩

theorem lit_inv {text : String} (h : g.Yields m (.lit text) c (.ok next ts)) :
    literal? text.toList c = some next ∧ ts = [] := by
  obtain ⟨d, h⟩ := h.exists_succ
  rw [outcome] at h
  cases hlit : literal? text.toList c with
  | none =>
    rw [hlit] at h
    cases h
  | some mid =>
    rw [hlit] at h
    cases h
    exact ⟨rfl, rfl⟩

theorem rule_inv {r : R} (h : g.Yields m (.rule r) c (.ok next ts)) :
    ∃ us, g.Yields (m.enter (g.kind r)) (g.body r) c (.ok next us) ∧ ts = shown m r c next us := by
  obtain ⟨d, h⟩ := h.exists_succ
  rcases Outcome.elim_eq_ok h with ⟨-, h⟩ | ⟨mid, us, hbody, h⟩
  · cases h
  · cases h
    exact ⟨us, .of_outcome hbody, rfl⟩

theorem seq_inv (h : g.Yields m (.seq a b) c (.ok last ts)) :
    ∃ next us vs, g.Yields m a c (.ok next us) ∧ g.Yields m b (g.blanks m next) (.ok last vs) ∧
      ts = us ++ vs := by
  obtain ⟨d, h⟩ := h.exists_succ
  rcases Outcome.elim_eq_ok h with ⟨-, h⟩ | ⟨next, us, ha, hb⟩
  · cases h
  · obtain ⟨vs, hmatch, rfl⟩ := Outcome.prepend_eq_ok hb
    exact ⟨next, us, vs, .of_outcome ha, .of_outcome hmatch, rfl⟩

theorem alt_inv (h : g.Yields m (.alt a b) c (.ok next ts)) :
    g.Yields m a c (.ok next ts) ∨ g.Yields m b c (.ok next ts) := by
  obtain ⟨d, h⟩ := h.exists_succ
  rcases Outcome.elim_eq_ok h with ⟨-, hb⟩ | ⟨mid, us, ha, h⟩
  · exact .inr (.of_outcome hb)
  · cases h
    exact .inl (.of_outcome ha)

theorem opt_inv (h : g.Yields m (.opt a) c (.ok next ts)) :
    g.Yields m a c .fail ∧ next = c ∧ ts = [] ∨ g.Yields m a c (.ok next ts) := by
  obtain ⟨d, h⟩ := h.exists_succ
  rcases Outcome.elim_eq_ok h with ⟨hfail, h⟩ | ⟨mid, us, ha, h⟩
  · cases h
    exact .inl ⟨.of_outcome_fail hfail, rfl, rfl⟩
  · cases h
    exact .inr (.of_outcome ha)

end Yields

/-! ## Rules of trees -/

/-- A match leaves trees of the rules that the expression tries. -/
theorem Derives.rule_mem (h : g.Derives m e c next ts) : ∀ t ∈ ts, t.rule ∈ e.rules := by
  induction h with
  | lit _ | one _ | span | done | optNone | starNone | moreNone | not => simp
  | rule _ _ =>
    intro t ht
    unfold shown at ht
    split at ht
    next => cases ht
    next =>
      rw [List.mem_singleton.mp ht]
      exact List.mem_singleton.mpr rfl
  | seq _ _ iha ihb =>
    intro t ht
    exact List.mem_append.mpr ((List.mem_append.mp ht).imp (iha t) (ihb t))
  | altLeft _ ih => exact fun t ht => List.mem_append_left _ (ih t ht)
  | altRight _ ih => exact fun t ht => List.mem_append_right _ (ih t ht)
  | opt _ ih => exact ih
  | star _ _ iha ihmore | more _ _ iha ihmore =>
    intro t ht
    exact (List.mem_append.mp ht).elim (iha t) (ihmore t)

theorem Yields.derives (h : g.Yields m e c (.ok next ts)) : g.Derives m e c next ts := by
  obtain ⟨-, d, hd⟩ := h
  exact derives_of_outcome d hd

theorem Yields.rule_mem (h : g.Yields m e c (.ok next ts)) : ∀ t ∈ ts, t.rule ∈ e.rules :=
  h.derives.rule_mem

theorem Yields.row (hskip : g.SkipReaches) (h : g.Yields m e c (.ok next ts)) :
    ParseTree.Row ts c next :=
  h.derives.row hskip

/-! ## Rows of one rule -/

/-- A rule matched again and again, each time from where blanks end. -/
inductive RuleRow (g : Grammar R) (r : R) : Cursor → List (ParseTree R) → Cursor → Prop where
  | nil (c : Cursor) : RuleRow g r c [] c
  | cons {c next last : Cursor} {t : ParseTree R} {ts : List (ParseTree R)}
      (item : g.Yields {} (.rule r) c (.ok next [t]))
      (rest : RuleRow g r (g.blanks {} next) ts last) : RuleRow g r c (t :: ts) last

theorem row_of_more {r : R} (d : Nat) : ∀ {c last : Cursor} {ts : List (ParseTree R)},
    g.outcome d {} (.more (.rule r)) c = .ok last ts →
      RuleRow g r (g.blanks {} c) ts (g.blanks {} last) ∧
        g.Yields {} (.rule r) (g.blanks {} last) .fail := by
  induction d with
  | zero =>
    intro c last ts h
    cases h
  | succ d ih =>
    intro c last ts h
    rcases Outcome.elim_eq_ok h with ⟨hfail, h⟩ | ⟨next, us, hitem, hmore⟩
    · cases h
      exact ⟨.nil _, .of_outcome_fail hfail⟩
    · obtain ⟨vs, hmatch, rfl⟩ := Outcome.prepend_eq_ok hmore
      obtain ⟨hrow, hfail⟩ := ih hmatch
      have hyields := Yields.of_outcome hitem
      obtain ⟨children, -, rfl⟩ := hyields.rule_inv
      exact ⟨.cons hyields hrow, hfail⟩

/-- One match of a rule and as many more as there are. -/
theorem row_of_plus {r : R} (hskip : ∀ c, g.blanks {} (g.blanks {} c) = g.blanks {} c)
    (h : g.Yields {} (.plus (.rule r)) c (.ok last ts)) :
    ts ≠ [] ∧ RuleRow g r c ts (g.blanks {} last) ∧
      g.Yields {} (.rule r) (g.blanks {} last) .fail := by
  obtain ⟨next, us, vs, hitem, hstar, rfl⟩ := h.seq_inv
  obtain ⟨d, hstar⟩ := hstar.exists_succ
  rw [outcome_star _ (hskip next)] at hstar
  obtain ⟨hrow, hfail⟩ := row_of_more _ hstar
  rw [hskip] at hrow
  obtain ⟨children, -, rfl⟩ := hitem.rule_inv
  exact ⟨by simp [shown], .cons hitem hrow, hfail⟩

end Grammar

end SafeIR.Peg
