import SafeIR.Proofs.Peg.Extent
import SafeIR.Proofs.Peg.Yield

/-!
# Items in a row

A repetition is a row of items, each behind blanks. Rows can be put together: what a repetition
matches at the end of a row it matches behind the row. And a repetition can be cut between two
items, where each of them shows as one tree.
-/

namespace SafeIR.Peg.Grammar

variable {R : Type} {g : Grammar R} {m : Mode} {a : Expr R}

/-- A row of items from a cursor to another cursor. -/
inductive Items (g : Grammar R) (m : Mode) (a : Expr R) :
    Cursor → List (ParseTree R) → Cursor → Prop where
  | nil (c : Cursor) : Items g m a c [] c
  | cons {c next last : Cursor} {ts us : List (ParseTree R)}
      (item : g.Yields m a (g.blanks m c) (.ok next ts)) (rest : Items g m a next us last) :
      Items g m a c (ts ++ us) last

variable {c last stop : Cursor} {ts us : List (ParseTree R)}

/-- What a repetition matches at the end of a row, it matches behind the row. -/
theorem Items.more (h : Items g m a c ts last)
    (hmore : g.Yields m (.more a) last (.ok stop us)) :
    g.Yields m (.more a) c (.ok stop (ts ++ us)) := by
  induction h with
  | nil => exact hmore
  | cons item _ ih =>
    rw [List.append_assoc]
    exact item.more (ih hmore)

theorem Items.reaches (hskip : g.SkipReaches) (h : Items g m a c ts last) : c.Reaches last := by
  induction h with
  | nil c => exact .refl c
  | cons item _ ih =>
    obtain ⟨-, d, hd⟩ := item
    have hitem := ((derives_of_outcome d hd).reaches hskip).1
    exact (reaches_blanks hskip m _).trans (hitem.trans ih)

/-- A repetition is empty, or an item and a repetition behind it. -/
theorem Yields.more_cases (h : g.Yields m (.more a) c (.ok stop ts)) :
    (ts = [] ∧ stop = c) ∨ ∃ next us vs, g.Yields m a (g.blanks m c) (.ok next us) ∧
      g.Yields m (.more a) next (.ok stop vs) ∧ ts = us ++ vs := by
  obtain ⟨-, d, hd⟩ := h
  cases d with
  | zero => cases hd
  | succ d =>
    rw [outcome] at hd
    rcases Outcome.elim_eq_ok hd with ⟨-, hd⟩ | ⟨next, us, hitem, hd⟩
    · cases hd
      exact .inl ⟨rfl, rfl⟩
    · obtain ⟨vs, hvs, rfl⟩ := Outcome.prepend_eq_ok hd
      exact .inr ⟨next, us, vs, ⟨by simp, d, hitem⟩, ⟨by simp, d, hvs⟩, rfl⟩

/-- A repetition whose items show as one tree each can be cut between two trees. -/
theorem Items.of_more (hone : ∀ c next us, g.Yields m a c (.ok next us) → us.length = 1)
    (h : g.Yields m (.more a) c (.ok stop (ts ++ us))) :
    ∃ last, Items g m a c ts last ∧ g.Yields m (.more a) last (.ok stop us) := by
  induction ts generalizing c with
  | nil => exact ⟨c, .nil c, h⟩
  | cons t ts ih =>
    rcases h.more_cases with ⟨hnil, -⟩ | ⟨next, us', vs, hitem, hmore, heq⟩
    · cases hnil
    · obtain ⟨u, rfl⟩ := List.length_eq_one_iff.mp (hone _ _ _ hitem)
      obtain ⟨rfl, rfl⟩ : t = u ∧ ts ++ us = vs := by simpa using heq
      obtain ⟨last, hitems, hlast⟩ := ih hmore
      exact ⟨last, .cons hitem hitems, hlast⟩

/-- A repetition starts where blanks have been passed over. -/
theorem outcome_star (d : Nat) (h : g.blanks m c = c) :
    g.outcome d m (.star a) c = g.outcome d m (.more a) c := by
  cases d with
  | zero => rfl
  | succ d => rw [outcome, outcome, h]

/-- A repetition that goes on does so alike at two cursors with only blanks between them. -/
theorem outcome_more_congr {d : Nat} {c c' last : Cursor} {ts : List (ParseTree R)}
    (hc : g.blanks m c = g.blanks m c') (h : g.outcome d m (.more a) c = .ok last ts) :
    ∃ last', g.outcome d m (.more a) c' = .ok last' ts ∧ g.blanks m last' = g.blanks m last := by
  cases d with
  | zero => cases h
  | succ d =>
    rw [outcome, hc] at h
    rcases Outcome.elim_eq_ok h with ⟨hfail, h⟩ | ⟨next, us, hitem, h⟩
    · -- no item follows, and the repetition ends where it stands
      cases h
      refine ⟨c', ?_, hc.symm⟩
      rw [outcome, hfail]
      rfl
    · refine ⟨last, ?_, rfl⟩
      rw [outcome, hitem]
      exact h

end SafeIR.Peg.Grammar
