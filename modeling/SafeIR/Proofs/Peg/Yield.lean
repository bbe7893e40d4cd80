import SafeIR.Proofs.Peg.Outcome

/-!
# What a match comes to

The depth of a match only has to be large enough. `Yields` says what a match comes to at every depth
that is, so that matches can be put together and taken apart without counting.
-/

namespace SafeIR.Peg

variable {R : Type}

namespace Outcome

/-- The match failed. -/
def isFail : Outcome R → Bool
  | fail => true
  | stuck | ok _ _ => false

theorem isFail_iff {o : Outcome R} : o.isFail = true ↔ o = fail := by
  cases o <;> simp [isFail]

theorem ne_stuck_elim {x failed : Outcome R} {matched : Cursor → List (ParseTree R) → Outcome R}
    (hx : x ≠ stuck) (hfailed : x = fail → failed ≠ stuck)
    (hmatched : ∀ next ts, x = ok next ts → matched next ts ≠ stuck) :
    x.elim failed matched ≠ stuck := by
  cases x with
  | stuck => exact absurd rfl hx
  | fail => exact hfailed rfl
  | ok next ts => exact hmatched next ts rfl

theorem prepend_ne_stuck {o : Outcome R} {ts : List (ParseTree R)} :
    o.prepend ts ≠ stuck ↔ o ≠ stuck := by
  cases o <;> simp [prepend, elim]

end Outcome

namespace Grammar

variable {g : Grammar R} {m : Mode} {e a b : Expr R} {c next : Cursor} {o : Outcome R}
  {ts : List (ParseTree R)}

/-- A match that came to an end comes to the same end with more depth. -/
theorem outcome_stable {d d' : Nat} (hle : d ≤ d') (h : g.outcome d m e c ≠ .stuck) :
    g.outcome d' m e c = g.outcome d m e c := by
  induction hle with
  | refl => rfl
  | step _ ih =>
    rcases outcome_succ (g := g) _ m e c with hstuck | heq
    · exact absurd (ih.symm.trans hstuck) h
    · rw [← heq, ih]

/-- A repetition does not fail. -/
theorem outcome_more_ne_fail (d : Nat) : ∀ c, g.outcome d m (.more a) c ≠ .fail := by
  induction d with
  | zero =>
    intro c
    simp [outcome]
  | succ d ih =>
    intro c
    rw [outcome]
    cases g.outcome d m a (g.blanks m c) with
    | stuck | fail => simp [Outcome.elim]
    | ok next ts =>
      rw [Outcome.elim]
      have hmore := ih next
      cases hrest : g.outcome d m (.more a) next <;> simp_all [Outcome.prepend, Outcome.elim]

theorem outcome_star_ne_fail (d : Nat) (c : Cursor) : g.outcome d m (.star a) c ≠ .fail := by
  cases d with
  | zero => simp [outcome]
  | succ d =>
    rw [outcome]
    cases g.outcome d m a c with
    | stuck | fail => simp [Outcome.elim]
    | ok next ts =>
      rw [Outcome.elim]
      have hmore := outcome_more_ne_fail (g := g) (m := m) (a := a) d next
      cases hrest : g.outcome d m (.more a) next <;> simp_all [Outcome.prepend, Outcome.elim]

/-- The match comes to this outcome, if it is given enough depth. -/
def Yields (g : Grammar R) (m : Mode) (e : Expr R) (c : Cursor) (o : Outcome R) : Prop :=
  o ≠ .stuck ∧ ∃ d, g.outcome d m e c = o

theorem yields_outcome {d : Nat} (h : g.outcome d m e c ≠ .stuck) :
    g.Yields m e c (g.outcome d m e c) :=
  ⟨h, d, rfl⟩

namespace Yields

theorem eventually (h : g.Yields m e c o) : ∃ d, ∀ d', d ≤ d' → g.outcome d' m e c = o := by
  obtain ⟨hne, d, rfl⟩ := h
  exact ⟨d, fun d' hle => outcome_stable hle hne⟩

theorem unique {o' : Outcome R} (h : g.Yields m e c o) (h' : g.Yields m e c o') : o = o' := by
  obtain ⟨d, hd⟩ := h.eventually
  obtain ⟨d', hd'⟩ := h'.eventually
  exact (hd _ (Nat.le_max_left d d')).symm.trans (hd' _ (Nat.le_max_right d d'))

/-- Where the depth is enough, the match comes to what it yields. -/
theorem outcome_eq {d : Nat} (h : g.Yields m e c o) (hd : g.outcome d m e c ≠ .stuck) :
    g.outcome d m e c = o :=
  (yields_outcome hd).unique h

/-! ## Matches put together -/

/-- An expression that is matched in one step. -/
theorem leaf (h : g.outcome 1 m e c = o) (hne : o ≠ .stuck) : g.Yields m e c o := ⟨hne, 1, h⟩

theorem lit {text : String} (h : literal? text.toList c = some next) :
    g.Yields m (.lit text) c (.ok next []) := by
  refine leaf ?_ (by simp)
  rw [outcome, h]
  rfl

theorem lit_fail {text : String} (h : literal? text.toList c = none) :
    g.Yields m (.lit text) c .fail := by
  refine leaf ?_ (by simp)
  rw [outcome, h]
  rfl

theorem span (p : Char → Bool) : g.Yields m (.span p) c (.ok (spanFrom p c.rest c.offset) []) :=
  leaf rfl (by simp)

/-- A match made of one match, from one more step of depth. -/
theorem step {m' : Mode} {e' : Expr R} {c' : Cursor} {o' : Outcome R} (h : g.Yields m e c o)
    (hne : o' ≠ .stuck)
    (hstep : ∀ d, g.outcome d m e c = o → g.outcome (d + 1) m' e' c' = o') :
    g.Yields m' e' c' o' := by
  obtain ⟨d, hd⟩ := h.eventually
  exact ⟨hne, d + 1, hstep d (hd d (Nat.le_refl d))⟩

/-- A match made of two matches. -/
theorem step₂ {m' m'' : Mode} {e' e'' : Expr R} {c' c'' : Cursor} {o' o'' : Outcome R}
    (h : g.Yields m e c o) (h' : g.Yields m' e' c' o') (hne : o'' ≠ .stuck)
    (hstep : ∀ d, g.outcome d m e c = o → g.outcome d m' e' c' = o' →
      g.outcome (d + 1) m'' e'' c'' = o'') : g.Yields m'' e'' c'' o'' := by
  obtain ⟨d, hd⟩ := h.eventually
  obtain ⟨d', hd'⟩ := h'.eventually
  exact ⟨hne, max d d' + 1, hstep _ (hd _ (Nat.le_max_left d d')) (hd' _ (Nat.le_max_right d d'))⟩

theorem rule {r : R} (h : g.Yields (m.enter (g.kind r)) (g.body r) c (.ok next ts)) :
    g.Yields m (.rule r) c (.ok next (shown m r c next ts)) :=
  h.step (by simp) fun d hd => by rw [outcome, hd, Outcome.elim]

theorem rule_fail {r : R} (h : g.Yields (m.enter (g.kind r)) (g.body r) c .fail) :
    g.Yields m (.rule r) c .fail :=
  h.step (by simp) fun d hd => by rw [outcome, hd, Outcome.elim]

theorem seq (ha : g.Yields m a c (.ok next ts)) (hb : g.Yields m b (g.blanks m next) o) :
    g.Yields m (.seq a b) c (o.prepend ts) :=
  ha.step₂ hb (Outcome.prepend_ne_stuck.mpr hb.1) fun d hd hd' => by
    rw [outcome, hd, Outcome.elim, hd']

theorem seq_fail (ha : g.Yields m a c .fail) : g.Yields m (.seq a b) c .fail :=
  ha.step (by simp) fun d hd => by rw [outcome, hd, Outcome.elim]

theorem alt_left (ha : g.Yields m a c (.ok next ts)) : g.Yields m (.alt a b) c (.ok next ts) :=
  ha.step (by simp) fun d hd => by rw [outcome, hd, Outcome.elim]

theorem alt_right (ha : g.Yields m a c .fail) (hb : g.Yields m b c o) :
    g.Yields m (.alt a b) c o :=
  ha.step₂ hb hb.1 fun d hd hd' => by rw [outcome, hd, Outcome.elim, hd']

theorem opt (ha : g.Yields m a c (.ok next ts)) : g.Yields m (.opt a) c (.ok next ts) :=
  ha.step (by simp) fun d hd => by rw [outcome, hd, Outcome.elim]

theorem opt_fail (ha : g.Yields m a c .fail) : g.Yields m (.opt a) c (.ok c []) :=
  ha.step (by simp) fun d hd => by rw [outcome, hd, Outcome.elim]

theorem star (ha : g.Yields m a c (.ok next ts)) (hmore : g.Yields m (.more a) next o) :
    g.Yields m (.star a) c (o.prepend ts) :=
  ha.step₂ hmore (Outcome.prepend_ne_stuck.mpr hmore.1) fun d hd hd' => by
    rw [outcome, hd, Outcome.elim, hd']

theorem star_fail (ha : g.Yields m a c .fail) : g.Yields m (.star a) c (.ok c []) :=
  ha.step (by simp) fun d hd => by rw [outcome, hd, Outcome.elim]

theorem more (ha : g.Yields m a (g.blanks m c) (.ok next ts))
    (hmore : g.Yields m (.more a) next o) : g.Yields m (.more a) c (o.prepend ts) :=
  ha.step₂ hmore (Outcome.prepend_ne_stuck.mpr hmore.1) fun d hd hd' => by
    rw [outcome, hd, Outcome.elim, hd']

theorem more_fail (ha : g.Yields m a (g.blanks m c) .fail) :
    g.Yields m (.more a) c (.ok c []) :=
  ha.step (by simp) fun d hd => by rw [outcome, hd, Outcome.elim]

theorem not (ha : g.Yields m.negate a c .fail) : g.Yields m (.not a) c (.ok c []) :=
  ha.step (by simp) fun d hd => by rw [outcome, hd, Outcome.elim]

theorem not_fail (ha : g.Yields m.negate a c (.ok next ts)) : g.Yields m (.not a) c .fail :=
  ha.step (by simp) fun d hd => by rw [outcome, hd, Outcome.elim]

end Yields

end Grammar

end SafeIR.Peg
