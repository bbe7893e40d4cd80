import Mathlib.Data.List.Basic
import SafeIR.Peg.Match

/-!
# Outcomes of matches

What a match comes to, without the furthest offset that it reports. The outcome does not depend on
the furthest offset it starts from (`outcome_run`), nor on the depth, once that suffices
(`outcome_mono`). What holds of all matches is shown along the derivation of a match, which has no
depth (`derives_of_outcome`).

A match can be moved: it goes the same way at other offsets, and also if the input goes on where it
ended before, unless the match has come to that end (`outcome_moved`).
-/

namespace SafeIR.Peg

variable {R : Type} {y : List Char} {k : Nat}

/-! ## Outcomes -/

/-- What a match comes to, without the furthest place. -/
inductive Outcome (R : Type) where
  | stuck
  | fail
  | ok (next : Cursor) (trees : List (ParseTree R))

/-- The reply without the furthest place. -/
def Reply.outcome : Reply R → Outcome R
  | .stuck => .stuck
  | .fail _ => .fail
  | .ok next _ trees => .ok next trees

namespace Outcome

/-- Go on after a failure, or after a match. -/
def elim (x failed : Outcome R) (matched : Cursor → List (ParseTree R) → Outcome R) : Outcome R :=
  match x with
  | stuck => stuck
  | fail => failed
  | ok next trees => matched next trees

/-- The outcome with trees that come before its own. -/
def prepend (ts : List (ParseTree R)) (x : Outcome R) : Outcome R :=
  x.elim fail fun next us => ok next (ts ++ us)

theorem elim_eq_ok {x failed : Outcome R} {matched : Cursor → List (ParseTree R) → Outcome R}
    {next : Cursor} {trees : List (ParseTree R)} (h : x.elim failed matched = ok next trees) :
    x = fail ∧ failed = ok next trees ∨
      ∃ next' us, x = ok next' us ∧ matched next' us = ok next trees := by
  cases x with
  | stuck => cases h
  | fail => exact .inl ⟨rfl, h⟩
  | ok next' us => exact .inr ⟨next', us, rfl, h⟩

theorem prepend_nil (x : Outcome R) : x.prepend [] = x := by
  cases x <;> rfl

theorem prepend_eq_ok {x : Outcome R} {ts trees : List (ParseTree R)} {next : Cursor}
    (h : x.prepend ts = ok next trees) : ∃ us, x = ok next us ∧ trees = ts ++ us := by
  rcases elim_eq_ok h with ⟨-, h⟩ | ⟨next', us, hx, h⟩
  · cases h
  · cases h
    exact ⟨us, hx, rfl⟩

end Outcome

namespace Grammar

variable (g : Grammar R)

/-- The trees that a rule leaves when its body leaves some. -/
def shown (m : Mode) (r : R) (c next : Cursor) (trees : List (ParseTree R)) :
    List (ParseTree R) :=
  if m.atomic || m.look ≠ .none then [] else [.node r c.offset c.rest next.offset trees]

/-- A match, without the furthest place that it looks at. -/
def outcome : Nat → Mode → Expr R → Cursor → Outcome R
  | 0, _, _, _ => .stuck
  | depth + 1, m, e, c =>
    match e with
    | .lit text => (literal? text.toList c).elim .fail fun next => .ok next []
    | .one p =>
      match c.rest with
      | x :: rest => if p x then .ok ⟨rest, c.offset + x.utf8Size⟩ [] else .fail
      | [] => .fail
    | .span p => .ok (spanFrom p c.rest c.offset) []
    | .done => if c.rest.isEmpty then .ok c [] else .fail
    | .rule r =>
      (outcome depth (m.enter (g.kind r)) (g.body r) c).elim .fail fun next trees =>
        .ok next (shown m r c next trees)
    | .seq a b =>
      (outcome depth m a c).elim .fail fun next trees =>
        (outcome depth m b (g.blanks m next)).prepend trees
    | .alt a b => (outcome depth m a c).elim (outcome depth m b c) .ok
    | .opt a => (outcome depth m a c).elim (.ok c []) .ok
    | .star a =>
      (outcome depth m a c).elim (.ok c []) fun next trees =>
        (outcome depth m (.more a) next).prepend trees
    | .more a =>
      (outcome depth m a (g.blanks m c)).elim (.ok c []) fun next trees =>
        (outcome depth m (.more a) next).prepend trees
    | .not a => (outcome depth m.negate a c).elim (.ok c []) fun _ _ => .fail

variable {g}

/-- The furthest offset is only reported; the match does not depend on it. -/
theorem outcome_run (depth : Nat) : ∀ (m : Mode) (e : Expr R) (c : Cursor) (far : Nat),
    (g.run depth m e c far).outcome = g.outcome depth m e c := by
  -- The furthest place is only handed on: no branch is taken on it.
  induction depth with
  | zero =>
    intro m e c far
    rfl
  | succ d ih =>
    intro m e c far
    cases e with
    | lit text =>
      rw [run, outcome]
      cases literal? text.toList c <;> rfl
    | one p =>
      rw [run, outcome]
      cases c.rest with
      | nil => rfl
      | cons x rest =>
        simp only
        split <;> rfl
    | span p => rfl
    | done =>
      rw [run, outcome]
      split <;> rfl
    | rule r =>
      rw [run, outcome, ← ih _ _ _ far]
      cases g.run d (m.enter (g.kind r)) (g.body r) c far <;> rfl
    | seq a b =>
      rw [run, outcome, ← ih m a c far]
      cases g.run d m a c far with
      | stuck => rfl
      | fail _ => rfl
      | ok next far' trees =>
        simp only [Reply.outcome, Outcome.elim]
        rw [← ih m b (g.blanks m next) far']
        cases g.run d m b (g.blanks m next) far' <;> rfl
    | alt a b =>
      rw [run, outcome, ← ih m a c far]
      cases g.run d m a c far with
      | stuck => rfl
      | fail far' => exact ih m b c far'
      | ok next far' trees => rfl
    | opt a =>
      rw [run, outcome, ← ih m a c far]
      cases g.run d m a c far <;> rfl
    | star a =>
      rw [run, outcome, ← ih m a c far]
      cases g.run d m a c far with
      | stuck => rfl
      | fail _ => rfl
      | ok next far' trees =>
        simp only [Reply.outcome, Outcome.elim]
        rw [← ih m (.more a) next far']
        cases g.run d m (.more a) next far' <;> rfl
    | more a =>
      rw [run, outcome, ← ih m a (g.blanks m c) far]
      cases g.run d m a (g.blanks m c) far with
      | stuck => rfl
      | fail _ => rfl
      | ok next far' trees =>
        simp only [Reply.outcome, Outcome.elim]
        rw [← ih m (.more a) next far']
        cases g.run d m (.more a) next far' <;> rfl
    | not a =>
      rw [run, outcome, ← ih m.negate a c far]
      cases g.run d m.negate a c far <;> rfl

/-- A text is parsed where its rule matches from its start. -/
theorem parse_eq_ok_iff {r : R} {input : List Char} {t : ParseTree R} :
    g.parse r input = .ok t ↔
      ∃ next ts, g.outcome (depth input) {} (.rule r) ⟨input, 0⟩ = .ok next (t :: ts) := by
  rw [← outcome_run (depth input) {} (.rule r) ⟨input, 0⟩ 0, parse]
  cases g.run (depth input) {} (.rule r) ⟨input, 0⟩ 0 with
  | stuck => simp [Reply.outcome]
  | fail far => simp [Reply.outcome]
  | ok next far trees =>
    cases trees with
    | nil => simp [Reply.outcome]
    | cons u us => simp [Reply.outcome]

/-! ## Derivations -/

/-- How an expression matches, by the matches of its parts; what was tried in vain leaves no
mark. -/
inductive Derives (g : Grammar R) :
    Mode → Expr R → Cursor → Cursor → List (ParseTree R) → Prop where
  | lit {m : Mode} {text : String} {c next : Cursor} (h : literal? text.toList c = some next) :
    Derives g m (.lit text) c next []
  | one {m : Mode} {p : Char → Bool} {x : Char} {rest : List Char} {offset : Nat}
      (hx : p x = true) :
    Derives g m (.one p) ⟨x :: rest, offset⟩ ⟨rest, offset + x.utf8Size⟩ []
  | span {m : Mode} {p : Char → Bool} {c : Cursor} :
    Derives g m (.span p) c (spanFrom p c.rest c.offset) []
  | done {m : Mode} {offset : Nat} : Derives g m .done ⟨[], offset⟩ ⟨[], offset⟩ []
  | rule {m : Mode} {r : R} {c next : Cursor} {ts : List (ParseTree R)}
      (hbody : Derives g (m.enter (g.kind r)) (g.body r) c next ts) :
    Derives g m (.rule r) c next (shown m r c next ts)
  | seq {m : Mode} {a b : Expr R} {c mid next : Cursor} {ts us : List (ParseTree R)}
      (ha : Derives g m a c mid ts) (hb : Derives g m b (g.blanks m mid) next us) :
    Derives g m (.seq a b) c next (ts ++ us)
  | altLeft {m : Mode} {a b : Expr R} {c next : Cursor} {ts : List (ParseTree R)}
      (ha : Derives g m a c next ts) : Derives g m (.alt a b) c next ts
  | altRight {m : Mode} {a b : Expr R} {c next : Cursor} {ts : List (ParseTree R)}
      (hb : Derives g m b c next ts) : Derives g m (.alt a b) c next ts
  | opt {m : Mode} {a : Expr R} {c next : Cursor} {ts : List (ParseTree R)}
      (ha : Derives g m a c next ts) : Derives g m (.opt a) c next ts
  | optNone {m : Mode} {a : Expr R} {c : Cursor} : Derives g m (.opt a) c c []
  | star {m : Mode} {a : Expr R} {c mid next : Cursor} {ts us : List (ParseTree R)}
      (ha : Derives g m a c mid ts) (hmore : Derives g m (.more a) mid next us) :
    Derives g m (.star a) c next (ts ++ us)
  | starNone {m : Mode} {a : Expr R} {c : Cursor} : Derives g m (.star a) c c []
  | more {m : Mode} {a : Expr R} {c mid next : Cursor} {ts us : List (ParseTree R)}
      (ha : Derives g m a (g.blanks m c) mid ts) (hmore : Derives g m (.more a) mid next us) :
    Derives g m (.more a) c next (ts ++ us)
  | moreNone {m : Mode} {a : Expr R} {c : Cursor} : Derives g m (.more a) c c []
  | not {m : Mode} {a : Expr R} {c : Cursor} : Derives g m (.not a) c c []

/-- A match that succeeds at some depth has a derivation. -/
theorem derives_of_outcome (depth : Nat) :
    ∀ {m : Mode} {e : Expr R} {c next : Cursor} {trees : List (ParseTree R)},
      g.outcome depth m e c = .ok next trees → g.Derives m e c next trees := by
  -- The depth bounds every recursive call; a derivation no longer mentions it.
  induction depth with
  | zero =>
    intro m e c next trees h
    cases h
  | succ d ih =>
    intro m e c next trees h
    cases e with
    | lit text =>
      rw [outcome] at h
      cases hlit : literal? text.toList c with
      | none =>
        rw [hlit] at h
        cases h
      | some mid =>
        rw [hlit] at h
        cases h
        exact .lit hlit
    | one p =>
      obtain ⟨rest, offset⟩ := c
      cases rest with
      | nil => cases h
      | cons x rest =>
        simp only [outcome] at h
        split at h
        next hx =>
          cases h
          exact .one hx
        next => cases h
    | span p =>
      cases h
      exact .span
    | done =>
      obtain ⟨rest, offset⟩ := c
      cases rest with
      | nil =>
        cases h
        exact .done
      | cons x rest => cases h
    | rule r =>
      rcases Outcome.elim_eq_ok h with ⟨-, h⟩ | ⟨mid, ts, hbody, h⟩
      · cases h
      · cases h
        exact .rule (ih hbody)
    | seq a b =>
      rcases Outcome.elim_eq_ok h with ⟨-, h⟩ | ⟨mid, ts, ha, hb⟩
      · cases h
      · obtain ⟨us, hmatch, rfl⟩ := Outcome.prepend_eq_ok hb
        exact .seq (ih ha) (ih hmatch)
    | alt a b =>
      rcases Outcome.elim_eq_ok h with ⟨-, hb⟩ | ⟨mid, ts, ha, h⟩
      · exact .altRight (ih hb)
      · cases h
        exact .altLeft (ih ha)
    | opt a =>
      rcases Outcome.elim_eq_ok h with ⟨-, h⟩ | ⟨mid, ts, ha, h⟩
      · cases h
        exact .optNone
      · cases h
        exact .opt (ih ha)
    | star a =>
      rcases Outcome.elim_eq_ok h with ⟨-, h⟩ | ⟨mid, ts, ha, hmore⟩
      · cases h
        exact .starNone
      · obtain ⟨us, hmatch, rfl⟩ := Outcome.prepend_eq_ok hmore
        exact .star (ih ha) (ih hmatch)
    | more a =>
      rcases Outcome.elim_eq_ok h with ⟨-, h⟩ | ⟨mid, ts, ha, hmore⟩
      · cases h
        exact .moreNone
      · obtain ⟨us, hmatch, rfl⟩ := Outcome.prepend_eq_ok hmore
        exact .more (ih ha) (ih hmatch)
    | not a =>
      rcases Outcome.elim_eq_ok h with ⟨-, h⟩ | ⟨mid, ts, ha, h⟩
      · cases h
        exact .not
      · cases h

end Grammar

/-! ## More depth -/

namespace Outcome

/-- The first outcome is that of the second match, unless it ran out of depth. -/
def Below (x y : Outcome R) : Prop := x = stuck ∨ x = y

theorem Below.refl (x : Outcome R) : x.Below x := .inr rfl

theorem Below.elim {x x' failed failed' : Outcome R}
    {matched matched' : Cursor → List (ParseTree R) → Outcome R} (h : x.Below x')
    (hfailed : failed.Below failed')
    (hmatched : ∀ next trees, (matched next trees).Below (matched' next trees)) :
    (x.elim failed matched).Below (x'.elim failed' matched') := by
  rcases h with rfl | rfl
  · exact .inl rfl
  · cases x with
    | stuck => exact .inl rfl
    | fail => exact hfailed
    | ok next trees => exact hmatched next trees

theorem Below.prepend {x x' : Outcome R} (h : x.Below x') (ts : List (ParseTree R)) :
    (x.prepend ts).Below (x'.prepend ts) :=
  h.elim (.refl _) fun _ _ => .refl _

end Outcome

namespace Grammar

variable {g : Grammar R}

theorem outcome_succ (depth : Nat) : ∀ (m : Mode) (e : Expr R) (c : Cursor),
    (g.outcome depth m e c).Below (g.outcome (depth + 1) m e c) := by
  induction depth with
  | zero => exact fun m e c => .inl rfl
  | succ d ih =>
    intro m e c
    cases e with
    | lit _ | one _ | span _ | done => exact .inr rfl
    | rule r => exact (ih _ _ _).elim (.refl _) fun _ _ => .refl _
    | seq a b => exact (ih _ _ _).elim (.refl _) fun next trees => (ih _ _ _).prepend trees
    | alt a b => exact (ih _ _ _).elim (ih _ _ _) fun _ _ => .refl _
    | opt a => exact (ih _ _ _).elim (.refl _) fun _ _ => .refl _
    | star a => exact (ih _ _ _).elim (.refl _) fun next trees => (ih _ _ _).prepend trees
    | more a => exact (ih _ _ _).elim (.refl _) fun next trees => (ih _ _ _).prepend trees
    | not a => exact (ih _ _ _).elim (.refl _) fun _ _ => .refl _

/-- A match that did not run out of depth is the same with more of it. -/
theorem outcome_mono {m : Mode} {e : Expr R} {c next : Cursor} {trees : List (ParseTree R)}
    {d d' : Nat} (hle : d ≤ d') (h : g.outcome d m e c = .ok next trees) :
    g.outcome d' m e c = .ok next trees := by
  induction hle with
  | refl => exact h
  | step _ ih =>
    rcases outcome_succ (g := g) _ m e c with hstuck | heq
    · rw [ih] at hstuck
      cases hstuck
    · rw [← heq, ih]

end Grammar

/-! ## Moved matches -/

/-- The cursor `k` bytes further on, in an input that goes on with `y`. -/
def Cursor.moved (k : Nat) (y : List Char) (c : Cursor) : Cursor := ⟨c.rest ++ y, c.offset + k⟩

mutual

/-- The tree of the same match, `k` bytes further on and in an input that goes on with `y`. -/
def ParseTree.moved (k : Nat) (y : List Char) : ParseTree R → ParseTree R
  | .node r start input stop children =>
    .node r (start + k) (input ++ y) (stop + k) (movedAll k y children)

def ParseTree.movedAll (k : Nat) (y : List Char) : List (ParseTree R) → List (ParseTree R)
  | [] => []
  | t :: ts => t.moved k y :: movedAll k y ts

end

theorem ParseTree.movedAll_eq_map (k : Nat) (y : List Char) (ts : List (ParseTree R)) :
    movedAll k y ts = ts.map (ParseTree.moved k y) := by
  induction ts with
  | nil => rfl
  | cons t ts ih => rw [movedAll, ih, List.map_cons]

namespace Outcome

/-- The outcome of the match at the moved cursor. -/
def moved (k : Nat) (y : List Char) (x : Outcome R) : Outcome R :=
  x.elim fail fun next trees => ok (next.moved k y) (trees.map (ParseTree.moved k y))

theorem moved_elim {x x' failed failed' : Outcome R}
    {matched matched' : Cursor → List (ParseTree R) → Outcome R} (hx : x' = x.moved k y)
    (hfailed : x = fail → failed' = failed.moved k y) (hmatched : ∀ next trees, x = ok next trees →
      matched' (next.moved k y) (trees.map (ParseTree.moved k y))
        = (matched next trees).moved k y) :
    x'.elim failed' matched' = (x.elim failed matched).moved k y := by
  subst hx
  cases x with
  | stuck => rfl
  | fail => exact hfailed rfl
  | ok next trees => exact hmatched next trees rfl

theorem moved_prepend (k : Nat) (y : List Char) (ts : List (ParseTree R)) (x : Outcome R) :
    (x.moved k y).prepend (ts.map (ParseTree.moved k y)) = (x.prepend ts).moved k y := by
  cases x with
  | stuck => rfl
  | fail => rfl
  | ok next us => simp [prepend, elim, moved]

end Outcome

/-- The text agrees with the input up to the end of the input, and goes on. -/
def runsOut : (text input : List Char) → Bool
  | [], _ => false
  | _ :: _, [] => true
  | x :: xs, y :: ys => x == y && runsOut xs ys

theorem literal?_moved {text : List Char} {c : Cursor} (h : y = [] ∨ runsOut text c.rest = false) :
    literal? text (c.moved k y) = (literal? text c).map (Cursor.moved k y) := by
  induction text generalizing c with
  | nil => rfl
  | cons x xs ih =>
    obtain ⟨rest, offset⟩ := c
    cases rest with
    | nil =>
      rcases h with rfl | h
      · rfl
      · cases h
    | cons z rest =>
      simp only [Cursor.moved, List.cons_append, literal?]
      split
      next hxz =>
        have hrest : y = [] ∨ runsOut xs rest = false := by
          refine h.imp_right fun h => ?_
          simpa [runsOut, hxz] using h
        rw [Nat.add_right_comm]
        exact ih (c := ⟨rest, offset + z.utf8Size⟩) hrest
      next => rfl

theorem spanFrom_moved {p : Char → Bool} {cs : List Char} (offset : Nat)
    (h : y = [] ∨ cs.all p = false) :
    spanFrom p (cs ++ y) (offset + k) = (spanFrom p cs offset).moved k y := by
  induction cs generalizing offset with
  | nil =>
    rcases h with rfl | h
    · rfl
    · cases h
  | cons c cs ih =>
    rw [List.cons_append, spanFrom, spanFrom]
    split
    next hc =>
      rw [Nat.add_right_comm]
      refine ih _ (h.imp_right fun h => ?_)
      simpa [hc] using h
    next => rfl

namespace Grammar

variable (g : Grammar R)

/-- Passing over blanks comes to the end of the input. -/
def blanksTouch (m : Mode) (c : Cursor) : Bool := m.blanks && (g.skip c).rest.isEmpty

/-- The match comes to the end of the input: what it does may depend on whether the input goes
on. -/
def touches : Nat → Mode → Expr R → Cursor → Bool
  | 0, _, _, _ => true
  | depth + 1, m, e, c =>
    match e with
    | .lit text => runsOut text.toList c.rest
    | .one _ | .done => c.rest.isEmpty
    | .span p => c.rest.all p
    | .rule r => touches depth (m.enter (g.kind r)) (g.body r) c
    | .seq a b =>
      touches depth m a c || match g.outcome depth m a c with
        | .ok next _ => g.blanksTouch m next || touches depth m b (g.blanks m next)
        | _ => false
    | .alt a b =>
      touches depth m a c || match g.outcome depth m a c with
        | .fail => touches depth m b c
        | _ => false
    | .opt a => touches depth m a c
    | .star a =>
      touches depth m a c || match g.outcome depth m a c with
        | .ok next _ => touches depth m (.more a) next
        | _ => false
    | .more a =>
      g.blanksTouch m c || touches depth m a (g.blanks m c) ||
        match g.outcome depth m a (g.blanks m c) with
        | .ok next _ => touches depth m (.more a) next
        | _ => false
    | .not a => touches depth m.negate a c

/-- Passing over blanks goes the same way at other offsets, and in front of more input unless it
comes to the end. -/
def SkipMoves : Prop :=
  ∀ (k : Nat) (y : List Char) (c : Cursor), (y = [] ∨ (g.skip c).rest ≠ []) →
    g.skip (c.moved k y) = (g.skip c).moved k y

variable {g}

theorem blanks_moved (hskip : g.SkipMoves) {m : Mode} {c : Cursor}
    (h : y = [] ∨ g.blanksTouch m c = false) :
    g.blanks m (c.moved k y) = (g.blanks m c).moved k y := by
  unfold blanks
  split
  next hm =>
    refine hskip k y c (h.imp_right fun htouch hnil => ?_)
    simp [blanksTouch, hm, hnil] at htouch
  next => rfl

theorem shown_moved (k : Nat) (y : List Char) (m : Mode) (r : R) (c next : Cursor)
    (trees : List (ParseTree R)) :
    shown m r (c.moved k y) (next.moved k y) (trees.map (ParseTree.moved k y))
      = (shown m r c next trees).map (ParseTree.moved k y) := by
  unfold shown
  split
  next => rfl
  next => simp [Cursor.moved, ParseTree.moved, ParseTree.movedAll_eq_map]

/-- A match that does not come to the end of the input goes the same way if the input goes on. -/
theorem outcome_moved (hskip : g.SkipMoves) (depth : Nat) :
    ∀ (m : Mode) (e : Expr R) (c : Cursor), (y = [] ∨ g.touches depth m e c = false) →
      g.outcome depth m e (c.moved k y) = (g.outcome depth m e c).moved k y := by
  -- what a part of the match touches, the whole touches
  have left {p q : Bool} (h : y = [] ∨ (p || q) = false) : y = [] ∨ p = false :=
    h.imp_right fun h => (Bool.or_eq_false_iff.mp h).1
  have right {p q : Bool} (h : y = [] ∨ (p || q) = false) : y = [] ∨ q = false :=
    h.imp_right fun h => (Bool.or_eq_false_iff.mp h).2
  induction depth with
  | zero =>
    intro m e c h
    rfl
  | succ d ih =>
    intro m e c h
    cases e with
    | lit text =>
      rw [outcome, outcome, literal?_moved h]
      cases literal? text.toList c <;> rfl
    | one p =>
      obtain ⟨rest, offset⟩ := c
      cases rest with
      | nil =>
        rcases h with rfl | h
        · rfl
        · cases h
      | cons x rest =>
        simp only [outcome, Cursor.moved, List.cons_append]
        split
        next =>
          simp [Outcome.moved, Outcome.elim, Cursor.moved, Nat.add_right_comm]
        next => rfl
    | span p =>
      have hspan := spanFrom_moved (k := k) c.offset h
      simp [outcome, Outcome.moved, Outcome.elim, Cursor.moved, hspan]
    | done =>
      obtain ⟨rest, offset⟩ := c
      cases rest with
      | nil =>
        rcases h with rfl | h
        · rfl
        · cases h
      | cons x rest => rfl
    | rule r =>
      refine Outcome.moved_elim (ih _ _ _ h) (fun _ => rfl) fun next trees _ => ?_
      rw [shown_moved]
      rfl
    | seq a b =>
      refine Outcome.moved_elim (ih _ _ _ (left h)) (fun _ => rfl) fun next trees heq => ?_
      have h := right h
      rw [heq] at h
      rw [blanks_moved hskip (left h), ih _ _ _ (right h), Outcome.moved_prepend]
    | alt a b =>
      refine Outcome.moved_elim (ih _ _ _ (left h)) (fun heq => ?_) fun next trees _ => rfl
      have h := right h
      rw [heq] at h
      exact ih _ _ _ h
    | opt a => exact Outcome.moved_elim (ih _ _ _ h) (fun _ => rfl) fun next trees _ => rfl
    | star a =>
      refine Outcome.moved_elim (ih _ _ _ (left h)) (fun _ => rfl) fun next trees heq => ?_
      have h := right h
      rw [heq] at h
      rw [ih _ _ _ h, Outcome.moved_prepend]
    | more a =>
      rw [outcome, outcome, blanks_moved hskip (left (left h))]
      refine Outcome.moved_elim (ih _ _ _ (right (left h))) (fun _ => rfl) fun next trees heq => ?_
      have h := right h
      rw [heq] at h
      rw [ih _ _ _ h, Outcome.moved_prepend]
    | not a => exact Outcome.moved_elim (ih _ _ _ h) (fun _ => rfl) fun next trees _ => rfl

end Grammar

end SafeIR.Peg
