import SafeIR.Proofs.Peg.Extent
import SafeIR.Proofs.Peg.Yield

/-!
# Edited texts

An edit says what becomes of the input and of the offsets when the text is changed in one place. The
tree of the same match in the edited text may have the same characters; then it is kept. A match is
alike in the edited text if it comes to the edited outcome. Whether it does depends on where it
starts, so `Alike` has a set of cursors for the start of a match and one for its end, and the lemmas
on it follow the parts of an expression from one set to the next.
-/

namespace SafeIR.Peg

variable {R : Type} {T' T : Cursor → Prop} {r : R}

/-- What becomes of a rest of the input, and of an offset. -/
structure Edit where
  rest : List Char → List Char
  offset : Nat → Nat

/-- The cursor in the edited text. -/
def Cursor.edit (φ : Edit) (c : Cursor) : Cursor := ⟨φ.rest c.rest, φ.offset c.offset⟩

mutual

/-- The tree of the same match in the edited text. -/
def ParseTree.edit (φ : Edit) : ParseTree R → ParseTree R
  | .node r start input stop children =>
    .node r (φ.offset start) (φ.rest input) (φ.offset stop) (editAll φ children)

def ParseTree.editAll (φ : Edit) : List (ParseTree R) → List (ParseTree R)
  | [] => []
  | t :: ts => t.edit φ :: editAll φ ts

end

theorem ParseTree.editAll_eq_map (φ : Edit) (ts : List (ParseTree R)) :
    editAll φ ts = ts.map (ParseTree.edit φ) := by
  induction ts with
  | nil => rfl
  | cons t ts ih => rw [editAll, ih, List.map_cons]

namespace ParseTree

@[simp] theorem rule_edit (φ : Edit) (t : ParseTree R) : (t.edit φ).rule = t.rule := by
  cases t with
  | node => rfl

@[simp] theorem start_edit (φ : Edit) (t : ParseTree R) : (t.edit φ).start = φ.offset t.start := by
  cases t with
  | node => rfl

@[simp] theorem children_edit (φ : Edit) (t : ParseTree R) :
    (t.edit φ).children = t.children.map (edit φ) := by
  cases t with
  | node r start input stop children => exact editAll_eq_map φ children

end ParseTree

/-! ## Trees with the same characters -/

mutual

/-- The tree has the same characters in the edited text, and so do the trees in it. -/
def ParseTree.Kept (φ : Edit) : ParseTree R → Prop
  | .node r start input stop children =>
    (ParseTree.edit φ (.node r start input stop children)).chars
        = (ParseTree.node r start input stop children).chars ∧ AllKept φ children

def ParseTree.AllKept (φ : Edit) : List (ParseTree R) → Prop
  | [] => True
  | t :: ts => t.Kept φ ∧ AllKept φ ts

end

namespace ParseTree

theorem allKept_iff {φ : Edit} {ts : List (ParseTree R)} : AllKept φ ts ↔ ∀ t ∈ ts, t.Kept φ := by
  induction ts with
  | nil => simp [AllKept]
  | cons t ts ih => simp [AllKept, ih]

theorem Kept.chars {φ : Edit} {t : ParseTree R} (h : t.Kept φ) : (t.edit φ).chars = t.chars := by
  cases t with
  | node r start input stop children =>
    rw [Kept] at h
    exact h.1

theorem Kept.children {φ : Edit} {t : ParseTree R} (h : t.Kept φ) :
    ∀ u ∈ t.children, u.Kept φ := by
  cases t with
  | node r start input stop children =>
    rw [Kept] at h
    exact allKept_iff.mp h.2

end ParseTree

/-- The text starts `k` bytes earlier and goes on with `y`. -/
def Edit.move (k : Nat) (y : List Char) : Edit := ⟨(· ++ y), (· + k)⟩

mutual

theorem ParseTree.moved_eq_edit (k : Nat) (y : List Char) :
    ∀ t : ParseTree R, t.moved k y = t.edit (.move k y)
  | .node r start input stop children => by
    rw [moved, edit, movedAll_eq_editAll k y children]
    rfl

theorem ParseTree.movedAll_eq_editAll (k : Nat) (y : List Char) :
    ∀ ts : List (ParseTree R), movedAll k y ts = editAll (.move k y) ts
  | [] => rfl
  | t :: ts => by rw [movedAll, editAll, moved_eq_edit k y t, movedAll_eq_editAll k y ts]

theorem ParseTree.Fits.kept (k : Nat) (y : List Char) :
    ∀ {t : ParseTree R}, t.Fits → t.Kept (.move k y)
  | .node r start input stop children, h => by
    rw [Fits] at h
    obtain ⟨⟨consumed, rest, rfl, rfl⟩, hchildren⟩ := h
    refine ⟨?_, AllFit.kept k y hchildren⟩
    show takeBytes (start + size consumed + k - (start + k)) (consumed ++ rest ++ y)
      = takeBytes (start + size consumed - start) (consumed ++ rest)
    rw [Nat.add_sub_cancel_left, takeBytes_size, Nat.add_right_comm, Nat.add_sub_cancel_left,
      List.append_assoc, takeBytes_size]

theorem ParseTree.AllFit.kept (k : Nat) (y : List Char) :
    ∀ {ts : List (ParseTree R)}, AllFit ts → AllKept (.move k y) ts
  | [], _ => trivial
  | _ :: _, h => ⟨Fits.kept k y h.1, AllFit.kept k y h.2⟩

end

namespace Outcome

/-- The outcome in the edited text. -/
def edit (φ : Edit) (o : Outcome R) : Outcome R :=
  o.elim fail fun next ts => ok (next.edit φ) (ts.map (ParseTree.edit φ))

theorem edit_prepend (φ : Edit) (ts : List (ParseTree R)) (o : Outcome R) :
    (o.prepend ts).edit φ = (o.edit φ).prepend (ts.map (ParseTree.edit φ)) := by
  cases o with
  | stuck | fail => rfl
  | ok next us => simp [prepend, elim, edit]

end Outcome

namespace Grammar

variable {g : Grammar R} {φ : Edit} {d : Nat} {S S' S₁ S₂ : Cursor → Prop} {m : Mode}
  {e a b : Expr R}

theorem shown_edit (φ : Edit) (m : Mode) (r : R) (c next : Cursor) (ts : List (ParseTree R)) :
    shown m r (c.edit φ) (next.edit φ) (ts.map (ParseTree.edit φ))
      = (shown m r c next ts).map (ParseTree.edit φ) := by
  unfold shown
  split
  next => rfl
  next => simp [Cursor.edit, ParseTree.edit, ParseTree.editAll_eq_map]

/-- At this depth, a match that starts in `S` is alike in the edited text, and ends in `S'`. -/
def AlikeAt (g : Grammar R) (φ : Edit) (d : Nat) (S S' : Cursor → Prop) (m : Mode) (e : Expr R) :
    Prop :=
  ∀ c o, S c → o ≠ .stuck → g.outcome d m e c = o →
    g.Yields m e (c.edit φ) (o.edit φ) ∧ ∀ next ts, o = .ok next ts → S' next

/-- A match that starts in `S` is alike in the edited text, and ends in `S'`. -/
def Alike (g : Grammar R) (φ : Edit) (S S' : Cursor → Prop) (m : Mode) (e : Expr R) : Prop :=
  ∀ d, g.AlikeAt φ d S S' m e

/-- From `S`, blanks are passed over alike in the edited text, and lead to `S'`. -/
def Skips (g : Grammar R) (φ : Edit) (S S' : Cursor → Prop) (m : Mode) : Prop :=
  ∀ c, S c → S' (g.blanks m c) ∧ g.blanks m (c.edit φ) = (g.blanks m c).edit φ

theorem alikeAt_zero : g.AlikeAt φ 0 S S' m e := fun _ _ _ hne h => absurd h.symm hne

namespace AlikeAt

theorem mono (h : g.AlikeAt φ d S S' m e) (hS : ∀ c, T c → S c) (hS' : ∀ c, S' c → T' c) :
    g.AlikeAt φ d T T' m e := by
  intro c o hc hne ho
  obtain ⟨hyields, hends⟩ := h c o (hS c hc) hne ho
  exact ⟨hyields, fun next ts hok => hS' next (hends next ts hok)⟩

/-- A start that is in one of two sets. -/
theorem or (h : g.AlikeAt φ d S S' m e) (h' : g.AlikeAt φ d S₁ S' m e) :
    g.AlikeAt φ d (fun c => S c ∨ S₁ c) S' m e := by
  intro c o hc hne ho
  rcases hc with hc | hc
  · exact h c o hc hne ho
  · exact h' c o hc hne ho

theorem lit {text : String}
    (h : ∀ c, S c → literal? text.toList (c.edit φ) = (literal? text.toList c).map (Cursor.edit φ) ∧
      ∀ next, literal? text.toList c = some next → S' next) :
    g.AlikeAt φ d S S' m (.lit text) := by
  intro c o hc hne ho
  cases d with
  | zero => exact absurd ho.symm hne
  | succ d =>
    obtain ⟨hedit, hnext⟩ := h c hc
    rw [outcome] at ho
    cases hlit : literal? text.toList c with
    | none =>
      rw [hlit] at ho hedit
      subst ho
      exact ⟨.lit_fail hedit, by simp⟩
    | some next =>
      rw [hlit] at ho hedit
      subst ho
      refine ⟨.lit hedit, fun next' ts hok => ?_⟩
      cases hok
      exact hnext next hlit

theorem span {p : Char → Bool}
    (h : ∀ c, S c → spanFrom p (φ.rest c.rest) (φ.offset c.offset)
        = (spanFrom p c.rest c.offset).edit φ ∧ S' (spanFrom p c.rest c.offset)) :
    g.AlikeAt φ d S S' m (.span p) := by
  intro c o hc hne ho
  cases d with
  | zero => exact absurd ho.symm hne
  | succ d =>
    obtain ⟨hedit, hnext⟩ := h c hc
    rw [outcome] at ho
    subst ho
    refine ⟨?_, fun next ts hok => ?_⟩
    · show g.Yields m (.span p) (c.edit φ) (.ok ((spanFrom p c.rest c.offset).edit φ) [])
      rw [← hedit]
      exact .span p
    · cases hok
      exact hnext

theorem one {p : Char → Bool}
    (h : ∀ c, S c → ∃ x rest rest', c.rest = x :: rest ∧ φ.rest c.rest = x :: rest' ∧
      (p x = true → Cursor.edit φ ⟨rest, c.offset + x.utf8Size⟩
          = ⟨rest', φ.offset c.offset + x.utf8Size⟩ ∧ S' ⟨rest, c.offset + x.utf8Size⟩)) :
    g.AlikeAt φ d S S' m (.one p) := by
  intro c o hc hne ho
  cases d with
  | zero => exact absurd ho.symm hne
  | succ d =>
    obtain ⟨x, rest, rest', hrest, hrest', hnext⟩ := h c hc
    have hedit : g.Yields m (.one p) (c.edit φ) (if p x = true then
        .ok ⟨rest', φ.offset c.offset + x.utf8Size⟩ [] else .fail) := by
      refine .leaf ?_ (by split <;> simp)
      simp only [outcome, Cursor.edit, hrest']
    simp only [outcome, hrest] at ho
    subst ho
    by_cases hx : p x = true
    · rw [if_pos hx] at hedit ⊢
      obtain ⟨hcursor, hends⟩ := hnext hx
      refine ⟨?_, fun next ts hok => ?_⟩
      · rw [Outcome.edit, Outcome.elim, hcursor]
        exact hedit
      · cases hok
        exact hends
    · rw [if_neg hx] at hedit ⊢
      exact ⟨hedit, by simp⟩

/-- What a match comes to after its first part, which is alike: it goes on as the part says. -/
theorem after {m' : Mode} {e' : Expr R} {c c' : Cursor} {o failed : Outcome R}
    {matched : Cursor → List (ParseTree R) → Outcome R} (ha : g.AlikeAt φ d S S₁ m a) (hc : S c)
    (hne : o ≠ .stuck) (ho : (g.outcome d m a c).elim failed matched = o)
    (hfail : g.Yields m a (c.edit φ) .fail → failed ≠ .stuck →
      g.Yields m' e' c' (failed.edit φ) ∧ ∀ last us, failed = .ok last us → S' last)
    (hok : ∀ next ts, g.Yields m a (c.edit φ) (Outcome.edit φ (.ok next ts)) → S₁ next →
      matched next ts ≠ .stuck → g.Yields m' e' c' ((matched next ts).edit φ) ∧
        ∀ last us, matched next ts = .ok last us → S' last) :
    g.Yields m' e' c' (o.edit φ) ∧ ∀ last us, o = .ok last us → S' last := by
  subst ho
  cases hfirst : g.outcome d m a c with
  | stuck =>
    rw [hfirst] at hne
    exact absurd rfl hne
  | fail =>
    rw [hfirst] at hne
    exact hfail (ha c _ hc (by simp) hfirst).1 hne
  | ok next ts =>
    rw [hfirst] at hne
    obtain ⟨hyields, hends⟩ := ha c _ hc (by simp) hfirst
    exact hok next ts hyields (hends next ts rfl) hne

/-- What follows the first part stands behind its trees, in both texts. -/
theorem behind {c c' : Cursor} {ts : List (ParseTree R)} {e' : Expr R}
    (hb : g.AlikeAt φ d S S' m b) (hc : S c) (hne : (g.outcome d m b c).prepend ts ≠ .stuck)
    (hyields : ∀ {o}, g.Yields m b (c.edit φ) o →
      g.Yields m e' c' (o.prepend (ts.map (ParseTree.edit φ)))) :
    g.Yields m e' c' (((g.outcome d m b c).prepend ts).edit φ) ∧
      ∀ last us, (g.outcome d m b c).prepend ts = .ok last us → S' last := by
  rw [Outcome.prepend_ne_stuck] at hne
  obtain ⟨hrest, hends⟩ := hb c _ hc hne rfl
  refine ⟨?_, fun last us hok => ?_⟩
  · rw [Outcome.edit_prepend]
    exact hyields hrest
  · obtain ⟨vs, hok, -⟩ := Outcome.prepend_eq_ok hok
    exact hends last vs hok

theorem rule (h : g.AlikeAt φ d S S' (m.enter (g.kind r)) (g.body r)) :
    g.AlikeAt φ (d + 1) S S' m (.rule r) := by
  intro c o hc hne ho
  refine h.after hc hne ho (fun hfail _ => ⟨.rule_fail hfail, by simp⟩) ?_
  intro next ts hok hends _
  refine ⟨?_, fun next' ts' heq => ?_⟩
  · have hrule := Yields.rule (m := m) hok
    rw [shown_edit] at hrule
    exact hrule
  · cases heq
    exact hends

theorem seq (ha : g.AlikeAt φ d S S₁ m a) (hskip : g.Skips φ S₁ S₂ m)
    (hb : g.AlikeAt φ d S₂ S' m b) : g.AlikeAt φ (d + 1) S S' m (.seq a b) := by
  intro c o hc hne ho
  refine ha.after hc hne ho (fun hfail _ => ⟨.seq_fail hfail, by simp⟩) ?_
  intro next ts hok hnext hne
  obtain ⟨hstart, hblanks⟩ := hskip next hnext
  exact hb.behind hstart hne fun h => .seq hok (hblanks ▸ h)

theorem alt (ha : g.AlikeAt φ d S S' m a) (hb : g.AlikeAt φ d S S' m b) :
    g.AlikeAt φ (d + 1) S S' m (.alt a b) := by
  intro c o hc hne ho
  refine ha.after hc hne ho (fun hfail hne => ?_) fun next ts hok hends _ => ⟨.alt_left hok, ?_⟩
  · obtain ⟨hyields, hends⟩ := hb c _ hc hne rfl
    exact ⟨.alt_right hfail hyields, hends⟩
  · rintro _ _ ⟨⟩
    exact hends

theorem opt (ha : g.AlikeAt φ d S S' m a) (hS : ∀ c, S c → S' c) :
    g.AlikeAt φ (d + 1) S S' m (.opt a) := by
  intro c o hc hne ho
  refine ha.after hc hne ho (fun hfail _ => ⟨.opt_fail hfail, ?_⟩)
    fun next ts hok hends _ => ⟨.opt hok, ?_⟩
  · rintro _ _ ⟨⟩
    exact hS c hc
  · rintro _ _ ⟨⟩
    exact hends

theorem not (ha : g.AlikeAt φ d S S₁ m.negate a) : g.AlikeAt φ (d + 1) S S m (.not a) := by
  intro c o hc hne ho
  refine ha.after hc hne ho (fun hfail _ => ⟨.not hfail, ?_⟩)
    fun next ts hok _ _ => ⟨.not_fail hok, by simp⟩
  rintro _ _ ⟨⟩
  exact hc

/-- One more item of a repetition, and the rest of it. -/
theorem more (ha : g.AlikeAt φ d S₁ S m a) (hskip : g.Skips φ S S₁ m)
    (hmore : g.AlikeAt φ d S S m (.more a)) : g.AlikeAt φ (d + 1) S S m (.more a) := by
  intro c o hc hne ho
  obtain ⟨hstart, hblanks⟩ := hskip c hc
  refine ha.after hstart hne ho (fun hfail _ => ⟨.more_fail (hblanks ▸ hfail), ?_⟩) ?_
  · rintro _ _ ⟨⟩
    exact hc
  · intro next ts hok hnext hne
    exact hmore.behind hnext hne (.more (hblanks ▸ hok))

theorem star (ha : g.AlikeAt φ d S S' m a) (hS : ∀ c, S c → S' c)
    (hmore : g.AlikeAt φ d S' S' m (.more a)) : g.AlikeAt φ (d + 1) S S' m (.star a) := by
  intro c o hc hne ho
  refine ha.after hc hne ho (fun hfail _ => ⟨.star_fail hfail, ?_⟩)
    fun next ts hok hnext hne => hmore.behind hnext hne (.star hok)
  rintro _ _ ⟨⟩
  exact hS c hc

/-- What the match comes to is known for both texts. -/
theorem of_yields (h : ∀ c, S c → ∃ o, g.Yields m e c o ∧ g.Yields m e (c.edit φ) (o.edit φ) ∧
    ∀ next ts, o = .ok next ts → S' next) : g.AlikeAt φ d S S' m e := by
  intro c o hc hne ho
  obtain ⟨o', hyields, hyields', hends⟩ := h c hc
  obtain rfl : o = o' := Yields.unique ⟨hne, d, ho⟩ hyields
  exact ⟨hyields', hends⟩

theorem of_fails (h : ∀ c, S c → g.Yields m e c .fail ∧ g.Yields m e (c.edit φ) .fail) :
    g.AlikeAt φ d S S' m e :=
  of_yields fun c hc => ⟨.fail, (h c hc).1, (h c hc).2, by simp⟩

end AlikeAt

/-! ## At every depth -/

namespace Alike

theorem yields {c : Cursor} {o : Outcome R} (h : g.Alike φ S S' m e) (hc : S c)
    (ho : g.Yields m e c o) :
    g.Yields m e (c.edit φ) (o.edit φ) ∧ ∀ next ts, o = .ok next ts → S' next := by
  obtain ⟨hne, d, hd⟩ := ho
  exact h d c o hc hne hd

theorem of_succ (h : ∀ d, g.AlikeAt φ (d + 1) S S' m e) : g.Alike φ S S' m e := by
  intro d
  cases d with
  | zero => exact alikeAt_zero
  | succ d => exact h d

theorem mono (h : g.Alike φ S S' m e) (hS : ∀ c, T c → S c) (hS' : ∀ c, S' c → T' c) :
    g.Alike φ T T' m e :=
  fun d => (h d).mono hS hS'

theorem or (h : g.Alike φ S S' m e) (h' : g.Alike φ S₁ S' m e) :
    g.Alike φ (fun c => S c ∨ S₁ c) S' m e :=
  fun d => (h d).or (h' d)

theorem rule (h : g.Alike φ S S' (m.enter (g.kind r)) (g.body r)) : g.Alike φ S S' m (.rule r) :=
  of_succ fun d => (h d).rule

theorem seq (ha : g.Alike φ S S₁ m a) (hskip : g.Skips φ S₁ S₂ m) (hb : g.Alike φ S₂ S' m b) :
    g.Alike φ S S' m (.seq a b) :=
  of_succ fun d => (ha d).seq hskip (hb d)

theorem alt (ha : g.Alike φ S S' m a) (hb : g.Alike φ S S' m b) : g.Alike φ S S' m (.alt a b) :=
  of_succ fun d => (ha d).alt (hb d)

theorem opt (ha : g.Alike φ S S' m a) (hS : ∀ c, S c → S' c) : g.Alike φ S S' m (.opt a) :=
  of_succ fun d => (ha d).opt hS

theorem not (ha : g.Alike φ S S₁ m.negate a) : g.Alike φ S S m (.not a) :=
  of_succ fun d => (ha d).not

theorem more (ha : g.Alike φ S₁ S m a) (hskip : g.Skips φ S S₁ m) :
    g.Alike φ S S m (.more a) := by
  intro d
  induction d with
  | zero => exact alikeAt_zero
  | succ d ih => exact (ha d).more hskip ih

theorem star (ha : g.Alike φ S S' m a) (hS : ∀ c, S c → S' c)
    (hmore : g.Alike φ S' S' m (.more a)) : g.Alike φ S S' m (.star a) :=
  of_succ fun d => (ha d).star hS (hmore d)

end Alike

/-! ## Matches that succeed -/

/-- A match that starts in `S` succeeds, alike in the edited text, and ends in `S'`. -/
def Passes (g : Grammar R) (φ : Edit) (S S' : Cursor → Prop) (m : Mode) (e : Expr R) : Prop :=
  ∀ c, S c → ∃ next ts, g.Yields m e c (.ok next ts) ∧
    g.Yields m e (c.edit φ) (.ok (next.edit φ) (ts.map (ParseTree.edit φ))) ∧ S' next

/-- A match that starts in `S` fails, in the edited text too. -/
def Fails (g : Grammar R) (φ : Edit) (S : Cursor → Prop) (m : Mode) (e : Expr R) : Prop :=
  ∀ c, S c → g.Yields m e c .fail ∧ g.Yields m e (c.edit φ) .fail

theorem Fails.alike (h : g.Fails φ S m e) : g.Alike φ S S' m e := fun _ => .of_fails h

theorem Fails.rule (h : g.Fails φ S (m.enter (g.kind r)) (g.body r)) : g.Fails φ S m (.rule r) :=
  fun c hc => ⟨.rule_fail (h c hc).1, .rule_fail (h c hc).2⟩

theorem Fails.seq (h : g.Fails φ S m a) : g.Fails φ S m (.seq a b) :=
  fun c hc => ⟨.seq_fail (h c hc).1, .seq_fail (h c hc).2⟩

namespace Passes

theorem alike (h : g.Passes φ S S' m e) : g.Alike φ S S' m e := by
  refine fun d => .of_yields fun c hc => ?_
  obtain ⟨next, ts, hyields, hyields', hnext⟩ := h c hc
  refine ⟨.ok next ts, hyields, hyields', fun next' ts' hok => ?_⟩
  cases hok
  exact hnext

theorem of_alike (h : g.Alike φ S S' m e)
    (hok : ∀ c, S c → ∃ next ts, g.Yields m e c (.ok next ts)) :
    g.Passes φ S S' m e := by
  intro c hc
  obtain ⟨next, ts, hyields⟩ := hok c hc
  obtain ⟨hyields', hends⟩ := h.yields hc hyields
  exact ⟨next, ts, hyields, hyields', hends next ts rfl⟩

theorem mono (h : g.Passes φ S S' m e) (hS : ∀ c, T c → S c) (hS' : ∀ c, S' c → T' c) :
    g.Passes φ T T' m e := by
  intro c hc
  obtain ⟨next, ts, hyields, hyields', hnext⟩ := h c (hS c hc)
  exact ⟨next, ts, hyields, hyields', hS' next hnext⟩

theorem rule (h : g.Passes φ S S' (m.enter (g.kind r)) (g.body r)) :
    g.Passes φ S S' m (.rule r) := by
  intro c hc
  obtain ⟨next, ts, hyields, hyields', hnext⟩ := h c hc
  exact ⟨next, _, hyields.rule, by rw [← shown_edit]; exact hyields'.rule, hnext⟩

theorem seq (ha : g.Passes φ S S₁ m a) (hskip : g.Skips φ S₁ S₂ m) (hb : g.Passes φ S₂ S' m b) :
    g.Passes φ S S' m (.seq a b) := by
  intro c hc
  obtain ⟨next, ts, hyields, hyields', hnext⟩ := ha c hc
  obtain ⟨hstart, hblanks⟩ := hskip next hnext
  obtain ⟨last, us, hrest, hrest', hlast⟩ := hb _ hstart
  refine ⟨last, ts ++ us, Yields.seq hyields hrest, ?_, hlast⟩
  rw [List.map_append]
  exact Yields.seq hyields' (hblanks ▸ hrest')

theorem alt_left (ha : g.Passes φ S S' m a) : g.Passes φ S S' m (.alt a b) := by
  intro c hc
  obtain ⟨next, ts, hyields, hyields', hnext⟩ := ha c hc
  exact ⟨next, ts, .alt_left hyields, .alt_left hyields', hnext⟩

theorem alt_right (ha : g.Fails φ S m a) (hb : g.Passes φ S S' m b) :
    g.Passes φ S S' m (.alt a b) := by
  intro c hc
  obtain ⟨next, ts, hyields, hyields', hnext⟩ := hb c hc
  obtain ⟨hfails, hfails'⟩ := ha c hc
  exact ⟨next, ts, .alt_right hfails hyields, .alt_right hfails' hyields', hnext⟩

theorem not (ha : g.Fails φ S m.negate a) : g.Passes φ S S m (.not a) := by
  intro c hc
  obtain ⟨hfails, hfails'⟩ := ha c hc
  exact ⟨c, [], .not hfails, .not hfails', hc⟩

theorem opt_none (ha : g.Fails φ S m a) : g.Passes φ S S m (.opt a) := by
  intro c hc
  obtain ⟨hfails, hfails'⟩ := ha c hc
  exact ⟨c, [], .opt_fail hfails, .opt_fail hfails', hc⟩

theorem star_none (ha : g.Fails φ S m a) : g.Passes φ S S m (.star a) := by
  intro c hc
  obtain ⟨hfails, hfails'⟩ := ha c hc
  exact ⟨c, [], .star_fail hfails, .star_fail hfails', hc⟩

end Passes

end Grammar

end SafeIR.Peg
