import SafeIR.Proofs.Source.LabelSite

/-!
# Parts away from the label

Most of the grammar does not come to a label, wherever it is tried: its tokens end before the line
that ends the block, or take the site as a whole inside quotes or parentheses, and at that line no
token starts that it knows. So it is matched alike when the label is replaced. This is checked for
all rules at once, but those that lines and labels are matched by.
-/

namespace SafeIR.Source.LabelSite

open Peg (Cursor Edit Expr Kind Look Mode literal? size)
open Peg.Grammar
open Rule (isIdentChar)

variable {s : LabelSite} {x y : Label} {p offset : Nat} {c : Cursor} {m : Mode}
  {o : Peg.Outcome Rule} {e : Expr Rule} {r : List Char}

/-! ## Parentheses -/

/-- What is passed over between parentheses. -/
def filler : Expr Rule := .all [.not ")", .one fun _ => true]

/-- From the cursor on, blanks and characters are passed over up to a closing parenthesis. -/
def Closes (m : Mode) (c : Cursor) (o : Peg.Outcome Rule) : Prop :=
  ∃ last, grammar.Yields m (.more filler) c (.ok last []) ∧
    grammar.Yields m (.lit ")") (grammar.skip last) o

theorem blanks_eq_skip (hm : m.blanks = true) (c : Cursor) :
    grammar.blanks m c = grammar.skip c := by
  rw [blanks, if_pos hm]

namespace Closes

theorem congr (hm : m.blanks = true) {c' : Cursor} (hc : grammar.skip c = grammar.skip c')
    (h : Closes m c o) : Closes m c' o := by
  obtain ⟨last, ⟨-, d, hd⟩, hlit⟩ := h
  have hblanks : grammar.blanks m c = grammar.blanks m c' := by
    rw [blanks_eq_skip hm, blanks_eq_skip hm, hc]
  obtain ⟨last', hd', hlast⟩ := outcome_more_congr hblanks hd
  rw [blanks_eq_skip hm, blanks_eq_skip hm] at hlast
  exact ⟨last', ⟨by simp, d, hd'⟩, by rw [hlast]; exact hlit⟩

theorem cons (hm : m.blanks = true) {z : Char}
    (hskip : grammar.skip ⟨z :: r, offset⟩ = ⟨z :: r, offset⟩) (hz : z ≠ ')') (h :
    Closes m ⟨r, offset + z.utf8Size⟩ o) : Closes m ⟨z :: r, offset⟩ o := by
  obtain ⟨last, hmore, hlit⟩ := h
  have hnot : literal? ")".toList ⟨z :: r, offset⟩ = none := by
    show (if ')' = z then _ else none) = none
    rw [if_neg (Ne.symm hz)]
  have hblanks : grammar.blanks m ⟨z :: r, offset⟩ = ⟨z :: r, offset⟩ := by
    rw [blanks_eq_skip hm, hskip]
  have hone : grammar.Yields m (.one fun _ => true) (grammar.blanks m ⟨z :: r, offset⟩)
      (.ok ⟨r, offset + z.utf8Size⟩ []) := by
    rw [hblanks]
    exact .leaf rfl (by simp)
  have hitem : grammar.Yields m filler (grammar.blanks m ⟨z :: r, offset⟩)
      (.ok ⟨r, offset + z.utf8Size⟩ []) := by
    rw [hblanks]
    exact Yields.seq (.not (.lit_fail hnot)) hone
  exact ⟨last, Yields.more hitem hmore, hlit⟩

theorem close (hm : m.blanks = true) (r : List Char) (offset : Nat) :
    Closes m ⟨')' :: r, offset⟩ (.ok ⟨r, offset + 1⟩ []) := by
  have hlit : literal? ")".toList ⟨')' :: r, offset⟩ = some ⟨r, offset + 1⟩ := rfl
  refine ⟨⟨')' :: r, offset⟩, .more_fail ?_, .lit hlit⟩
  rw [blanks_eq_skip hm]
  exact .seq_fail (.not_fail (.lit hlit))

theorem nil (hm : m.blanks = true) (offset : Nat) : Closes m ⟨[], offset⟩ .fail := by
  have hnot : literal? ")".toList ⟨[], offset⟩ = none := rfl
  have hblanks : grammar.blanks m ⟨[], offset⟩ = ⟨[], offset⟩ := by
    rw [blanks_eq_skip hm]
    rfl
  have hone : grammar.Yields m (.one fun _ => true) (grammar.blanks m ⟨[], offset⟩) .fail := by
    rw [hblanks]
    exact .leaf rfl (by simp)
  refine ⟨⟨[], offset⟩, .more_fail ?_, .lit_fail hnot⟩
  rw [hblanks]
  exact Yields.seq (.not (.lit_fail hnot)) hone

/-- Up to a cursor at which blanks have been passed over, or at which the input ends. -/
theorem of_skip (hm : m.blanks = true) (h : Closes m (grammar.skip c) o) : Closes m c o :=
  h.congr hm (skip_skip c)

end Closes

theorem exists_closes (hm : m.blanks = true) (c : Cursor) : ∃ o, Closes m c o := by
  induction hn : c.rest.length using Nat.strongRecOn generalizing c with
  | ind n ih =>
    have hlength := length_le_of_reaches (skipReaches c)
    have hskip := skip_skip c
    suffices ∃ o, Closes m (grammar.skip c) o by
      obtain ⟨o, ho⟩ := this
      exact ⟨o, ho.of_skip hm⟩
    generalize grammar.skip c = c' at hlength hskip
    obtain ⟨rest, offset⟩ := c'
    cases rest with
    | nil => exact ⟨_, .nil hm offset⟩
    | cons z r =>
      by_cases hz : z = ')'
      · subst hz
        exact ⟨_, .close hm r offset⟩
      · rw [List.length_cons] at hlength
        obtain ⟨o, ho⟩ := ih r.length (by omega) ⟨r, offset + z.utf8Size⟩ rfl
        exact ⟨o, ho.cons hm hskip hz⟩

/-- The site is passed over, since no parenthesis and no comment is in it. -/
theorem Closes.site (hm : m.blanks = true) {u : List Char} (hu : ∀ z ∈ u, isSiteChar z = true)
    (h : Closes m ⟨r, offset + size u⟩ o) : Closes m ⟨u ++ r, offset⟩ o := by
  induction u generalizing offset with
  | nil => exact h
  | cons z u ih =>
    have hz := hu z List.mem_cons_self
    rw [Peg.size_cons, ← Nat.add_assoc] at h
    have hrest := ih (fun w hw => hu w (List.mem_cons_of_mem z hw)) h
    by_cases hblank : isBlankChar z = true
    · refine hrest.congr hm ?_
      have hskip := skipFrom_blanks (u := [z]) (by simpa using hblank) (u ++ r) offset
      exact hskip.symm
    · have hmark : ¬ (z == ';') = true := by
        intro h
        obtain rfl := beq_iff_eq.mp h
        revert hz
        decide
      refine hrest.cons hm ?_ ?_
      · show skipFrom false (z :: (u ++ r)) offset = _
        rw [isBlankChar] at hblank
        rw [skipFrom, if_neg Bool.false_ne_true, if_neg hblank, if_neg hmark]
      · rintro rfl
        revert hz
        decide

/-- The parenthesis is closed before a line feed, or the characters up to there are passed over. -/
theorem closes_cases (hm : m.blanks = true) (v : List Char) (offset : Nat) :
    (∃ v' o, o + size v' = offset + size v ∧
        ∀ r, Closes m ⟨v ++ '\n' :: r, offset⟩ (.ok ⟨v' ++ '\n' :: r, o⟩ [])) ∨
      ∀ r o, Closes m ⟨r, offset + size v + 1⟩ o → Closes m ⟨v ++ '\n' :: r, offset⟩ o := by
  -- The induction is on the length, since blanks skip several characters at once.
  induction hn : v.length using Nat.strongRecOn generalizing v offset with
  | ind n ih =>
    rcases skipFrom_cases false v offset with ⟨u, z, v', rfl, hstop⟩ | hpass
    · have hskip (r : List Char) : grammar.skip ⟨u ++ z :: v' ++ '\n' :: r, offset⟩
          = ⟨z :: v' ++ '\n' :: r, offset + size u⟩ := hstop r
      have hfixed (r : List Char) : grammar.skip ⟨z :: v' ++ '\n' :: r, offset + size u⟩
          = ⟨z :: v' ++ '\n' :: r, offset + size u⟩ := by
        rw [← hskip, skip_skip]
      by_cases hz : z = ')'
      · subst hz
        refine .inl ⟨v', offset + size u + 1, ?_, fun r => ?_⟩
        · simp only [Peg.size_append, Peg.size_cons, show Char.utf8Size ')' = 1 from rfl]
          omega
        · refine .of_skip hm ?_
          rw [hskip]
          exact .close hm (v' ++ '\n' :: r) (offset + size u)
      · have hshort : v'.length < n := by
          simp only [List.length_append, List.length_cons] at hn
          omega
        rcases ih _ hshort v' (offset + size u + z.utf8Size) rfl with ⟨w, o, ho, hclose⟩ | hline
        · refine .inl ⟨w, o, ?_, fun r => ?_⟩
          · simp only [Peg.size_append, Peg.size_cons]
            omega
          · refine .of_skip hm ?_
            rw [hskip]
            exact (hclose r).cons hm (hfixed r) hz
        · refine .inr fun r o h => .of_skip hm ?_
          rw [hskip]
          refine (hline r o ?_).cons hm (hfixed r) hz
          simp only [Peg.size_append, Peg.size_cons] at h
          simpa only [Nat.add_assoc] using h
    · refine .inr fun r o h => ?_
      exact Closes.congr (c := ⟨r, offset + size v + 1⟩) hm (hpass r).symm h

theorem yields_parenthesized (hm : m.blanks = true) (h : Closes m ⟨r, offset + 1⟩ o) :
    grammar.Yields m Rule.parenthesized ⟨'(' :: r, offset⟩ o := by
  have hfixed := skip_skip ⟨r, offset + 1⟩
  obtain ⟨last, ⟨-, d, hd⟩, hlit⟩ := h.congr hm hfixed.symm
  have hstar : grammar.Yields m (.star filler) (grammar.skip ⟨r, offset + 1⟩) (.ok last []) := by
    refine ⟨by simp, d, (outcome_star d ?_).trans hd⟩
    rw [blanks_eq_skip hm, hfixed]
  have hclose : grammar.Yields m (.seq (.star filler) (.lit ")"))
      (grammar.skip ⟨r, offset + 1⟩) o := by
    rw [← blanks_eq_skip hm] at hlit
    rw [← Peg.Outcome.prepend_nil o]
    exact .seq hstar hlit
  rw [← blanks_eq_skip hm] at hclose
  rw [← Peg.Outcome.prepend_nil o]
  exact .seq (.lit rfl) hclose

theorem Closes.behind (hc : s.Behind x p c) (h : Closes m c o) :
    Closes m (c.edit (s.relabel x y p)) (o.edit (s.relabel x y p)) ∧
      ∀ next ts, o = .ok next ts → s.Behind x p next := by
  obtain ⟨last, hmore, hlit⟩ := h
  obtain ⟨hmore', hlast⟩ := (alike_behind (y := y) m (.more filler)).yields hc hmore
  obtain ⟨hskip, hedit⟩ := (hlast last [] rfl).skip (y := y)
  obtain ⟨hlit', hends⟩ := (alike_behind (y := y) m (.lit ")")).yields hskip hlit
  exact ⟨⟨_, hmore', hedit ▸ hlit'⟩, hends⟩

/-- Parentheses are matched alike around the label. -/
theorem alike_parenthesized (hm : m.blanks = true) :
    grammar.Alike (s.relabel x y p) (s.Ahead x p) (s.Sharp x p) m Rule.parenthesized := by
  refine fun d => .of_yields ?_
  rintro ⟨rest, offset⟩ ⟨v, hv⟩
  obtain rfl : rest = v ++ '\n' :: (s.lead ++ s.fromLabel x) := by simpa using hv.1
  rw [hv.edit_slide]
  have fails {z : Char} (hz : z ≠ '(') (r : List Char) :
      grammar.Yields m Rule.parenthesized ⟨z :: r, offset⟩ .fail := by
    refine .seq_fail (.lit_fail ?_)
    show (if '(' = z then _ else none) = none
    rw [if_neg (Ne.symm hz)]
  cases v with
  | nil => exact ⟨.fail, fails (by decide) _, fails (by decide) _, by simp⟩
  | cons z v =>
    by_cases hz : z = '('
    · subst hz
      rcases closes_cases hm v (offset + 1) with ⟨v', o, ho, hclose⟩ | hpass
      · have hnext := hv.slide (w := v') (o := o) (by
          rw [ho, Peg.size_cons, ← Nat.add_assoc]
          rfl)
        refine ⟨_, yields_parenthesized hm (hclose _), ?_, ?_⟩
        · rw [Peg.Outcome.edit, Peg.Outcome.elim, hnext.edit_slide]
          exact yields_parenthesized hm (hclose _)
        · intro next ts h
          cases h
          exact .inl ⟨v', hnext⟩
      · -- the site is passed over in both texts
        have pass (z : Label) {o : Peg.Outcome Rule}
            (h : Closes m (Cursor.moved (p + size z.chars) [] ⟨':' :: s.tail, 0⟩) o) :
            grammar.Yields m Rule.parenthesized
              ⟨'(' :: v ++ '\n' :: (s.lead ++ s.fromLabel z), offset⟩ o := by
          refine yields_parenthesized hm (hpass _ _ ?_)
          rw [fromLabel, ← List.append_assoc]
          refine .site hm (fun w hw => isSiteChar_of_mem_lead (List.mem_cons_of_mem _ hw)) ?_
          have hoffset := hv.2
          simp only [Peg.size_append, Peg.size_cons, List.cons_append,
            show Char.utf8Size '(' = 1 from rfl, show Char.utf8Size '\n' = 1 from rfl] at hoffset
          have hstart : offset + 1 + size v + 1 + size (s.lead ++ z.chars)
              = 0 + (p + size z.chars) := by
            rw [Peg.size_append]
            omega
          rw [hstart]
          simpa [Cursor.moved] using h
        have hstart : s.Behind x p (Cursor.moved (p + size x.chars) [] ⟨':' :: s.tail, 0⟩) :=
          ⟨_, .refl _, rfl⟩
        obtain ⟨o, ho⟩ := exists_closes hm (Cursor.moved (p + size x.chars) [] ⟨':' :: s.tail, 0⟩)
        obtain ⟨ho', hends⟩ := ho.behind (y := y) hstart
        rw [edit_moved (.refl _)] at ho'
        exact ⟨o, pass x ho, pass y ho', fun next ts h => .inr (hends next ts h)⟩
    · exact ⟨.fail, fails hz _, fails hz _, by simp⟩

/-! ## Rules -/

/-- The expression fails at every line that ends a block, and looks at no more than its start. -/
def failsAtLine (m : Mode) (e : Expr Rule) : Bool :=
  lineStarts.all fun w => (grammar.outcome 40 m e ⟨w, 0⟩).isFail &&
    ! grammar.touches 40 m e ⟨w, 0⟩

theorem yields_atLine (he : failsAtLine m e = true) (hc : s.AtLine x p c) :
    grammar.Yields m e c .fail := by
  obtain ⟨w, hw, r, hcursor⟩ := hc.exists_start
  have hstart := List.all_eq_true.mp he w hw
  rw [Bool.and_eq_true, Peg.Outcome.isFail_iff, Bool.not_eq_true'] at hstart
  refine ⟨by simp, 40, ?_⟩
  rw [hcursor, outcome_moved skipMoves 40 m e _ (.inr hstart.2), hstart.1]
  rfl

theorem fails_atLine (he : failsAtLine m e = true) :
    grammar.Fails (s.relabel x y p) (s.AtLine x p) m e := by
  intro c hc
  have hline : s.AtLine y p (c.edit (s.relabel x y p)) := Before.relabel hc
  exact ⟨yields_atLine he hc, yields_atLine he hline⟩

/-- The rules that lines and labels are matched by. -/
def lineRules : List Rule :=
  [.module, .functionDef, .block, .blockLabel, .labelName, .instruction, .retInst, .brInst,
    .condBrInst, .unreachableInst, .otherInst, .opcodeWord, .restOfLine]

/-- An expression whose parts do not come to the label. -/
def spaced : Expr Rule → Bool
  | .lit word => ! word.toList.contains '\n' && (word == "" || failsAtLine {} (.lit word))
  | .done => true
  | .rule r => ! lineRules.contains r
  | .seq a b | .alt a b => spaced a && spaced b
  | .opt a | .star a | .more a | .not a => spaced a
  | .one _ | .span _ => false

/-- The same with parentheses in it. -/
inductive Spaced : Expr Rule → Prop where
  | of_spaced {e : Expr Rule} (h : spaced e = true) : Spaced e
  | parenthesized : Spaced Rule.parenthesized
  | seq {a b : Expr Rule} (ha : Spaced a) (hb : Spaced b) : Spaced (.seq a b)
  | alt {a b : Expr Rule} (ha : Spaced a) (hb : Spaced b) : Spaced (.alt a b)

/-- The modes outside tokens. -/
def looseModes : List Mode := [{}, { look := .positive }, { look := .negative }]

/-- What is checked of each rule. -/
def ruleCheck (r : Rule) : Bool :=
  lineRules.contains r || r == .functionSuffix || r == .paramAttribute ||
    grammar.kind r == .normal && spaced (grammar.body r) ||
    grammar.kind r == .atomic && tight (grammar.body r) &&
      looseModes.all fun m => failsAtLine m (.rule r)

theorem ruleCheck_eq_true (r : Rule) : ruleCheck r = true :=
  Rule.forall_of_all (p := ruleCheck) (by decide +kernel) r

/-- The two rules that have parentheses in them. -/
theorem spaced_functionSuffix : Spaced (grammar.body .functionSuffix) := by
  have hmemory : Spaced (.seq "memory" Rule.parenthesized) :=
    .seq (.of_spaced rfl) .parenthesized
  exact .alt (.of_spaced rfl) <| .alt (.of_spaced rfl) <|
    .alt (.of_spaced rfl) <| .alt (.of_spaced rfl) <|
    .alt (.of_spaced rfl) <| .alt (.of_spaced rfl) <|
    .alt (.of_spaced rfl) <| .alt (.of_spaced rfl) hmemory

theorem spaced_paramAttribute : Spaced (grammar.body .paramAttribute) := by
  have hcaptures : Spaced (.seq "captures" Rule.parenthesized) :=
    .seq (.of_spaced rfl) .parenthesized
  exact .alt (.of_spaced rfl) <| .alt (.of_spaced rfl) <|
    .alt (.of_spaced rfl) <| .alt (.of_spaced rfl) <|
    .alt (.of_spaced rfl) <| .alt hcaptures (.of_spaced rfl)

theorem rule_cases {r : Rule} (hr : lineRules.contains r = false) :
    grammar.kind r = .normal ∧ Spaced (grammar.body r) ∨
      grammar.kind r = .atomic ∧ tight (grammar.body r) = true ∧
        ∀ m ∈ looseModes, failsAtLine m (.rule r) = true := by
  have hcheck := ruleCheck_eq_true r
  simp only [ruleCheck, hr, Bool.false_or, Bool.or_eq_true, Bool.and_eq_true, beq_iff_eq,
    List.all_eq_true] at hcheck
  rcases hcheck with ((rfl | rfl) | ⟨hkind, hbody⟩) | ⟨⟨hkind, hbody⟩, hline⟩
  · exact .inl ⟨rfl, spaced_functionSuffix⟩
  · exact .inl ⟨rfl, spaced_paramAttribute⟩
  · exact .inl ⟨hkind, .of_spaced hbody⟩
  · exact .inr ⟨hkind, hbody, hline⟩

theorem blanks_of_loose (hm : m ∈ looseModes) : m.blanks = true := by
  simp only [looseModes, List.mem_cons, List.not_mem_nil, or_false] at hm
  rcases hm with rfl | rfl | rfl <;> rfl

theorem negate_loose (hm : m ∈ looseModes) : m.negate ∈ looseModes := by
  simp only [looseModes, List.mem_cons, List.not_mem_nil, or_false] at hm ⊢
  rcases hm with rfl | rfl | rfl <;> simp [Mode.negate]

theorem skips_loose (hm : m ∈ looseModes) :
    grammar.Skips (s.relabel x y p) (s.Loose x p) (s.Loose x p) m := by
  intro c hc
  rw [blanks_eq_skip (blanks_of_loose hm), blanks_eq_skip (blanks_of_loose hm)]
  exact hc.skip

theorem alike_loose {S : Cursor → Prop}
    (hahead : grammar.Alike (s.relabel x y p) (s.Ahead x p) S m e)
    (hline : grammar.Alike (s.relabel x y p) (s.AtLine x p) S m e)
    (hS : ∀ c, s.Behind x p c → S c) : grammar.Alike (s.relabel x y p) (s.Loose x p) S m e :=
  (alike_sharp hahead hS).or hline

theorem Ahead.loose (h : s.Ahead x p c) : s.Loose x p c := .inl (.inl h)

theorem Behind.loose (h : s.Behind x p c) : s.Loose x p c := .inl (.inr h)

theorem alike_lit {word : String} (hword : spaced (.lit word) = true) :
    grammar.Alike (s.relabel x y p) (s.Loose x p) (s.Loose x p) m (.lit word) := by
  simp only [spaced, Bool.and_eq_true, Bool.not_eq_true', Bool.or_eq_true, beq_iff_eq] at hword
  obtain ⟨hline, rfl | hfails⟩ := hword
  · exact fun d => .lit fun c hc => ⟨rfl, fun next h => by cases h; exact hc⟩
  · have hword : '\n' ∉ word.toList := by simpa using hline
    have hahead := Ahead.lit (s := s) (x := x) (y := y) (p := p) hword m
    have hline : failsAtLine m (.lit word) = true := hfails
    exact alike_loose (hahead.mono (fun _ hc => hc) fun _ => Ahead.loose) (fails_atLine hline).alike
      fun _ => Behind.loose

theorem alike_done : grammar.Alike (s.relabel x y p) (s.Loose x p) (s.Loose x p) m .done := by
  have fails {v : List Char} {z : Label} {c : Cursor} (h : s.Before z p v c) :
      grammar.Yields m .done c .fail := by
    refine .leaf ?_ (by simp)
    have hne : c.rest.isEmpty = false := by
      rw [h.1]
      simp [fromLabel]
    simp only [outcome, hne]
    rfl
  refine alike_loose (fun d => .of_fails ?_) (fun d => .of_fails ?_) fun _ => Behind.loose
  · rintro c ⟨v, hv⟩
    exact ⟨fails hv, fails (hv.relabel (y := y))⟩
  · intro c hc
    exact ⟨fails hc, fails (Before.relabel (y := y) hc)⟩

/-- **Parts away from the label** are matched alike when the label is replaced. -/
theorem alike_spaced (he : Spaced e) (hm : m ∈ looseModes) :
    grammar.Alike (s.relabel x y p) (s.Loose x p) (s.Loose x p) m e := by
  intro d
  induction d generalizing m e with
  | zero => exact alikeAt_zero
  | succ d ih =>
    have hskips := skips_loose (s := s) (x := x) (y := y) (p := p) hm
    cases he with
    | parenthesized =>
      have hopen := alike_parenthesized (s := s) (x := x) (y := y) (p := p) (blanks_of_loose hm)
      have hline : failsAtLine m Rule.parenthesized = true := by
        simp only [looseModes, List.mem_cons, List.not_mem_nil, or_false] at hm
        rcases hm with rfl | rfl | rfl <;> rfl
      exact alike_loose (hopen.mono (fun _ hc => hc) fun _ => .inl) (fails_atLine hline).alike
        (fun _ => Behind.loose) (d + 1)
    | seq ha hb => exact (ih ha hm).seq hskips (ih hb hm)
    | alt ha hb => exact (ih ha hm).alt (ih hb hm)
    | of_spaced he =>
      cases e with
      | lit word => exact alike_lit he (d + 1)
      | done => exact alike_done (d + 1)
      | one | span => cases he
      | seq a b =>
        rw [spaced, Bool.and_eq_true] at he
        exact (ih (.of_spaced he.1) hm).seq hskips (ih (.of_spaced he.2) hm)
      | alt a b =>
        rw [spaced, Bool.and_eq_true] at he
        exact (ih (.of_spaced he.1) hm).alt (ih (.of_spaced he.2) hm)
      | opt a => exact (ih (.of_spaced (e := a) he) hm).opt fun _ hc => hc
      | not a => exact (ih (.of_spaced (e := a) he) (negate_loose hm)).not
      | star a =>
        exact (ih (.of_spaced (e := a) he) hm).star (fun _ hc => hc)
          (ih (.of_spaced (e := .more a) he) hm)
      | more a =>
        exact (ih (.of_spaced (e := a) he) hm).more hskips (ih (.of_spaced (e := .more a) he) hm)
      | rule r =>
        rcases rule_cases (r := r) (by simpa [spaced] using he) with
          ⟨hkind, hbody⟩ | ⟨hkind, hbody, hline⟩
        · refine .rule ?_
          rw [hkind]
          exact ih hbody hm
        · -- a token, which fails at the line as a whole
          have htoken :
              grammar.Alike (s.relabel x y p) (s.Sharp x p) (s.Sharp x p) m (.rule r) := by
            refine .rule ?_
            rw [hkind]
            exact alike_tight hbody rfl
          exact (htoken.mono (fun _ hc => hc) fun _ => .inl).or
            (fails_atLine (hline m hm)).alike (d + 1)

end SafeIR.Source.LabelSite
