import SafeIR.Proofs.Source.Spaced

/-!
# Texts with another label

Lines and labels are matched by the rules that are left over by `Spaced`. At the line that ends a
block its instruction is matched up to the label, and where neither label is taken for an
instruction, the label is matched as the label of a block. So the whole text is matched alike with
the one label and with the other.
-/

namespace SafeIR.Source.LabelSite

open Peg (Cursor Edit Expr Mode ParseTree literal? spanFrom size)
open Peg.Grammar
open Rule (isIdentChar)

variable {s : LabelSite} {x y : Label} {p : Nat} {c : Cursor} {m : Mode} {e : Expr Rule}

/-! ## The line that ends a block -/

/-- A match that leaves no tree and takes a known part of what stands before the label. -/
theorem passes_of_yields {v v' : List Char}
    (h : ∀ z offset, grammar.Yields m e ⟨v ++ (v' ++ s.fromLabel z), offset⟩
      (.ok ⟨v' ++ s.fromLabel z, offset + size v⟩ [])) :
    grammar.Passes (s.relabel x y p) (s.Before x p (v ++ v')) (s.Before x p v') m e := by
  rintro ⟨rest, offset⟩ hc
  obtain rfl : rest = v ++ (v' ++ s.fromLabel x) := by rw [← List.append_assoc]; exact hc.1
  have hnext : s.Before x p v' ⟨v' ++ s.fromLabel x, offset + size v⟩ := by
    have hoffset := hc.2
    rw [Peg.size_append] at hoffset
    exact ⟨rfl, by dsimp only at hoffset ⊢; omega⟩
  refine ⟨_, [], h x offset, ?_, hnext⟩
  rw [hnext.edit, hc.edit, List.append_assoc]
  exact h y offset

theorem passes_lit (word : String) (v : List Char) :
    grammar.Passes (s.relabel x y p) (s.Before x p (word.toList ++ v)) (s.Before x p v) m
      (.lit word) :=
  passes_of_yields fun _ _ => .lit (Peg.literal?_append _ _ _)

theorem skips_space {v : List Char} (hv : ∀ r o, skipFrom false (v ++ r) o = ⟨v ++ r, o⟩) :
    grammar.Skips (s.relabel x y p) (s.Before x p (' ' :: v)) (s.Before x p v) {} := by
  have step {z : Label} {c : Cursor} (h : s.Before z p (' ' :: v) c) :
      grammar.blanks {} c = ⟨v ++ s.fromLabel z, c.offset + 1⟩ := by
    obtain ⟨rest, offset⟩ := c
    obtain rfl : rest = ' ' :: (v ++ s.fromLabel z) := h.1
    exact hv (s.fromLabel z) (offset + 1)
  intro c hc
  have hnext : s.Before x p v ⟨v ++ s.fromLabel x, c.offset + 1⟩ := by
    have hoffset := hc.2
    rw [Peg.size_cons, show Char.utf8Size ' ' = 1 from rfl] at hoffset
    exact ⟨rfl, by dsimp only; omega⟩
  have hedit := step (hc.relabel (y := y))
  rw [hc.edit] at hedit
  rw [step hc, hc.edit, hnext.edit]
  exact ⟨hnext, hedit⟩

/-- A name without quotes ends where another character stands. -/
theorem yields_identifier (hm : m.blanks = false) (l : Label) {q : Char}
    (hq : isIdentChar q = false) (r : List Char) (offset : Nat) :
    grammar.Yields m Rule.identifier ⟨l.chars ++ q :: r, offset⟩
      (.ok ⟨q :: r, offset + size l.chars⟩ []) := by
  have hblanks (c : Cursor) : grammar.blanks m c = c := by
    rw [blanks, hm, if_neg Bool.false_ne_true]
  obtain ⟨chars, hne, hident⟩ := l
  cases chars with
  | nil => exact absurd rfl hne
  | cons z w =>
    have hz := hident z List.mem_cons_self
    have hw : ∀ a ∈ w, isIdentChar a = true := fun a ha => hident a (List.mem_cons_of_mem z ha)
    have hquoted : literal? "\"".toList ⟨z :: w ++ q :: r, offset⟩ = none := by
      show (if '"' = z then _ else none) = none
      rw [if_neg]
      rintro rfl
      revert hz
      decide
    have hone : grammar.Yields m (.one isIdentChar) ⟨z :: w ++ q :: r, offset⟩
        (.ok ⟨w ++ q :: r, offset + z.utf8Size⟩ []) := by
      refine .leaf ?_ (by simp)
      simp only [outcome, List.cons_append, hz, if_true]
    have hspan : grammar.Yields m (.span isIdentChar)
        (grammar.blanks m ⟨w ++ q :: r, offset + z.utf8Size⟩)
        (.ok ⟨q :: r, offset + size (z :: w)⟩ []) := by
      have hfrom : spanFrom isIdentChar (w ++ q :: r) (offset + z.utf8Size)
          = ⟨q :: r, offset + size (z :: w)⟩ := by
        rw [Peg.spanFrom_append, if_pos (List.all_eq_true.mpr hw), spanFrom,
          if_neg (by rw [hq]; exact Bool.false_ne_true), Peg.size_cons, Nat.add_assoc]
      rw [hblanks, ← hfrom]
      exact .span isIdentChar
    exact .alt_right (.seq_fail (.lit_fail hquoted)) (Yields.seq hone hspan)

theorem isIdentChar_of_isBlankChar {z : Char} (h : isBlankChar z = true) :
    isIdentChar z = false := by
  simp only [isBlankChar, Bool.or_eq_true, beq_iff_eq] at h
  rcases h with ((rfl | rfl) | rfl) | rfl <;> decide

theorem passes_target (hm : m.blanks = false) (target : Label) :
    grammar.Passes (s.relabel x y p) (s.Before x p (target.chars ++ s.gap)) (s.InGap x p) m
      Rule.identifier := by
  refine passes_of_yields fun z offset => ?_
  have hblank := s.gap_blank
  cases hgap : s.gap with
  | nil => exact absurd hgap s.gap_ne_nil
  | cons q r =>
    rw [hgap] at hblank
    exact yields_identifier hm target (isIdentChar_of_isBlankChar (hblank q List.mem_cons_self)) _ _

theorem atLine_eq {v : List Char} (h : s.line.chars ++ s.gap = v) :
    s.AtLine x p = s.Before x p v := by
  funext c
  rw [AtLine, h]

theorem passes_retVoid (hline : s.line = .retVoid) :
    grammar.Passes (s.relabel x y p) (s.AtLine x p) (s.InGap x p) {} (.rule .retInst) := by
  have hchars : s.line.chars ++ s.gap = "ret".toList ++ ' ' :: ("void".toList ++ s.gap) := by
    have hword : "ret void".toList = "ret".toList ++ ' ' :: "void".toList := by decide
    rw [hline]
    show "ret void".toList ++ s.gap = _
    rw [hword, List.append_assoc, List.cons_append]
  rw [atLine_eq hchars]
  exact .rule (.seq (passes_lit _ _) (skips_space fun r o => rfl)
    (.alt_left (.rule (passes_lit _ _))))

theorem passes_br {target : Label} (hline : s.line = .br target) :
    grammar.Passes (s.relabel x y p) (s.AtLine x p) (s.InGap x p) {} (.rule .brInst) := by
  have hchars : s.line.chars ++ s.gap = "br".toList ++ ' ' :: ("label".toList ++ ' ' ::
      ("%".toList ++ (target.chars ++ s.gap))) := by
    have hword :
        "br label %".toList = "br".toList ++ ' ' :: ("label".toList ++ ' ' :: "%".toList) := by
      decide
    rw [hline]
    show "br label %".toList ++ target.chars ++ s.gap = _
    rw [hword]
    simp only [List.append_assoc, List.cons_append]
  rw [atLine_eq hchars]
  have hname : grammar.Passes (s.relabel x y p)
      (s.Before x p ("%".toList ++ (target.chars ++ s.gap))) (s.InGap x p) {} (.rule .localIdent) :=
    .rule (.seq (passes_lit _ _) (skips_of_blanks rfl) (passes_target rfl target))
  refine .rule (.seq (passes_lit _ _) (skips_space fun r o => ?_)
    (.seq (passes_lit _ _) (skips_space fun r o => ?_) hname))
  · rfl
  · rfl

theorem skips_gap : grammar.Skips (s.relabel x y p) (s.InGap x p) (s.AtLabel x p) {} :=
  fun _ hc => hc.skip

theorem skips_label : grammar.Skips (s.relabel x y p) (s.AtLabel x p) (s.AtLabel x p) {} := by
  intro c hc
  have hedit : s.AtLabel y p (c.edit (s.relabel x y p)) := Before.relabel hc
  exact ⟨by rw [blanks_eq_skip rfl, hc.skip]; exact hc, by
    rw [blanks_eq_skip rfl, blanks_eq_skip rfl, hc.skip, hedit.skip]⟩

/-- At a label no literal matches that starts with a character of no name. -/
theorem fails_lit {word : String} (h : (word.toList.head?.any fun z => ! isIdentChar z) = true) :
    grammar.Fails (s.relabel x y p) (s.AtLabel x p) m (.lit word) := by
  have step {l : Label} {c : Cursor} (hc : s.AtLabel l p c) :
      grammar.Yields m (.lit word) c .fail := by
    refine .lit_fail ?_
    obtain ⟨rest, offset⟩ := c
    obtain rfl : rest = l.chars ++ ':' :: s.tail := hc.1
    cases hword : word.toList with
    | nil =>
      rw [hword] at h
      cases h
    | cons z zs =>
      cases hchars : l.chars with
      | nil => exact absurd hchars l.ne_nil
      | cons w ws =>
        have hne : z ≠ w := by
          rintro rfl
          have hz : isIdentChar z = true := l.ident z (by rw [hchars]; exact List.mem_cons_self)
          simp [hword, hz] at h
        rw [List.cons_append, literal?, if_neg hne]
  intro c hc
  exact ⟨step hc, step (Before.relabel (y := y) hc)⟩

theorem passes_unreachable (hline : s.line = .unreachable) :
    grammar.Passes (s.relabel x y p) (s.AtLine x p) (s.AtLabel x p) {}
      (.rule .unreachableInst) := by
  have hchars : s.line.chars ++ s.gap = "unreachable".toList ++ s.gap := by rw [hline]; rfl
  rw [atLine_eq hchars]
  exact .rule (.seq (passes_lit _ _) skips_gap (.not (fails_lit (by decide))))

/-- An instruction of another kind fails at the line by its first word. -/
theorem fails_word {r : Rule} {word : String} (hbody : grammar.body r = .seq (.lit word) e)
    (h : ∀ rest offset, literal? word.toList ⟨s.line.chars ++ rest, offset⟩ = none) :
    grammar.Fails (s.relabel x y p) (s.AtLine x p) m (.rule r) := by
  refine .rule ?_
  rw [hbody]
  refine .seq fun c hc => ?_
  have step {z : Label} {c : Cursor} {m : Mode} (hc : s.AtLine z p c) :
      grammar.Yields m (.lit word) c .fail := by
    obtain ⟨rest, offset⟩ := c
    obtain rfl : rest = s.line.chars ++ (s.gap ++ s.fromLabel z) := by
      rw [← List.append_assoc]
      exact hc.1
    exact .lit_fail (h _ offset)
  exact ⟨step hc, step (Before.relabel (y := y) hc)⟩

/-- Behind the line that ends a block, before the blanks or after them. -/
def Ended (s : LabelSite) (x : Label) (p : Nat) (c : Cursor) : Prop :=
  s.InGap x p c ∨ s.AtLabel x p c

theorem passes_line :
    grammar.Passes (s.relabel x y p) (s.AtLine x p) (s.Ended x p) {} Rule.instructionBody := by
  cases hline : s.line with
  | retVoid => exact .alt_left ((passes_retVoid hline).mono (fun _ hc => hc) fun _ => .inl)
  | br target =>
    have hret : grammar.Fails (s.relabel x y p) (s.AtLine x p) {} (.rule .retInst) :=
      fails_word rfl fun rest offset => by rw [hline]; rfl
    exact .alt_right hret (.alt_left ((passes_br hline).mono (fun _ hc => hc) fun _ => .inl))
  | unreachable =>
    have other {r : Rule} {word : String} {e : Expr Rule}
        (hbody : grammar.body r = .seq (.lit word) e)
        (h : ∀ rest offset, literal? word.toList ⟨"unreachable".toList ++ rest, offset⟩ = none) :
        grammar.Fails (s.relabel x y p) (s.AtLine x p) {} (.rule r) :=
      fails_word hbody fun rest offset => by rw [hline]; exact h rest offset
    refine .alt_right (other rfl fun _ _ => rfl) <| .alt_right (other rfl fun _ _ => rfl) <|
      .alt_right (other rfl fun _ _ => rfl) <| .alt_right (other rfl fun _ _ => rfl) <|
      .alt_left ((passes_unreachable hline).mono (fun _ hc => hc) fun _ => .inr)

/-- The line is an instruction that ends at the label. -/
theorem passes_instruction :
    grammar.Passes (s.relabel x y p) (s.AtLine x p) (s.AtLabel x p) {} (.rule .instruction) := by
  have hresult : failsAtLine {} (.all [.rule .localIdent, .lit "="]) = true := rfl
  have hline : grammar.Skips (s.relabel x y p) (s.AtLine x p) (s.AtLine x p) {} := by
    intro c hc
    have hedit : s.AtLine y p (c.edit (s.relabel x y p)) := Before.relabel hc
    rw [blanks_eq_skip rfl, blanks_eq_skip rfl, hc.skip, hedit.skip]
    exact ⟨hc, rfl⟩
  have hended : grammar.Skips (s.relabel x y p) (s.Ended x p) (s.AtLabel x p) {} := by
    rintro c (hc | hc)
    · exact skips_gap c hc
    · exact skips_label c hc
  exact .rule (.seq (.opt_none (fails_atLine hresult)) hline
    (.seq passes_line hended (.star_none (.rule (.seq (fails_lit (by decide)))))))

/-! ## Instructions -/

theorem sharp_lit {word : String} (hword : '\n' ∉ word.toList) :
    grammar.Alike (s.relabel x y p) (s.Sharp x p) (s.Sharp x p) m (.lit word) :=
  alike_sharp ((Ahead.lit hword m).mono (fun _ hc => hc) fun _ => .inl) fun _ => .inr

theorem sharp_spaced (he : spaced e = true) :
    grammar.Alike (s.relabel x y p) (s.Sharp x p) (s.Loose x p) {} e :=
  (alike_spaced (.of_spaced he) (by simp [looseModes])).mono (fun _ => .inl) fun _ hc => hc

/-- An instruction that starts with a word which a line may start with, where no line starts. -/
theorem sharp_word {r : Rule} {word : String} (hbody : grammar.body r = .seq (.lit word) e)
    (hkind : grammar.kind r = .normal) (hword : '\n' ∉ word.toList) (he : spaced e = true) :
    grammar.Alike (s.relabel x y p) (s.Sharp x p) (s.Loose x p) {} (.rule r) := by
  have hloose : ({} : Mode) ∈ looseModes := by simp [looseModes]
  refine .rule ?_
  rw [hbody, hkind]
  refine .seq (sharp_lit hword) (fun c hc => ?_) (alike_spaced (.of_spaced he) hloose)
  exact skips_loose hloose c (.inl hc)

theorem sharp_otherInst :
    grammar.Alike (s.relabel x y p) (s.Sharp x p) (s.Sharp x p) {} (.rule .otherInst) := by
  refine .rule (.seq (.rule (alike_tight ?_ rfl)) (skips_of_blanks rfl)
    (.seq (alike_tight ?_ rfl) (skips_of_blanks rfl) (.rule (alike_tight ?_ rfl))))
  · decide
  · decide
  · decide

theorem sharp_instructionBody :
    grammar.Alike (s.relabel x y p) (s.Sharp x p) (s.Loose x p) {} Rule.instructionBody := by
  have rest (r : Rule) (hr : spaced (.rule r) = true) {b : Expr Rule}
      (hb : grammar.Alike (s.relabel x y p) (s.Sharp x p) (s.Loose x p) {} b) :
      grammar.Alike (s.relabel x y p) (s.Sharp x p) (s.Loose x p) {} (.alt (.rule r) b) :=
    .alt (sharp_spaced hr) hb
  have hother : grammar.Alike (s.relabel x y p) (s.Sharp x p) (s.Loose x p) {} (.rule .otherInst) :=
    sharp_otherInst.mono (fun _ hc => hc) fun _ => .inl
  refine .alt (sharp_word rfl rfl (by decide) rfl) <|
    .alt (sharp_word rfl rfl (by decide) rfl) <|
    .alt (sharp_word rfl rfl (by decide) rfl) <| rest .switchInst rfl <|
    .alt (sharp_word rfl rfl (by decide) rfl) <| rest .resumeInst rfl <|
    rest .invokeInst rfl <| rest .fnegInst rfl <| rest .binaryInst rfl <| rest .icmpInst rfl <|
    rest .fcmpInst rfl <| rest .selectInst rfl <| rest .castInst rfl <| rest .allocaInst rfl <|
    rest .loadInst rfl <| rest .storeInst rfl <| rest .gepInst rfl <| rest .phiInst rfl <|
    rest .callInst rfl <| rest .landingpadInst rfl hother

theorem skips_open : grammar.Skips (s.relabel x y p) (s.Open x p) (s.Open x p) {} := by
  rintro c (hc | hc)
  · obtain ⟨hnext, hedit⟩ := hc.skip (y := y)
    exact ⟨.inl hnext, hedit⟩
  · obtain ⟨hnext, hedit⟩ := skips_label (y := y) c hc
    exact ⟨.inr hnext, hedit⟩

/-- Where the shape of an instruction can end. -/
def Stopped (s : LabelSite) (x : Label) (p : Nat) (c : Cursor) : Prop :=
  s.Loose x p c ∨ s.Ended x p c

theorem skips_stopped : grammar.Skips (s.relabel x y p) (s.Stopped x p) (s.Open x p) {} := by
  rintro c (hc | hc | hc)
  · exact skips_open c (.inl hc)
  · obtain ⟨hnext, hedit⟩ := skips_gap (y := y) c hc
    exact ⟨.inr hnext, hedit⟩
  · exact skips_open c (.inr hc)

theorem loose_instructionBody :
    grammar.Alike (s.relabel x y p) (s.Loose x p) (s.Stopped x p) {} Rule.instructionBody :=
  (sharp_instructionBody.mono (fun _ hc => hc) fun _ => .inl).or
    (passes_line.alike.mono (fun _ hc => hc) fun _ => .inr)

theorem open_of_loose (he : spaced e = true)
    (hlabel : grammar.Alike (s.relabel x y p) (s.AtLabel x p) (s.Open x p) {} e) :
    grammar.Alike (s.relabel x y p) (s.Open x p) (s.Open x p) {} e :=
  ((alike_spaced (.of_spaced he) (by simp [looseModes])).mono
    (fun _ hc => hc) fun _ => .inl).or hlabel

theorem open_trailers :
    grammar.Alike (s.relabel x y p) (s.Open x p) (s.Open x p) {} (.star (.rule .instTrailer)) := by
  have hlabel : grammar.Passes (s.relabel x y p) (s.AtLabel x p) (s.AtLabel x p) {}
      (.star (.rule .instTrailer)) := .star_none (.rule (.seq (fails_lit (by decide))))
  exact open_of_loose rfl (hlabel.alike.mono (fun _ hc => hc) fun _ => .inr)

section

variable (hx : takenForInstruction x.chars = false) (hy : takenForInstruction y.chars = false)
include hx hy

/-- No instruction starts at a label that is not taken for one. -/
theorem fails_instruction :
    grammar.Fails (s.relabel x y p) (s.AtLabel x p) {} (.rule .instruction) := by
  have step {z : Label} (hz : takenForInstruction z.chars = false) {c : Cursor}
      (hc : s.AtLabel z p c) : grammar.Yields {} (.rule .instruction) c .fail := by
    obtain ⟨rest, offset⟩ := c
    obtain rfl : rest = z.chars ++ ':' :: s.tail := hc.1
    have hmatch := decides_instruction {} z.chars s.tail offset z.ident
    rw [hz] at hmatch
    exact hmatch
  intro c hc
  exact ⟨step hx hc, step hy (Before.relabel (y := y) hc)⟩

theorem open_instruction :
    grammar.Alike (s.relabel x y p) (s.Open x p) (s.Open x p) {} (.rule .instruction) := by
  have hloose : ({} : Mode) ∈ looseModes := by simp [looseModes]
  have hresult := alike_spaced (s := s) (x := x) (y := y) (p := p)
    (.of_spaced (e := .opt (.all [.rule .localIdent, .lit "="])) rfl) hloose
  have hinstruction : grammar.Alike (s.relabel x y p) (s.Loose x p) (s.Open x p) {}
      (.rule .instruction) :=
    .rule (.seq hresult (skips_loose hloose)
      (.seq loose_instructionBody skips_stopped open_trailers))
  exact hinstruction.or (fails_instruction hx hy).alike

/-! ## Blocks -/

omit hx hy in
theorem passes_blockLabel :
    grammar.Passes (s.relabel x y p) (s.AtLabel x p) (s.Behind x p) {} (.rule .blockLabel) := by
  have hident : isIdentChar ':' = false := by decide
  -- the name is matched up to the colon
  let colon : Cursor := Cursor.moved (p + size x.chars) [] ⟨':' :: s.tail, 0⟩
  have hname (m : Mode) (hm : m.blanks = false) :
      grammar.Passes (s.relabel x y p) (s.AtLabel x p) (· = colon) m Rule.identifier := by
    have step (z : Label) : grammar.Yields m Rule.identifier ⟨s.fromLabel z, p⟩
        (.ok (Cursor.moved (p + size z.chars) [] ⟨':' :: s.tail, 0⟩) []) := by
      have hyields := yields_identifier hm z hident s.tail p
      simpa [Cursor.moved, fromLabel] using hyields
    intro c hc
    obtain rfl : c = ⟨s.fromLabel x, p⟩ := by
      obtain ⟨rest, offset⟩ := c
      obtain ⟨hrest, hoffset⟩ := hc
      exact congrArg₂ Cursor.mk hrest hoffset
    refine ⟨colon, [], step x, ?_, rfl⟩
    rw [Before.edit hc, edit_moved (.refl _)]
    exact step y
  have hcolon (m : Mode) :
      grammar.Passes (s.relabel x y p) (· = colon) (s.Behind x p) m (.lit ":") := by
    refine .of_alike ((alike_behind m (.lit ":")).mono ?_ fun _ hc => hc) ?_
    · rintro c rfl
      exact ⟨_, .refl _, rfl⟩
    · rintro c rfl
      exact ⟨_, _, .lit rfl⟩
  exact .rule (.seq (.rule (hname _ rfl)) (skips_of_blanks rfl) (hcolon _))

omit hx hy in
theorem open_blockLabel :
    grammar.Alike (s.relabel x y p) (s.Open x p) (s.Open x p) {} (.rule .blockLabel) := by
  have hsharp :
      grammar.Alike (s.relabel x y p) (s.Sharp x p) (s.Sharp x p) {} (.rule .blockLabel) := by
    refine .rule (.seq (.rule (alike_tight ?_ rfl)) (skips_of_blanks rfl) (alike_tight ?_ rfl))
    · decide
    · decide
  have hline : failsAtLine {} (.rule .blockLabel) = true := rfl
  exact ((hsharp.mono (fun _ hc => hc) fun _ hc => .inl (.inl hc)).or (fails_atLine hline).alike).or
    (passes_blockLabel.alike.mono (fun _ hc => hc) fun _ hc => .inl hc.loose)

theorem open_block :
    grammar.Alike (s.relabel x y p) (s.Open x p) (s.Open x p) {} (.rule .block) := by
  have hinstruction := open_instruction (s := s) (p := p) hx hy
  exact .rule (.seq (.opt open_blockLabel fun _ hc => hc) skips_open
    (.seq hinstruction skips_open
      (.star hinstruction (fun _ hc => hc) (.more hinstruction skips_open))))

theorem loose_functionDef :
    grammar.Alike (s.relabel x y p) (s.Loose x p) (s.Loose x p) {} (.rule .functionDef) := by
  have hloose : ({} : Mode) ∈ looseModes := by simp [looseModes]
  have hblock := open_block (s := s) (p := p) hx hy
  have hblocks : grammar.Alike (s.relabel x y p) (s.Loose x p) (s.Open x p) {}
      (.plus (.rule .block)) :=
    .seq (hblock.mono (fun _ => .inl) fun _ hc => hc) skips_open
      (.star hblock (fun _ hc => hc) (.more hblock skips_open))
  have hclose : grammar.Alike (s.relabel x y p) (s.Open x p) (s.Loose x p) {} (.lit "\x7d") :=
    (alike_lit rfl).or (fails_lit (by decide)).alike
  have hheading := alike_spaced (s := s) (x := x) (y := y) (p := p)
    (.of_spaced (e := Rule.heading "define") rfl) hloose
  exact .rule (.seq hheading (skips_loose hloose) (.seq (alike_lit rfl)
    (skips_loose hloose) (.seq hblocks skips_open hclose)))

theorem loose_topItem :
    grammar.Alike (s.relabel x y p) (s.Loose x p) (s.Loose x p) {} Rule.topItem := by
  have hloose : ({} : Mode) ∈ looseModes := by simp [looseModes]
  have rest (r : Rule) (hr : spaced (.rule r) = true) {b : Expr Rule}
      (hb : grammar.Alike (s.relabel x y p) (s.Loose x p) (s.Loose x p) {} b) :
      grammar.Alike (s.relabel x y p) (s.Loose x p) (s.Loose x p) {} (.alt (.rule r) b) :=
    .alt (alike_spaced (.of_spaced hr) hloose) hb
  refine rest .sourceFilename rfl <| rest .targetDecl rfl <| rest .typeDef rfl <|
    rest .globalDef rfl <| .alt (loose_functionDef hx hy) <| rest .functionDecl rfl <|
    rest .attributeGroup rfl <| rest .metadataDef rfl <|
    alike_spaced (.of_spaced (e := .rule .comdatDef) rfl) hloose

theorem loose_module :
    grammar.Alike (s.relabel x y p) (s.Loose x p) (s.Loose x p) {} (.rule .module) := by
  have hloose : ({} : Mode) ∈ looseModes := by simp [looseModes]
  have hitem := loose_topItem (s := s) (p := p) hx hy
  exact .rule (.seq (alike_lit rfl) (skips_loose hloose)
    (.seq (.star hitem (fun _ hc => hc) (.more hitem (skips_loose hloose))) (skips_loose hloose)
      (alike_spaced (.of_spaced (e := .rule .endOfInput) rfl) hloose)))

/-! ## The text -/

omit hx hy in
theorem ahead_text (head : List Char) :
    s.Before x (s.labelOffset head) (head ++ '\n' :: s.lead) ⟨s.text x head, 0⟩ := by
  refine ⟨by simp [text], ?_⟩
  simp only [labelOffset, Peg.size_append, Peg.size_cons, show Char.utf8Size '\n' = 1 from rfl]
  omega

/-- **The tree with another label**: where neither label is taken for an instruction, the text with
the one is matched as the text with the other. -/
theorem parse_relabel {head : List Char} {t : ParseTree Rule}
    (h : grammar.parse .module (s.text x head) = .ok t) :
    grammar.parse .module (s.text y head) = .ok (t.edit (s.relabel x y (s.labelOffset head))) := by
  have hstart := ahead_text (s := s) (x := x) head
  have hne := outcome_rule_ne_stuck .module {} (s.text y head) 0
  obtain ⟨next, us, ht⟩ := parse_eq_ok_iff.mp h
  have hyields : grammar.Yields {} (.rule .module) ⟨s.text x head, 0⟩ (.ok next (t :: us)) :=
    ⟨by simp, _, ht⟩
  obtain ⟨hyields', -⟩ := (loose_module hx hy).yields (.inl (.inl ⟨head, hstart⟩)) hyields
  rw [hstart.edit_slide] at hyields'
  exact parse_eq_ok_iff.mpr ⟨_, _, Yields.outcome_eq hyields' hne⟩

end

end SafeIR.Source.LabelSite
