import Mathlib.Data.List.TakeWhile
import SafeIR.Proofs.Peg.Barrier
import SafeIR.Proofs.Peg.Items
import SafeIR.Proofs.Source.Total
import SafeIR.Proofs.Text.Letter

/-!
# Lines that start with a label

Where an instruction ends, another one is tried before the label of the next block is. Keywords need
no blank behind them, so the characters of a label may be taken for an instruction: for a whole one
whose words are run together, as in `retvoid`, or for an opcode with something behind it, as in
`x-y`. `takenForInstruction` says which labels are, and `decides_instruction` that it is these
and no others, whatever stands behind the colon.

Up to the colon only characters of names are consumed, so an expression acts on a label as a partial
function on lists of characters (`Takes`), or, where it needs some other character, not at all.
-/

namespace SafeIR.Source

open Peg (Cursor Expr Mode ParseTree)
open Peg.Grammar
open Rule (isIdentChar isWordChar isHexDigit)

variable {ws : List String} {c next : Cursor} {r : Rule}

/-! ## What a word starts with -/

/-- What stands behind a word. -/
def strip (word : String) (cs : List Char) : Option (List Char) := word.toList.isPrefixOf? cs

/-- What stands behind the first of several words that is there. -/
def stripAny (words : List String) (cs : List Char) : Option (List Char) :=
  words.findSome? (strip · cs)

/-- What stands behind a character of a class. -/
def stripChar (p : Char → Bool) : List Char → Option (List Char)
  | [] => none
  | c :: cs => if p c then some cs else none

/-- What stands behind a run of characters of a class. -/
def stripRun (p : Char → Bool) (cs : List Char) : Option (List Char) :=
  (stripChar p cs).map (List.dropWhile p)

/-- What stands behind as many words as there are. -/
def stripAll (words : List String) : Nat → List Char → List Char
  | 0, cs => cs
  | n + 1, cs =>
    match stripAny words cs with
    | some rest => stripAll words n rest
    | none => cs

/-- The text behind a type. -/
def stripType (cs : List Char) : Option (List Char) :=
  (strip "void" cs).or <| ((strip "i" cs).bind (stripRun Char.isDigit)).or <|
    stripAny ["half", "float", "double", "x86_fp80", "fp128", "ptr", "label", "metadata"] cs

/-- What stands behind the digits of a number, with a sign or without. -/
def stripInteger (cs : List Char) : Option (List Char) :=
  stripRun Char.isDigit ((strip "-" cs).getD cs)

/-- What stands behind a decimal exponent, or all if there is none. -/
def stripExponent (cs : List Char) : List Char :=
  ((stripAny ["e", "E"] cs).bind fun rest =>
    stripRun Char.isDigit ((stripAny ["+", "-"] rest).getD rest)).getD cs

/-- The text behind a float. -/
def stripFloat (cs : List Char) : Option (List Char) :=
  ((strip "0x" cs).bind (stripRun isHexDigit)).or <|
    ((stripInteger cs).bind (strip ".")).map fun rest => stripExponent (rest.dropWhile Char.isDigit)

/-- The text behind a literal. -/
def stripValue (cs : List Char) : Option (List Char) :=
  (stripAny ["true", "false", "null", "undef", "poison", "zeroinitializer"] cs).or <|
    (stripFloat cs).or (stripInteger cs)

/-- What stands behind a type and a value. -/
def stripOperand (cs : List Char) : Option (List Char) := (stripType cs).bind stripValue

/-- What stands behind flags, a type and a value. -/
def stripFlagged (cs : List Char) : Option (List Char) :=
  stripOperand (stripAll Rule.flagWords cs.length cs)

/-- An instruction whose words are run together stands first. -/
def startsInstruction (cs : List Char) : Bool :=
  ((strip "ret" cs).bind fun rest => (strip "void" rest).or (stripOperand rest)).isSome ||
    (strip "unreachable" cs).any (! ·.isEmpty) ||
    ((strip "resume" cs).bind stripOperand).isSome ||
    ((strip "fneg" cs).bind stripFlagged).isSome ||
    ((((stripAny (CastOp.all.map CastOp.word) cs).bind stripFlagged).bind (strip "to")).bind
      stripType).isSome ||
    ((strip "alloca" cs).bind stripType).isSome ||
    ((strip "landingpad" cs).bind stripType).isSome

/-- The label is taken for an instruction, or for the start of one: an instruction whose words are
run together stands first in it, or an opcode and a character that no opcode has. -/
def takenForInstruction (label : List Char) : Bool :=
  startsInstruction label || label.head?.any Char.isLower && ! label.all isWordChar

theorem stripAny_nil (cs : List Char) : stripAny [] cs = none := rfl

theorem stripAny_cons (word : String) (words : List String) (cs : List Char) :
    stripAny (word :: words) cs = (strip word cs).or (stripAny words cs) := by
  rw [stripAny, List.findSome?_cons]
  cases strip word cs <;> rfl

theorem length_lt_of_stripAny (hne : "" ∉ ws) {cs rest : List Char}
    (h : stripAny ws cs = some rest) : rest.length < cs.length := by
  obtain ⟨word, hword, hstrip⟩ := List.exists_of_findSome?_eq_some h
  rw [strip, List.isPrefixOf?_eq_some_iff_append_eq] at hstrip
  have hpos : 0 < word.toList.length := by
    rw [List.length_pos_iff]
    intro hnil
    rw [String.toList_eq_nil_iff] at hnil
    exact hne (hnil ▸ hword)
  rw [← hstrip, List.length_append]
  omega

/-! ## Before a colon -/

/-- The cursor is before a colon, with only characters of names up to there. -/
def BeforeColon (z : List Char) (c : Cursor) : Prop :=
  ∃ w, (∀ x ∈ w, isIdentChar x = true) ∧ c.rest = w ++ ':' :: z

theorem skip_ident {w z : List Char} (hw : ∀ x ∈ w, isIdentChar x = true) (offset : Nat) :
    grammar.skip ⟨w ++ ':' :: z, offset⟩ = ⟨w ++ ':' :: z, offset⟩ := by
  cases w with
  | nil => rfl
  | cons x w =>
    have hx := hw x List.mem_cons_self
    have hblank : (x == ' ' || x == '\t' || x == '\r' || x == '\n') = false := by
      rw [Bool.eq_false_iff]
      intro h
      simp only [Bool.or_eq_true, beq_iff_eq] at h
      rcases h with ((rfl | rfl) | rfl) | rfl <;> revert hx <;> decide
    have hmark : (x == ';') = false := by
      rw [Bool.eq_false_iff]
      intro h
      obtain rfl := beq_iff_eq.mp h
      revert hx
      decide
    show skipFrom false (x :: (w ++ ':' :: z)) offset = _
    rw [skipFrom, hblank, hmark]
    rfl

theorem blanks_ident {w z : List Char} (hw : ∀ x ∈ w, isIdentChar x = true) (m : Mode)
    (offset : Nat) : grammar.blanks m ⟨w ++ ':' :: z, offset⟩ = ⟨w ++ ':' :: z, offset⟩ := by
  unfold blanks
  split
  · exact skip_ident hw offset
  · rfl

/-! ## Expressions that do not match before a colon -/

/-- What becomes of an expression before a colon. -/
inductive Fate where
  /-- It needs a character that is not there. -/
  | fails
  /-- It does not get past the colon. -/
  | stays
  | leaves
  deriving DecidableEq

/-- The fate of an expression, with rules looked into `n` levels down. -/
def fate : Nat → Expr Rule → Fate
  | 0, _ => .leaves
  | n + 1, e =>
    match e with
    | .lit text =>
      match text.toList with
      | [] => .stays
      | c :: cs =>
        if ! isIdentChar c && c != ':' then .fails
        else if (c :: cs).contains ':' then .leaves
        else .stays
    | .one p | .span p => if p ':' then .leaves else .stays
    | .done => .fails
    | .rule r => fate n r.body
    | .seq a b =>
      match fate n a with
      | .fails => .fails
      | .stays => fate n b
      | .leaves => .leaves
    | .alt a b =>
      match fate n a, fate n b with
      | .fails, x => x
      | .stays, .leaves => .leaves
      | .stays, _ => .stays
      | .leaves, _ => .leaves
    | .opt a | .star a | .more a =>
      match fate n a with
      | .leaves => .leaves
      | _ => .stays
    | .not _ => .stays

section

variable {z : List Char}

theorem BeforeColon.blanks (h : BeforeColon z c) (m : Mode) : grammar.blanks m c = c := by
  obtain ⟨rest, offset⟩ := c
  obtain ⟨w, hw, hrest⟩ := h
  obtain rfl : rest = w ++ ':' :: z := hrest
  exact blanks_ident hw m offset

theorem beforeColon_of_literal? {text : List Char} (hc : BeforeColon z c) (hcolon : ':' ∉ text)
    (h : Peg.literal? text c = some next) : BeforeColon z next := by
  obtain ⟨rest, offset⟩ := c
  obtain ⟨w, hw, hrest⟩ := hc
  obtain rfl : rest = w ++ ':' :: z := hrest
  rw [Peg.literal?_barrier hcolon] at h
  obtain ⟨w', hw', rfl⟩ := Option.map_eq_some_iff.mp h
  rw [List.isPrefixOf?_eq_some_iff_append_eq] at hw'
  exact ⟨w', fun x hx => hw x (hw' ▸ List.mem_append_right text hx), rfl⟩

/-- Before a colon, a literal starts with a character of a name or with the colon. -/
theorem literal?_eq_none {x : Char} {xs : List Char} (hc : BeforeColon z c)
    (hx : isIdentChar x = false) (hcolon : x ≠ ':') : Peg.literal? (x :: xs) c = none := by
  obtain ⟨rest, offset⟩ := c
  obtain ⟨w, hw, hrest⟩ := hc
  obtain rfl : rest = w ++ ':' :: z := hrest
  cases w with
  | nil =>
    show Peg.literal? (x :: xs) ⟨':' :: z, offset⟩ = none
    rw [Peg.literal?, if_neg hcolon]
  | cons y w =>
    have hne : x ≠ y := by
      rintro rfl
      rw [hw x List.mem_cons_self] at hx
      cases hx
    show Peg.literal? (x :: xs) ⟨y :: (w ++ ':' :: z), offset⟩ = none
    rw [Peg.literal?, if_neg hne]

/-! ### The fates of parts -/

section

variable {n : Nat} {a b e : Expr Rule} {p : Char → Bool}

theorem fate_class (he : e = .one p ∨ e = .span p) (h : fate n e ≠ .leaves) :
    fate n e = .stays ∧ p ':' = false := by
  cases n with
  | zero => exact absurd rfl h
  | succ n => rcases he with rfl | rfl <;> cases hp : p ':' <;> simp_all [fate]

theorem fate_rule (h : fate n (.rule r) ≠ .leaves) : ∃ k, fate k r.body = fate n (.rule r) := by
  cases n with
  | zero => exact absurd rfl h
  | succ n => exact ⟨n, rfl⟩

theorem fate_seq (h : fate n (.seq a b) ≠ .leaves) :
    ∃ k, fate k a = .fails ∨ fate k a = .stays ∧ fate k b = fate n (.seq a b) := by
  cases n with
  | zero => exact absurd rfl h
  | succ n =>
    refine ⟨n, ?_⟩
    cases ha : fate n a with
    | fails => exact .inl rfl
    | stays => exact .inr ⟨rfl, by simp only [fate, ha]⟩
    | leaves => exact absurd (by simp only [fate, ha]) h

theorem fate_alt (h : fate n (.alt a b) ≠ .leaves) :
    ∃ k, fate k a ≠ .leaves ∧ fate k b ≠ .leaves ∧
      (fate k a = .stays ∨ fate k b = .stays → fate n (.alt a b) = .stays) := by
  cases n with
  | zero => exact absurd rfl h
  | succ n =>
    refine ⟨n, ?_⟩
    cases ha : fate n a <;> cases hb : fate n b <;> simp_all [fate]

/-- An option or a repetition that does not leave stays, and so does what it repeats. -/
theorem fate_part (he : e = .opt a ∨ e = .star a ∨ e = .more a) (h : fate n e ≠ .leaves) :
    fate n e = .stays ∧ ∃ k, fate k a ≠ .leaves := by
  cases n with
  | zero => exact absurd rfl h
  | succ n =>
    have hfate : fate (n + 1) e = match fate n a with
        | .leaves => .leaves
        | _ => .stays := by
      rcases he with rfl | rfl | rfl <;> rfl
    rw [hfate] at h ⊢
    cases ha : fate n a with
    | leaves => exact absurd (by rw [ha]) h
    | fails | stays => exact ⟨rfl, n, by simp [ha]⟩

theorem fate_star : fate n (.star a) = fate n (.more a) := by
  cases n <;> rfl

end

theorem stays_of_literal? {n : Nat} {text : String} (hc : BeforeColon z c)
    (hn : fate n (.lit text) ≠ .leaves) (h : Peg.literal? text.toList c = some next) :
    fate n (.lit text) = .stays ∧ BeforeColon z next := by
  cases n with
  | zero => exact absurd rfl hn
  | succ n =>
    simp only [fate] at hn ⊢
    cases htext : text.toList with
    | nil =>
      rw [htext] at h
      cases h
      exact ⟨rfl, hc⟩
    | cons x xs =>
      rw [htext] at h hn
      simp only at hn ⊢
      by_cases hhead : (! isIdentChar x && x != ':') = true
      · simp only [Bool.and_eq_true, Bool.not_eq_true', bne_iff_ne] at hhead
        rw [literal?_eq_none hc hhead.1 hhead.2] at h
        cases h
      · rw [if_neg hhead] at hn ⊢
        by_cases hcolon : (x :: xs).contains ':' = true
        · rw [if_pos hcolon] at hn
          exact absurd rfl hn
        · rw [if_neg hcolon]
          rw [List.contains_iff_mem] at hcolon
          exact ⟨rfl, beforeColon_of_literal? hc hcolon h⟩

/-- An expression that does not leave matches only up to the colon, if it matches at all. -/
theorem stays_of_derives {n : Nat} {m : Mode} {e : Expr Rule} {ts : List (ParseTree Rule)}
    (h : grammar.Derives m e c next ts) (hc : BeforeColon z c) (hn : fate n e ≠ .leaves) :
    fate n e = .stays ∧ BeforeColon z next := by
  -- The fuel of the analysis shrinks on the way down, so the induction leaves it open.
  induction h generalizing n with
  | lit hlit => exact stays_of_literal? hc hn hlit
  | @one _ p x rest offset hx =>
    obtain ⟨hstays, hp⟩ := fate_class (.inl rfl) hn
    obtain ⟨w, hw, hrest⟩ := hc
    cases w with
    | nil =>
      cases hrest
      rw [hp] at hx
      cases hx
    | cons y w =>
      cases hrest
      exact ⟨hstays, w, fun y hy => hw y (List.mem_cons_of_mem x hy), rfl⟩
  | @span _ p c =>
    obtain ⟨hstays, hp⟩ := fate_class (.inr rfl) hn
    obtain ⟨w, hw, hrest⟩ := hc
    rw [hrest, Peg.spanFrom_barrier hp]
    exact ⟨hstays, _, fun y hy => hw y (List.dropWhile_subset p hy), rfl⟩
  | done =>
    obtain ⟨w, -, hrest⟩ := hc
    cases w <;> cases hrest
  | rule _ ih =>
    obtain ⟨k, hk⟩ := fate_rule hn
    rw [← hk] at hn ⊢
    exact ih hc hn
  | seq _ _ iha ihb =>
    obtain ⟨k, hfails | ⟨hstays, hk⟩⟩ := fate_seq hn
    · have hstays := (iha hc (by rw [hfails]; simp)).1
      rw [hfails] at hstays
      cases hstays
    · have hmid := (iha hc (by rw [hstays]; simp)).2
      rw [hmid.blanks] at ihb
      rw [← hk] at hn ⊢
      exact ihb hmid hn
  | altLeft _ ih =>
    obtain ⟨k, hka, -, hwhole⟩ := fate_alt hn
    obtain ⟨hstays, hnext⟩ := ih hc hka
    exact ⟨hwhole (.inl hstays), hnext⟩
  | altRight _ ih =>
    obtain ⟨k, -, hkb, hwhole⟩ := fate_alt hn
    obtain ⟨hstays, hnext⟩ := ih hc hkb
    exact ⟨hwhole (.inr hstays), hnext⟩
  | opt _ ih =>
    obtain ⟨hstays, k, hk⟩ := fate_part (.inl rfl) hn
    exact ⟨hstays, (ih hc hk).2⟩
  | star _ _ iha ihmore =>
    obtain ⟨hstays, k, hk⟩ := fate_part (.inr (.inl rfl)) hn
    rw [fate_star] at hn
    exact ⟨hstays, (ihmore (iha hc hk).2 hn).2⟩
  | more _ _ iha ihmore =>
    obtain ⟨hstays, k, hk⟩ := fate_part (.inr (.inr rfl)) hn
    rw [hc.blanks] at iha
    exact ⟨hstays, (ihmore (iha hc hk).2 hn).2⟩
  | optNone => exact ⟨(fate_part (.inl rfl) hn).1, hc⟩
  | starNone => exact ⟨(fate_part (.inr (.inl rfl)) hn).1, hc⟩
  | moreNone => exact ⟨(fate_part (.inr (.inr rfl)) hn).1, hc⟩
  | not =>
    cases n with
    | zero => exact absurd rfl hn
    | succ n => exact ⟨rfl, hc⟩

end

/-! ## What expressions take of a label -/

/-- Before a colon the expression fails, or takes the characters up to these. -/
def TakesTo (m : Mode) (e : Expr Rule) (w z : List Char) (offset : Nat) :
    Option (List Char) → Prop
  | none => grammar.Yields m e ⟨w ++ ':' :: z, offset⟩ .fail
  | some w' => (∀ x ∈ w', isIdentChar x = true) ∧
      ∃ offset' ts, grammar.Yields m e ⟨w ++ ':' :: z, offset⟩ (.ok ⟨w' ++ ':' :: z, offset'⟩ ts)

/-- Before a colon the expression takes what `f` strips, and fails where `f` does. -/
def Takes (e : Expr Rule) (f : List Char → Option (List Char)) : Prop :=
  ∀ (m : Mode) (w z : List Char) (offset : Nat), (∀ x ∈ w, isIdentChar x = true) →
    TakesTo m e w z offset (f w)

/-- The expression does not match before a colon. -/
abbrev Refused (e : Expr Rule) : Prop := Takes e fun _ => none

namespace Takes

variable {a b : Expr Rule} {f f' : List Char → Option (List Char)}

theorem congr (h : Takes a f) (hf : ∀ w, f w = f' w) : Takes a f' := by
  obtain rfl : f = f' := funext hf
  exact h

theorem lit (text : String) (hcolon : ':' ∉ text.toList) : Takes (.lit text) (strip text) := by
  intro m w z offset hw
  have hlit : Peg.literal? text.toList ⟨w ++ ':' :: z, offset⟩ = _ :=
    Peg.literal?_barrier hcolon offset
  rw [strip]
  cases hpre : text.toList.isPrefixOf? w with
  | none =>
    rw [hpre] at hlit
    exact .lit_fail hlit
  | some w' =>
    rw [hpre] at hlit
    rw [List.isPrefixOf?_eq_some_iff_append_eq] at hpre
    exact ⟨fun x hx => hw x (hpre ▸ List.mem_append_right _ hx), _, _, .lit hlit⟩

/-- A literal that starts with a character of no name is refused. -/
theorem lit_refused {text : String}
    (h : (text.toList.head?.any fun x => ! isIdentChar x && x != ':') = true) :
    Refused (.lit text) := by
  intro m w z offset hw
  refine .lit_fail ?_
  cases htext : text.toList with
  | nil =>
    rw [htext] at h
    cases h
  | cons x xs =>
    simp only [htext, List.head?_cons, Option.any_some, Bool.and_eq_true, Bool.not_eq_true',
      bne_iff_ne] at h
    exact literal?_eq_none ⟨w, hw, rfl⟩ h.1 h.2

theorem rule (h : Takes (grammar.body r) f) : Takes (.rule r) f := by
  intro m w z offset hw
  have hbody := h (m.enter (grammar.kind r)) w z offset hw
  cases hf : f w with
  | none =>
    rw [hf] at hbody
    exact .rule_fail hbody
  | some w' =>
    rw [hf] at hbody
    obtain ⟨hw', offset', ts, hyields⟩ := hbody
    exact ⟨hw', offset', _, .rule hyields⟩

theorem seq (ha : Takes a f) (hb : Takes b f') :
    Takes (.seq a b) fun w => (f w).bind f' := by
  intro m w z offset hw
  have hfirst := ha m w z offset hw
  show TakesTo m (.seq a b) w z offset ((f w).bind f')
  cases hf : f w with
  | none =>
    rw [hf] at hfirst
    exact .seq_fail hfirst
  | some mid =>
    rw [hf] at hfirst
    obtain ⟨hmid, offset', ts, hyields⟩ := hfirst
    have hsecond := hb m mid z offset' hmid
    have hblanks := blanks_ident (z := z) hmid m offset'
    rw [Option.bind_some]
    cases hf' : f' mid with
    | none =>
      rw [hf'] at hsecond
      exact .seq hyields (by rw [hblanks]; exact hsecond)
    | some w' =>
      rw [hf'] at hsecond
      obtain ⟨hw', offset'', us, hyields'⟩ := hsecond
      exact ⟨hw', offset'', ts ++ us, .seq hyields (by rw [hblanks]; exact hyields')⟩

theorem seq_refused (ha : Refused a) : Refused (.seq a b) :=
  fun m w z offset hw => .seq_fail (ha m w z offset hw)

theorem seq_then_refused (ha : Takes a f) (hb : Refused b) : Refused (.seq a b) :=
  (ha.seq hb).congr fun w => by cases f w <;> rfl

theorem alt (ha : Takes a f) (hb : Takes b f') : Takes (.alt a b) fun w => (f w).or (f' w) := by
  intro m w z offset hw
  have hfirst := ha m w z offset hw
  have hsecond := hb m w z offset hw
  show TakesTo m (.alt a b) w z offset ((f w).or (f' w))
  cases hf : f w with
  | none =>
    rw [hf] at hfirst
    rw [Option.none_or]
    cases hf' : f' w with
    | none =>
      rw [hf'] at hsecond
      exact .alt_right hfirst hsecond
    | some w' =>
      rw [hf'] at hsecond
      obtain ⟨hw', offset', ts, hyields⟩ := hsecond
      exact ⟨hw', offset', ts, .alt_right hfirst hyields⟩
  | some w' =>
    rw [hf] at hfirst
    obtain ⟨hw', offset', ts, hyields⟩ := hfirst
    exact ⟨hw', offset', ts, .alt_left hyields⟩

theorem opt (ha : Takes a f) : Takes (.opt a) fun w => some ((f w).getD w) := by
  intro m w z offset hw
  have hfirst := ha m w z offset hw
  show TakesTo m (.opt a) w z offset (some ((f w).getD w))
  cases hf : f w with
  | none =>
    rw [hf] at hfirst
    exact ⟨hw, offset, [], .opt_fail hfirst⟩
  | some w' =>
    rw [hf] at hfirst
    obtain ⟨hw', offset', ts, hyields⟩ := hfirst
    exact ⟨hw', offset', ts, .opt hyields⟩

theorem opt_refused (ha : Refused a) : Takes (.opt a) some :=
  fun m w z offset hw => ⟨hw, offset, [], .opt_fail (ha m w z offset hw)⟩

theorem star_refused (ha : Refused a) : Takes (.star a) some :=
  fun m w z offset hw => ⟨hw, offset, [], .star_fail (ha m w z offset hw)⟩

theorem one {p : Char → Bool} (hcolon : p ':' = false) :
    Takes (.one p) (stripChar p) := by
  intro m w z offset hw
  cases w with
  | nil =>
    refine .leaf ?_ (by simp)
    simp [outcome, hcolon]
  | cons x w =>
    have hrest : ∀ y ∈ w, isIdentChar y = true := fun y hy => hw y (List.mem_cons_of_mem x hy)
    show TakesTo m (.one p) (x :: w) z offset (if p x then some w else none)
    by_cases hp : p x = true
    · rw [if_pos hp]
      refine ⟨hrest, offset + x.utf8Size, [], .leaf ?_ (by simp)⟩
      simp [outcome, hp]
    · rw [if_neg hp]
      refine .leaf ?_ (by simp)
      simp [outcome, hp]

theorem span {p : Char → Bool} (hcolon : p ':' = false) :
    Takes (.span p) fun w => some (w.dropWhile p) := by
  intro m w z offset hw
  refine ⟨fun x hx => hw x (List.dropWhile_subset p hx), offset + Peg.size (w.takeWhile p), [],
    .leaf ?_ (by simp)⟩
  rw [outcome, Peg.spanFrom_barrier hcolon]

theorem span1 {p : Char → Bool} (hcolon : p ':' = false) : Takes (.span1 p) (stripRun p) := by
  refine (seq (one hcolon) (span hcolon)).congr fun w => ?_
  rw [stripRun, Option.map_eq_bind]
  rfl

/-- A word is not followed by a colon where a further character of a name follows it. -/
theorem not_colon : Takes (.not (.lit ":")) fun w => if w.isEmpty then none else some w := by
  intro m w z offset hw
  cases w with
  | nil => exact .not_fail (.lit rfl)
  | cons x w =>
    have hx : (':' : Char) ≠ x := by
      rintro rfl
      have hident := hw ':' List.mem_cons_self
      revert hident
      decide
    refine ⟨hw, offset, [], .not (.lit_fail ?_)⟩
    show Peg.literal? [':'] ⟨x :: (w ++ ':' :: z), offset⟩ = none
    rw [Peg.literal?, if_neg hx]

/-- The first of several words. -/
theorem words (hne : ws ≠ []) (hcolon : ∀ word ∈ ws, ':' ∉ word.toList) :
    Takes (.words ws) (stripAny ws) := by
  induction ws with
  | nil => exact absurd rfl hne
  | cons word ws ih =>
    have hword := lit word (hcolon word List.mem_cons_self)
    cases ws with
    | nil =>
      refine hword.congr fun w => ?_
      rw [stripAny_cons, stripAny_nil, Option.or_none]
    | cons word' ws =>
      have hrest := ih (by simp) fun u hu => hcolon u (List.mem_cons_of_mem word hu)
      exact (hword.alt hrest).congr fun w => (stripAny_cons word (word' :: ws) w).symm

theorem more_words (ha : Takes a (stripAny ws)) (hne : "" ∉ ws) (m : Mode) {n : Nat}
    {w z : List Char} {offset : Nat} (hw : ∀ x ∈ w, isIdentChar x = true) (hn : w.length ≤ n) :
    TakesTo m (.more a) w z offset (some (stripAll ws n w)) := by
  induction n generalizing w offset with
  | zero =>
    have hblanks := blanks_ident (z := z) hw m offset
    have hfirst := ha m w z offset hw
    cases hstrip : stripAny ws w with
    | none =>
      rw [hstrip] at hfirst
      exact ⟨hw, offset, [], .more_fail (by rw [hblanks]; exact hfirst)⟩
    | some mid =>
      have hlt := length_lt_of_stripAny hne hstrip
      omega
  | succ n ih =>
    have hblanks := blanks_ident (z := z) hw m offset
    have hfirst := ha m w z offset hw
    rw [stripAll]
    cases hstrip : stripAny ws w with
    | none =>
      rw [hstrip] at hfirst
      exact ⟨hw, offset, [], .more_fail (by rw [hblanks]; exact hfirst)⟩
    | some mid =>
      rw [hstrip] at hfirst
      obtain ⟨hmid, offset', ts, hyields⟩ := hfirst
      have hlt := length_lt_of_stripAny hne hstrip
      obtain ⟨hw', offset'', us, hyields'⟩ : TakesTo m (.more a) mid z offset' _ :=
        ih hmid (by omega)
      exact ⟨hw', offset'', ts ++ us, .more (by rw [hblanks]; exact hyields) hyields'⟩

/-- A repeated word is stripped as often as it is there. -/
theorem star_words (ha : Takes a (stripAny ws)) (hne : "" ∉ ws) :
    Takes (.star a) fun w => some (stripAll ws w.length w) := by
  intro m w z offset hw
  have hblanks := blanks_ident (z := z) hw m offset
  obtain ⟨hw', offset', ts, hmore⟩ : TakesTo m (.more a) w z offset _ :=
    ha.more_words hne m hw (Nat.le_refl _)
  refine ⟨hw', offset', ts, hmore.1, ?_⟩
  obtain ⟨d, hd⟩ := hmore.2
  exact ⟨d, (outcome_star d hblanks).trans hd⟩

end Takes

/-! ## Types, values and instructions -/

theorem refused_rule (h : fate levels (.rule r) = .fails) : Refused (.rule r) := by
  intro m w z offset hw
  obtain ⟨o, ho⟩ := exists_yields_rule r m ⟨w ++ ':' :: z, offset⟩
  obtain ⟨hne, d, hd⟩ := ho
  have hfail : o = .fail := by
    cases o with
    | stuck => exact absurd rfl hne
    | fail => rfl
    | ok next ts =>
      have hstays := (stays_of_derives (derives_of_outcome d hd) ⟨w, hw, rfl⟩ (by rw [h]; simp)).1
      rw [h] at hstays
      cases hstays
  exact ⟨by simp, d, hfail ▸ hd⟩

theorem takes_ptrType : Takes (.rule .ptrType) (strip "ptr") := by
  have haddress : Refused (.all [.lit "addrspace", .lit "(", .rule .intLit, .lit ")"]) :=
    (Takes.lit _ (by decide)).seq_then_refused (.seq_refused (.lit_refused (by decide)))
  refine .rule (((Takes.lit _ (by decide)).seq (.opt_refused haddress)).congr fun w => ?_)
  exact Option.bind_fun_some _

/-- A rule that is one word. -/
theorem takes_word (r : Rule) (word : String) (hbody : r.body = .lit word)
    (hcolon : ':' ∉ word.toList) : Takes (.rule r) (strip word) := by
  refine .rule ?_
  show Takes r.body (strip word)
  rw [hbody]
  exact .lit word hcolon

theorem takes_type : Takes (.rule .type) stripType := by
  have hint : Takes (.rule .intType) fun w => (strip "i" w).bind (stripRun Char.isDigit) :=
    .rule (.seq (.lit _ (by decide)) (.span1 (by decide)))
  have hbase := (takes_word .voidType "void" rfl (by decide)).alt <| hint.alt <|
    (takes_word .halfType "half" rfl (by decide)).alt <|
    (takes_word .floatType "float" rfl (by decide)).alt <|
    (takes_word .doubleType "double" rfl (by decide)).alt <|
    (takes_word .fp80Type "x86_fp80" rfl (by decide)).alt <|
    (takes_word .fp128Type "fp128" rfl (by decide)).alt <| takes_ptrType.alt <|
    (takes_word .labelType "label" rfl (by decide)).alt <|
    (takes_word .metadataType "metadata" rfl (by decide)).alt <|
    (refused_rule (r := .arrayType) (by decide)).alt <|
    (refused_rule (r := .packedStructType) (by decide)).alt <|
    (refused_rule (r := .vectorType) (by decide)).alt <|
    (refused_rule (r := .structType) (by decide)).alt (refused_rule (r := .namedType) (by decide))
  have hstar : Takes (.star (.rule .pointerStar)) some :=
    .star_refused (refused_rule (by decide))
  refine .rule ((hbase.seq hstar).congr fun w => ?_)
  rw [Option.bind_fun_some]
  simp only [stripType, stripAny_cons, stripAny_nil, Option.or_none]

theorem takes_intLit : Takes (.rule .intLit) stripInteger :=
  .rule (((Takes.lit "-" (by decide)).opt.seq (.span1 (p := Char.isDigit) (by decide))).congr
    fun _ => rfl)

theorem takes_floatLit : Takes (.rule .floatLit) stripFloat := by
  have hhex : Takes (.all [.lit "0x", .span1 isHexDigit])
      fun w => (strip "0x" w).bind (stripRun isHexDigit) :=
    .seq (.lit _ (by decide)) (.span1 (by decide))
  have hexponent : Takes (.opt (.all [.words ["e", "E"], .opt (.words ["+", "-"]),
      .span1 Char.isDigit])) fun w => some (stripExponent w) :=
    ((Takes.words (by simp) (by decide)).seq
      ((Takes.words (by simp) (by decide)).opt.seq (.span1 (by decide)))).opt.congr fun w => rfl
  have hdecimal := (Takes.lit "-" (by decide)).opt.seq <|
    (Takes.span1 (p := Char.isDigit) (by decide)).seq <|
    (Takes.lit "." (by decide)).seq <| (Takes.span (p := Char.isDigit) (by decide)).seq hexponent
  refine .rule ((hhex.alt hdecimal).congr fun w => ?_)
  rw [stripFloat, stripInteger, Option.bind_some, Option.map_eq_bind, Option.bind_assoc]
  rfl

theorem takes_value : Takes (.rule .value) stripValue := by
  have hbool : Takes (.rule .boolLit) (stripAny ["true", "false"]) :=
    .rule (.words (by simp) (by decide))
  have hconstant := hbool.alt <| (takes_word .nullLit "null" rfl (by decide)).alt <|
    (takes_word .undefLit "undef" rfl (by decide)).alt <|
    (takes_word .poisonLit "poison" rfl (by decide)).alt <|
    (takes_word .zeroLit "zeroinitializer" rfl (by decide)).alt <| takes_floatLit.alt <|
    takes_intLit.alt <| (refused_rule (r := .byteString) (by decide)).alt <|
    (refused_rule (r := .arrayConst) (by decide)).alt (refused_rule (r := .structConst) (by decide))
  have hvalue := (refused_rule (r := .localIdent) (by decide)).alt <|
    (refused_rule (r := .globalIdent) (by decide)).alt hconstant
  refine .rule (hvalue.congr fun w => ?_)
  simp only [stripValue, stripAny_cons, stripAny_nil, Option.or_none, Option.none_or,
    Option.or_assoc]

theorem takes_typedValue : Takes (.rule .typedValue) stripOperand :=
  .rule (takes_type.seq takes_value)

theorem takes_flags : Takes (.star (.rule .instFlag))
    fun w => some (stripAll Rule.flagWords w.length w) :=
  .star_words (.rule (.words (by decide) (by decide))) (by decide)

/-- Before a colon the expression matches, or fails. -/
def Matches (m : Mode) (e : Expr Rule) (w z : List Char) (offset : Nat) : Bool → Prop
  | true => ∃ next ts, grammar.Yields m e ⟨w ++ ':' :: z, offset⟩ (.ok next ts)
  | false => grammar.Yields m e ⟨w ++ ':' :: z, offset⟩ .fail

/-- Before a colon the expression matches exactly if the label passes the test. -/
def Decides (e : Expr Rule) (p : List Char → Bool) : Prop :=
  ∀ (m : Mode) (w z : List Char) (offset : Nat), (∀ x ∈ w, isIdentChar x = true) →
    Matches m e w z offset (p w)

namespace Decides

variable {a b : Expr Rule} {p q : List Char → Bool}

theorem congr (h : Decides a p) (hp : ∀ w, p w = q w) : Decides a q := by
  obtain rfl : p = q := funext hp
  exact h

theorem of_takes {f : List Char → Option (List Char)} (h : Takes a f) :
    Decides a fun w => (f w).isSome := by
  intro m w z offset hw
  have htakes := h m w z offset hw
  show Matches m a w z offset (f w).isSome
  cases hf : f w with
  | none =>
    rw [hf] at htakes
    exact htakes
  | some w' =>
    rw [hf] at htakes
    obtain ⟨-, offset', ts, hyields⟩ := htakes
    exact ⟨_, ts, hyields⟩

theorem rule (h : Decides (grammar.body r) p) : Decides (.rule r) p := by
  intro m w z offset hw
  have hbody := h (m.enter (grammar.kind r)) w z offset hw
  cases hp : p w with
  | false =>
    rw [hp] at hbody
    exact .rule_fail hbody
  | true =>
    rw [hp] at hbody
    obtain ⟨next, ts, hyields⟩ := hbody
    exact ⟨next, _, .rule hyields⟩

theorem seq {f : List Char → Option (List Char)} (ha : Takes a f) (hb : Decides b p) :
    Decides (.seq a b) fun w => (f w).any p := by
  intro m w z offset hw
  have hfirst := ha m w z offset hw
  show Matches m (.seq a b) w z offset ((f w).any p)
  cases hf : f w with
  | none =>
    rw [hf] at hfirst
    exact .seq_fail hfirst
  | some mid =>
    rw [hf] at hfirst
    obtain ⟨hmid, offset', ts, hyields⟩ := hfirst
    have hsecond := hb m mid z offset' hmid
    have hblanks := blanks_ident (z := z) hmid m offset'
    rw [Option.any_some]
    cases hp : p mid with
    | false =>
      rw [hp] at hsecond
      exact .seq hyields (by rw [hblanks]; exact hsecond)
    | true =>
      rw [hp] at hsecond
      obtain ⟨next, us, hyields'⟩ := hsecond
      exact ⟨next, ts ++ us, .seq hyields (by rw [hblanks]; exact hyields')⟩

theorem alt (ha : Decides a p) (hb : Decides b q) : Decides (.alt a b) fun w => p w || q w := by
  intro m w z offset hw
  have hfirst := ha m w z offset hw
  have hsecond := hb m w z offset hw
  show Matches m (.alt a b) w z offset (p w || q w)
  cases hp : p w with
  | true =>
    rw [hp] at hfirst
    obtain ⟨next, ts, hyields⟩ := hfirst
    exact ⟨next, ts, .alt_left hyields⟩
  | false =>
    rw [hp] at hfirst
    rw [Bool.false_or]
    cases hq : q w with
    | false =>
      rw [hq] at hsecond
      exact .alt_right hfirst hsecond
    | true =>
      rw [hq] at hsecond
      obtain ⟨next, ts, hyields⟩ := hsecond
      exact ⟨next, ts, .alt_right hfirst hyields⟩

theorem refused_alt (ha : Refused a) (hb : Decides b q) : Decides (.alt a b) q :=
  ((of_takes ha).alt hb).congr fun _ => rfl

/-- What is always there decides nothing. -/
theorem always (h : ∀ m c, ∃ next ts, grammar.Yields m a c (.ok next ts)) :
    Decides a fun _ => true :=
  fun m w z offset _ => h m ⟨w ++ ':' :: z, offset⟩

end Decides

theorem decides_retInst : Decides (.rule .retInst) fun w =>
    ((strip "ret" w).bind fun rest => (strip "void" rest).or (stripOperand rest)).isSome :=
  .of_takes (.rule ((Takes.lit _ (by decide)).seq
    ((takes_word .voidWord "void" rfl (by decide)).alt takes_typedValue)))

theorem decides_unreachableInst : Decides (.rule .unreachableInst) fun w =>
    (strip "unreachable" w).any (! ·.isEmpty) := by
  refine .rule ((Decides.seq (.lit _ (by decide)) (.of_takes .not_colon)).congr fun w => ?_)
  cases strip "unreachable" w with
  | none => rfl
  | some rest => cases rest <;> rfl

theorem takes_flagged : Takes (.seq (.star (.rule .instFlag)) (.rule .typedValue)) stripFlagged :=
  (takes_flags.seq takes_typedValue).congr fun _ => rfl

theorem decides_castInst : Decides (.rule .castInst) fun w =>
    ((((stripAny (CastOp.all.map CastOp.word) w).bind stripFlagged).bind (strip "to")).bind
      stripType).isSome := by
  have hword : Takes (.rule .castWord) (stripAny (CastOp.all.map CastOp.word)) :=
    .rule (.words (by decide) (by decide))
  refine .of_takes (.rule ((hword.seq (takes_flags.seq (takes_typedValue.seq
    ((Takes.lit "to" (by decide)).seq takes_type)))).congr fun w => ?_))
  rw [Option.bind_assoc, Option.bind_assoc]
  rfl

theorem decides_allocaInst : Decides (.rule .allocaInst) fun w =>
    ((strip "alloca" w).bind stripType).isSome := by
  have hcount : Refused (.all [.lit ",", .not (.lit "align"), .rule .typedValue]) :=
    .seq_refused (.lit_refused (by decide))
  have halign : Takes Rule.alignment some := .opt_refused (.seq_refused (.lit_refused (by decide)))
  refine .of_takes (.rule (((Takes.lit _ (by decide)).seq (takes_type.seq
    ((Takes.opt_refused hcount).seq halign))).congr fun w => ?_))
  refine congrArg _ (funext fun rest => ?_)
  exact Option.bind_fun_some _

theorem decides_landingpadInst : Decides (.rule .landingpadInst) fun w =>
    ((strip "landingpad" w).bind stripType).isSome := by
  have hclauses : Decides (.star (.alt (.rule .cleanupWord) (.rule .catchClause))) fun _ => true :=
    .always (exists_yields_star rfl rfl)
  refine .rule ((Decides.seq (.lit _ (by decide)) (.seq takes_type hclauses)).congr fun w => ?_)
  cases strip "landingpad" w with
  | none => rfl
  | some rest =>
    show (stripType rest).any (fun _ => true) = (stripType rest).isSome
    cases stripType rest <;> rfl

/-- An opcode with something behind it that is no part of it. -/
theorem decides_otherInst : Decides (.rule .otherInst) fun w =>
    w.head?.any Char.isLower && ! w.all isWordChar := by
  have hopcode : Takes (.rule .opcodeWord) fun w =>
      (stripChar Char.isLower w).bind fun rest => some (rest.dropWhile isWordChar) :=
    .rule ((Takes.one (by decide)).seq (.span (by decide)))
  have hrest : Decides (.rule .restOfLine) fun _ => true :=
    .always fun m c => ⟨_, _, .rule (.span _)⟩
  refine .rule ((Decides.seq hopcode (.seq .not_colon hrest)).congr fun w => ?_)
  cases w with
  | nil => rfl
  | cons x w =>
    by_cases hlower : x.isLower = true
    · have hword : isWordChar x = true := by
        simp [isWordChar, Text.isAlphanum_iff.mpr (.inr (.inl hlower))]
      have hall : w.all isWordChar = (w.dropWhile isWordChar).isEmpty := by
        rw [Bool.eq_iff_iff, List.isEmpty_iff, List.dropWhile_eq_nil_iff, List.all_eq_true]
      simp only [stripChar, hlower, if_true, Option.bind_some, Option.any_some, List.head?_cons,
        Bool.true_and, List.all_cons, hword, hall]
      cases w.dropWhile isWordChar <;> rfl
    · simp [stripChar, hlower]

theorem decides_instructionBody : Decides Rule.instructionBody takenForInstruction := by
  have hresume : Decides (.rule .resumeInst)
      fun w => ((strip "resume" w).bind stripOperand).isSome :=
    .of_takes (.rule ((Takes.lit _ (by decide)).seq takes_typedValue))
  have hfneg : Decides (.rule .fnegInst) fun w => ((strip "fneg" w).bind stripFlagged).isSome :=
    .of_takes (.rule ((Takes.lit _ (by decide)).seq takes_flagged))
  have refused (r : Rule) (h : fate levels (.rule r) = .fails) {b : Expr Rule}
      {q : List Char → Bool} (hb : Decides b q) : Decides (.alt (.rule r) b) q :=
    .refused_alt (refused_rule h) hb
  have hbody := decides_retInst.alt <| refused .brInst (by decide) <|
    refused .condBrInst (by decide) <| refused .switchInst (by decide) <|
    decides_unreachableInst.alt <| hresume.alt <| refused .invokeInst (by decide) <|
    hfneg.alt <| refused .binaryInst (by decide) <| refused .icmpInst (by decide) <|
    refused .fcmpInst (by decide) <| refused .selectInst (by decide) <|
    decides_castInst.alt <| decides_allocaInst.alt <| refused .loadInst (by decide) <|
    refused .storeInst (by decide) <| refused .gepInst (by decide) <|
    refused .phiInst (by decide) <| refused .callInst (by decide) <|
    decides_landingpadInst.alt decides_otherInst
  refine hbody.congr fun w => ?_
  simp only [takenForInstruction, startsInstruction, Bool.or_assoc]

/-- **A label is taken for an instruction** exactly if it spells the start of one, whatever stands
behind the colon. -/
theorem decides_instruction : Decides (.rule .instruction) takenForInstruction := by
  have hresult : Takes (.opt (.all [.rule .localIdent, .lit "="])) some :=
    .opt_refused (.seq_refused (refused_rule (by decide)))
  have htrailers : ∀ m c, ∃ next ts,
      grammar.Yields m (.star (.rule .instTrailer)) c (.ok next ts) :=
    exists_yields_star rfl rfl
  have hbody : Decides (.seq Rule.instructionBody (.star (.rule .instTrailer)))
      takenForInstruction := by
    intro m w z offset hw
    have hfirst := decides_instructionBody m w z offset hw
    cases htaken : takenForInstruction w with
    | false =>
      rw [htaken] at hfirst
      exact .seq_fail hfirst
    | true =>
      rw [htaken] at hfirst
      obtain ⟨next, ts, hyields⟩ := hfirst
      obtain ⟨last, us, hrest⟩ := htrailers m (grammar.blanks m next)
      exact ⟨last, ts ++ us, .seq hyields hrest⟩
  exact .rule ((Decides.seq hresult hbody).congr fun w => rfl)

end SafeIR.Source
