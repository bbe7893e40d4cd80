import Mathlib.Data.Bool.AllAny
import SafeIR.Proofs.Peg.Barrier
import SafeIR.Proofs.Peg.Start
import SafeIR.Proofs.Source.Moved
import SafeIR.Proofs.Source.Total
import SafeIR.Proofs.Text.Numeral

/-!
# Types read back

`Ty.text` spells a type without parentheses, and keywords and names need no blank behind them. So
what follows a type decides whether it is matched where it was meant to end: a digit would go into a
number, a letter into a name, a star would make a pointer of it. Behind a type that stands in
another there is a closing bracket, a comma, or a blank and then one of these (`Closes`), and behind
the last one there is nothing.

`reads_type` says that in front of any of these the text of a type is matched as a type, and that
the tree is read as the type it is the text of. The induction is on the type; the types that have
parts ask of each part that it can be read where it stands.
-/

namespace SafeIR.Source

open Peg (Cursor Expr Mode ParseTree size)
open Peg.Grammar
open Rule (isIdentChar)

namespace Ty

mutual

/-- The type can be spelled: numbers fit, names are bare, and no part of it is a function type. -/
def isSpelled : Ty → Bool
  | .void | .half | .float | .double | .x86Fp80 | .fp128 | .ptr | .label | .metadata => true
  | .int bits => bits < twoPow 32
  | .array len elem | .vector len elem => len < twoPow 64 && elem.isSpelled
  | .struct _ fields => allSpelled fields
  | .named name => ! name.toList.isEmpty && name.toList.all isIdentChar
  | .function .. => false

def allSpelled : List Ty → Bool
  | [] => true
  | t :: ts => t.isSpelled && allSpelled ts

end

/-- The characters of a type. -/
def chars (t : Ty) : List Char := t.text.toList

theorem chars_int (bits : Nat) : (Ty.int bits).chars = 'i' :: (toString bits).toList := by
  simp [chars, text]

theorem chars_named (name : String) : (Ty.named name).chars = '%' :: name.toList := by
  simp [chars, text]

theorem chars_array (len : Nat) (elem : Ty) : (Ty.array len elem).chars
    = '[' :: (toString len).toList ++ ' ' :: 'x' :: ' ' :: (elem.chars ++ [']']) := by
  simp [chars, text]

theorem chars_vector (len : Nat) (elem : Ty) : (Ty.vector len elem).chars
    = '<' :: (toString len).toList ++ ' ' :: 'x' :: ' ' :: (elem.chars ++ ['>']) := by
  simp [chars, text]

/-- The characters of types behind the first of a list. -/
def restChars (ts : List Ty) : List Char := ts.flatMap fun t => ',' :: ' ' :: t.chars

theorem listText_cons (t : Ty) (ts : List Ty) :
    (listText (t :: ts)).toList = t.chars ++ restChars ts := by
  induction ts generalizing t with
  | nil => simp [listText, chars, restChars]
  | cons u ts ih => simp [listText, ih, chars, restChars]

theorem chars_struct (fields : List Ty) : (Ty.struct false fields).chars
    = '\x7b' :: ' ' :: ((listText fields).toList ++ [' ', '\x7d']) := by
  simp [chars, text]

theorem chars_packed (fields : List Ty) : (Ty.struct true fields).chars
    = '<' :: '\x7b' :: ' ' :: ((listText fields).toList ++ [' ', '\x7d', '>']) := by
  simp [chars, text]

end Ty

/-! ## Blanks -/

variable {r : Rule} {z : List Char} {x : Char}

/-- The characters that are passed over, or start something that is. -/
def blankChars : List Char := [' ', '\t', '\r', '\n', ';']

theorem skip_cons (hx : x ∉ blankChars) (rest : List Char) (offset : Nat) :
    grammar.skip ⟨x :: rest, offset⟩ = ⟨x :: rest, offset⟩ := by
  simp only [blankChars, List.mem_cons, List.not_mem_nil, or_false, not_or] at hx
  show skipFrom false (x :: rest) offset = _
  simp [skipFrom, hx]

theorem skip_space (rest : List Char) (offset : Nat) :
    grammar.skip ⟨' ' :: rest, offset⟩ = grammar.skip ⟨rest, offset + 1⟩ := rfl

/-- The characters that may stand behind a type. -/
def closers : List Char := [',', ']', '>', '\x7d']

/-- A type may stand before `z`, and `y` is `z` without the blank that it may start with. -/
inductive Closes : List Char → List Char → Prop
  | done : Closes [] []
  | here {x : Char} {y : List Char} (hx : x ∈ closers) : Closes (x :: y) (x :: y)
  | space {x : Char} {y : List Char} (hx : x ∈ closers) : Closes (' ' :: x :: y) (x :: y)

theorem not_blank_of_closer (hx : x ∈ closers) : x ∉ blankChars := by
  have hclosers : ∀ x ∈ closers, x ∉ blankChars := List.all_iff_forall_prop.mp (by decide)
  exact hclosers x hx

namespace Closes

variable {y : List Char}

theorem self (h : Closes z y) : Closes y y := by
  cases h with
  | done => exact .done
  | here hx | space hx => exact .here hx

theorem skip_right (h : Closes z y) (offset : Nat) :
    grammar.skip ⟨y, offset⟩ = ⟨y, offset⟩ := by
  cases h with
  | done => rfl
  | here hx | space hx => exact skip_cons (not_blank_of_closer hx) _ offset

theorem exists_skip (h : Closes z y) (offset : Nat) :
    ∃ offset', grammar.skip ⟨z, offset⟩ = ⟨y, offset'⟩ := by
  cases h with
  | done => exact ⟨offset, rfl⟩
  | here hx => exact ⟨offset, skip_cons (not_blank_of_closer hx) _ offset⟩
  | space hx =>
    rw [skip_space]
    exact ⟨offset + 1, skip_cons (not_blank_of_closer hx) _ _⟩

/-- What is decided by the end of the input, and in the same way by all that closes a type, is
decided behind a type. -/
theorem start (h : Closes z y) {n : Nat} {e : Expr Rule} {s : Peg.Start}
    (hdone : grammar.start n e none = s)
    (hclosers : (closers.all fun x => grammar.start n e (some x) = s) = true) :
    grammar.start n e y.head? = s := by
  cases h with
  | done => exact hdone
  | here hx | space hx => exact List.all_iff_forall_prop.mp hclosers _ hx

/-- Numbers and names end in front of it. -/
theorem head (h : Closes z y) : ∀ x ∈ z.head?, isIdentChar x = false ∧ x.isDigit = false := by
  have hclosers : ∀ x ∈ closers, isIdentChar x = false ∧ x.isDigit = false :=
    List.all_iff_forall_prop.mp (by decide)
  intro x hx
  cases h with
  | done => cases hx
  | here hy =>
    cases hx
    exact hclosers _ hy
  | space hy =>
    cases hx
    decide

end Closes

/-! ## Runs of characters -/

theorem spanFrom_stop {p : Char → Bool} (hz : ∀ x ∈ z.head?, p x = false) (offset : Nat) :
    Peg.spanFrom p z offset = ⟨z, offset⟩ := by
  cases z with
  | nil => rfl
  | cons x z => rw [Peg.spanFrom, hz x rfl, if_neg Bool.false_ne_true]

/-- A run of characters of a class, where there are no blanks between parts. -/
theorem yields_run {m : Mode} (hm : m.blanks = false) {p : Char → Bool} {v : List Char}
    (hne : v ≠ []) (hv : ∀ x ∈ v, p x = true) (hz : ∀ x ∈ z.head?, p x = false) (offset : Nat) :
    grammar.Yields m (.span1 p) ⟨v ++ z, offset⟩ (.ok ⟨z, offset + size v⟩ []) := by
  cases v with
  | nil => exact absurd rfl hne
  | cons x v =>
    obtain ⟨hx, hv⟩ := List.forall_mem_cons.mp hv
    have hfirst : grammar.Yields m (.one p) ⟨x :: v ++ z, offset⟩
        (.ok ⟨v ++ z, offset + x.utf8Size⟩ []) := .leaf (if_pos hx) (by simp)
    have hrest : grammar.Yields m (.span p) ⟨v ++ z, offset + x.utf8Size⟩
        (.ok ⟨z, offset + x.utf8Size + size v⟩ []) := by
      refine .leaf ?_ (by simp)
      rw [outcome, Peg.spanFrom_append, if_pos (List.all_eq_true.mpr hv), spanFrom_stop hz]
    have hblanks : grammar.blanks m ⟨v ++ z, offset + x.utf8Size⟩
        = ⟨v ++ z, offset + x.utf8Size⟩ := by
      rw [blanks, hm, if_neg Bool.false_ne_true]
    rw [Peg.size_cons, ← Nat.add_assoc]
    exact hfirst.andThen hblanks hrest

/-! ## Numbers, names and words -/

theorem yields_text (m : Mode) (text z : List Char) (offset : Nat) :
    grammar.Yields m (.lit (String.ofList text)) ⟨text ++ z, offset⟩
      (.ok ⟨z, offset + size text⟩ []) := by
  refine .lit ?_
  rw [String.toList_ofList]
  exact Peg.literal?_append text z offset

/-- A rule between whose parts there may be blanks. -/
theorem yields_normal (hkind : grammar.kind r = .normal) {e : Expr Rule}
    (hbody : grammar.body r = e) {c next : Cursor} {ts : List (ParseTree Rule)}
    (h : grammar.Yields {} e c (.ok next ts)) :
    grammar.Yields {} (.rule r) c (.ok next [.node r c.offset c.rest next.offset ts]) := by
  refine .rule ?_
  rw [hkind, hbody]
  exact h

/-- The tree of a rule without parts, for the text `v`. -/
def leafTree (r : Rule) (v z : List Char) (offset : Nat) : ParseTree Rule :=
  .node r offset (v ++ z) (offset + size v) []

theorem chars_leafTree (r : Rule) (v z : List Char) (offset : Nat) :
    (leafTree r v z offset).chars = v := by
  show ParseTree.takeBytes (offset + size v - offset) (v ++ z) = v
  rw [Nat.add_sub_cancel_left, ParseTree.takeBytes_size]

theorem yields_digits {m : Mode} (hm : m.blanks = false) (n : Nat)
    (hz : ∀ x ∈ z.head?, x.isDigit = false) (offset : Nat) :
    grammar.Yields m (.span1 Char.isDigit) ⟨(toString n).toList ++ z, offset⟩
      (.ok ⟨z, offset + size (toString n).toList⟩ []) :=
  yields_run hm (by simp) (fun _ => Decimal.isDigit_of_mem_toString) hz offset

/-- A number starts with a digit. -/
theorem exists_digit (n : Nat) (z : List Char) :
    ∃ d rest, (toString n).toList ++ z = d :: rest ∧ d.isDigit = true := by
  obtain ⟨d, ds, hds⟩ := List.exists_cons_of_ne_nil (l := (toString n).toList) (by simp)
  refine ⟨d, ds ++ z, by rw [hds, List.cons_append], ?_⟩
  exact Decimal.isDigit_of_mem_toString (hds ▸ List.mem_cons_self)

theorem not_blank_of_isDigit {d : Char} (hd : d.isDigit = true) : d ∉ blankChars := by
  intro h
  have hblank : ∀ x ∈ blankChars, x.isDigit = false := List.all_iff_forall_prop.mp (by decide)
  rw [hblank d h] at hd
  cases hd

theorem skip_digits (n : Nat) (z : List Char) (offset : Nat) :
    grammar.skip ⟨(toString n).toList ++ z, offset⟩ = ⟨(toString n).toList ++ z, offset⟩ := by
  obtain ⟨d, rest, heq, hd⟩ := exists_digit n z
  rw [heq]
  exact skip_cons (not_blank_of_isDigit hd) rest offset

theorem yields_intLit (n : Nat) (hz : ∀ x ∈ z.head?, x.isDigit = false) (offset : Nat) :
    grammar.Yields {} (.rule .intLit) ⟨(toString n).toList ++ z, offset⟩
      (.ok ⟨z, offset + size (toString n).toList⟩
        [leafTree .intLit (toString n).toList z offset]) := by
  have hsign : grammar.Yields (Mode.enter {} .atomic) (.opt (.lit "-"))
      ⟨(toString n).toList ++ z, offset⟩ (.ok ⟨(toString n).toList ++ z, offset⟩ []) := by
    obtain ⟨d, rest, heq, hd⟩ := exists_digit n z
    rw [heq]
    refine .opt_fail (.lit_fail (if_neg ?_))
    rintro rfl
    cases hd
  exact .rule (hsign.andThen rfl (yields_digits rfl n hz offset))

theorem count_intLit {n : Nat} (hn : n < twoPow 64) (z : List Char) (offset : Nat) :
    Parse.count (leafTree .intLit (toString n).toList z offset) = .ok n := by
  rw [Parse.count, chars_leafTree, Decimal.unsigned?_toString hn]

theorem yields_word {word : String} (hbody : grammar.body r = .lit word) (z : List Char)
    (offset : Nat) :
    grammar.Yields {} (.rule r) ⟨word.toList ++ z, offset⟩
      (.ok ⟨z, offset + size word.toList⟩ [leafTree r word.toList z offset]) := by
  refine .rule ?_
  rw [hbody]
  exact .lit (Peg.literal?_append ..)

theorem yields_intType (n : Nat) (hz : ∀ x ∈ z.head?, x.isDigit = false) (offset : Nat) :
    grammar.Yields {} (.rule .intType) ⟨'i' :: (toString n).toList ++ z, offset⟩
      (.ok ⟨z, offset + size ('i' :: (toString n).toList)⟩
        [leafTree .intType ('i' :: (toString n).toList) z offset]) := by
  have hi : grammar.Yields (Mode.enter {} .atomic) (.lit "i")
      ⟨'i' :: (toString n).toList ++ z, offset⟩ (.ok ⟨(toString n).toList ++ z, offset + 1⟩ []) :=
    .lit rfl
  have hdigits := yields_digits (m := Mode.enter {} .atomic) rfl n hz (offset + 1)
  rw [Nat.add_assoc] at hdigits
  exact .rule (hi.andThen rfl hdigits)

/-- A bare name behind its sigil. -/
theorem yields_ident (hkind : grammar.kind r = .atomic) {sigil : Char}
    (hbody : grammar.body r = .seq (.lit (String.ofList [sigil])) Rule.identifier)
    {name z : List Char} (hne : name ≠ []) (hname : ∀ x ∈ name, isIdentChar x = true)
    (hz : ∀ x ∈ z.head?, isIdentChar x = false) (offset : Nat) :
    grammar.Yields {} (.rule r) ⟨sigil :: name ++ z, offset⟩
      (.ok ⟨z, offset + size (sigil :: name)⟩ [leafTree r (sigil :: name) z offset]) := by
  have hsigil := yields_text (Mode.enter {} .atomic) [sigil] (name ++ z) offset
  -- a quote is no character of a bare name
  have hquoted : grammar.Yields (Mode.enter {} .atomic) Rule.quoted
      ⟨name ++ z, offset + size [sigil]⟩ .fail := by
    cases name with
    | nil => exact absurd rfl hne
    | cons x name =>
      refine .seq_fail (.lit_fail (if_neg ?_))
      rintro rfl
      exact absurd (hname _ List.mem_cons_self) (by decide)
  have hrun := yields_run (m := Mode.enter {} .atomic) rfl hne hname hz (offset + size [sigil])
  rw [Nat.add_assoc, ← Peg.size_append] at hrun
  refine .rule ?_
  rw [hkind, hbody]
  exact hsigil.andThen rfl (.alt_right hquoted hrun)

theorem identName_leafTree (r : Rule) (sigil : Char) {name : List Char}
    (hname : ∀ x ∈ name, isIdentChar x = true) (z : List Char) (offset : Nat) :
    Parse.identName (leafTree r (sigil :: name) z offset) = String.ofList name := by
  rw [Parse.identName, chars_leafTree, List.drop_succ_cons, List.drop_zero]
  unfold unquote
  split
  next => exact absurd (hname _ List.mem_cons_self) (by decide)
  next => rfl

/-! ## Types in front of what may follow them -/

variable {t : Ty}

/-- The text of the type is matched as one of the alternatives for types, which is read as the type.
A pointer takes the blank behind it, and the others do not. -/
def BaseReads (t : Ty) : Prop :=
  ∀ (z y : List Char) (offset : Nat), Closes z y → ∃ z' stop tree, Closes z' y ∧
    grammar.Yields {} Rule.baseType ⟨t.chars ++ z, offset⟩ (.ok ⟨z', stop⟩ [tree]) ∧
    Parse.baseType tree = .ok t

/-- The text of the type is matched as a type, which is read as this type. -/
def Reads (t : Ty) : Prop :=
  ∀ (z y : List Char) (offset : Nat), Closes z y → ∃ stop children,
    grammar.Yields {} (.rule .type) ⟨t.chars ++ z, offset⟩
      (.ok ⟨y, stop⟩ [.node .type offset (t.chars ++ z) stop children]) ∧
    Parse.type (.node .type offset (t.chars ++ z) stop children) = .ok t

/-- No star stands behind a type. -/
theorem BaseReads.reads (h : BaseReads t) : Reads t := by
  intro z y offset hz
  obtain ⟨z', stop, tree, hz', hbase, hread⟩ := h z y offset hz
  obtain ⟨stop', hskip⟩ := hz'.exists_skip stop
  have hstars : grammar.Yields {} (.star (.rule .pointerStar)) ⟨y, stop'⟩ (.ok ⟨y, stop'⟩ []) :=
    .of_empty (n := 4) (hz'.start (by decide) (by decide)) (hz'.skip_right stop')
  refine ⟨stop', [tree], .rule (hbase.andThen hskip hstars), ?_⟩
  rw [Parse.type, hread]
  rfl

/-- The alternatives for a type, in their order. -/
def baseRules : List Rule :=
  [.voidType, .intType, .halfType, .floatType, .doubleType, .fp80Type, .fp128Type, .ptrType,
    .labelType, .metadataType, .arrayType, .packedStructType, .vectorType, .structType, .namedType]

/-- An alternative is taken if those before it fail: by their first character, but for the few that
start like it. -/
theorem yields_base {k : Nat} (hk : baseRules[k]? = some r)
    (hx : x ∉ blankChars) (alike : List Rule)
    (hbefore : ∀ r' ∈ baseRules.take k, r' ∉ alike →
      grammar.start 4 (.rule r') (some x) = .fails) {rest : List Char} {offset : Nat}
    (halike : ∀ r' ∈ alike, grammar.Yields {} (.rule r') ⟨x :: rest, offset⟩ .fail)
    {next : Cursor} {ts : List (ParseTree Rule)}
    (h : grammar.Yields {} (.rule r) ⟨x :: rest, offset⟩ (.ok next ts)) :
    grammar.Yields {} Rule.baseType ⟨x :: rest, offset⟩ (.ok next ts) := by
  show grammar.Yields {} (.any (baseRules.map .rule)) ⟨x :: rest, offset⟩ (.ok next ts)
  refine .any (k := k) (by rw [List.getElem?_map, hk]; rfl) (fun a ha => ?_) h
  rw [← List.map_take, List.mem_map] at ha
  obtain ⟨r', hr', rfl⟩ := ha
  by_cases hmem : r' ∈ alike
  · exact halike r' hmem
  · exact .of_fails (hbefore r' hr' hmem) (skip_cons hx rest offset)

/-- A type that is a single word. -/
theorem baseReads_word {k : Nat} (hk : baseRules[k]? = some r) {xs : List Char}
    (hchars : t.chars = x :: xs) (hbody : grammar.body r = .lit t.text)
    (hplain : Parse.plainType? r = some t) (hx : x ∉ blankChars) (alike : List Rule)
    (hbefore : ∀ r' ∈ baseRules.take k, r' ∉ alike → grammar.start 4 (.rule r') (some x) = .fails)
    (halike : ∀ r' ∈ alike, ∀ z offset, grammar.Yields {} (.rule r') ⟨t.chars ++ z, offset⟩ .fail) :
    BaseReads t := by
  intro z y offset hz
  have hword : grammar.Yields {} (.rule r) ⟨t.chars ++ z, offset⟩
      (.ok ⟨z, offset + size t.chars⟩ [leafTree r t.chars z offset]) := yields_word hbody z offset
  have hbase : grammar.Yields {} Rule.baseType ⟨t.chars ++ z, offset⟩
      (.ok ⟨z, offset + size t.chars⟩ [leafTree r t.chars z offset]) := by
    rw [hchars] at hword halike ⊢
    exact yields_base hk hx alike hbefore (fun r' hr' => halike r' hr' z offset) hword
  exact ⟨z, _, _, hz, hbase, Parse.baseType_of_plainType? hplain⟩

/-- A single word that no alternative before it starts like. -/
theorem baseReads_plain {k : Nat} (hk : baseRules[k]? = some r) {xs : List Char}
    (hchars : t.chars = x :: xs) (hbody : grammar.body r = .lit t.text)
    (hplain : Parse.plainType? r = some t) (hx : x ∉ blankChars)
    (hbefore : ∀ r' ∈ baseRules.take k, grammar.start 4 (.rule r') (some x) = .fails) :
    BaseReads t :=
  baseReads_word hk hchars hbody hplain hx [] (fun r' hr' _ => hbefore r' hr') (by simp)

theorem baseReads_int {bits : Nat} (hbits : bits < twoPow 32) : BaseReads (.int bits) := by
  intro z y offset hz
  rw [Ty.chars_int]
  refine ⟨z, _, _, hz, yields_base (k := 1) rfl (by decide) [] (by decide) (by simp)
    (yields_intType bits (fun x hx => (hz.head x hx).2) offset), ?_⟩
  rw [Parse.baseType_of_intType rfl, chars_leafTree, List.drop_succ_cons, List.drop_zero,
    Decimal.unsigned?_toString hbits]

theorem baseReads_ptr : BaseReads .ptr := by
  intro z y offset hz
  obtain ⟨stop, hskip⟩ := hz.exists_skip (offset + size ['p', 't', 'r'])
  have hword : grammar.Yields {} (.lit "ptr") ⟨['p', 't', 'r'] ++ z, offset⟩
      (.ok ⟨z, offset + size ['p', 't', 'r']⟩ []) :=
    .lit (Peg.literal?_append ['p', 't', 'r'] z offset)
  -- the look for an address space passes over the blank, also where there is none
  have hspace : grammar.Yields {}
      (.opt (.all [.lit "addrspace", .lit "(", .rule .intLit, .lit ")"]))
      ⟨y, stop⟩ (.ok ⟨y, stop⟩ []) :=
    .of_empty (n := 4) (hz.start (by decide) (by decide)) (hz.skip_right stop)
  refine ⟨y, stop, _, hz.self, yields_base (k := 7) (x := 'p') rfl (by decide) [] (by decide)
    (by simp) (.rule (hword.andThen hskip hspace)), ?_⟩
  exact Parse.baseType_of_plainType? rfl

theorem baseReads_named {name : String} (hne : name.toList ≠ [])
    (hname : ∀ x ∈ name.toList, isIdentChar x = true) : BaseReads (.named name) := by
  intro z y offset hz
  rw [Ty.chars_named]
  refine ⟨z, _, _, hz, yields_base (k := 14) rfl (by decide) [] (by decide) (by simp)
    (.rule (yields_ident rfl rfl hne hname (fun x hx => (hz.head x hx).1) offset)), ?_⟩
  show Except.ok (Ty.named (Parse.identName _)) = _
  rw [identName_leafTree _ _ hname, String.ofList_toList]

/-! ## Types with parts -/

/-- The text of a type that can be spelled starts with no blank. -/
theorem exists_first (h : t.isSpelled = true) : ∃ x xs, t.chars = x :: xs ∧ x ∉ blankChars := by
  cases t with
  | void | half | float | double | x86Fp80 | fp128 | ptr | label | metadata =>
    exact ⟨_, _, rfl, by decide⟩
  | int bits => exact ⟨_, _, Ty.chars_int bits, by decide⟩
  | array len elem => exact ⟨_, _, Ty.chars_array len elem, by decide⟩
  | vector len elem => exact ⟨_, _, Ty.chars_vector len elem, by decide⟩
  | struct packed fields =>
    cases packed with
    | false => exact ⟨_, _, Ty.chars_struct fields, by decide⟩
    | true => exact ⟨_, _, Ty.chars_packed fields, by decide⟩
  | named name => exact ⟨_, _, Ty.chars_named name, by decide⟩
  | function ret params varargs => cases h

theorem skip_chars (h : t.isSpelled = true) (z : List Char) (offset : Nat) :
    grammar.skip ⟨t.chars ++ z, offset⟩ = ⟨t.chars ++ z, offset⟩ := by
  obtain ⟨x, xs, hchars, hx⟩ := exists_first h
  rw [hchars, List.cons_append]
  exact skip_cons hx _ offset

/-- A number of elements and their type, between two brackets. -/
theorem yields_counted (hkind : grammar.kind r = .normal) {left right : Char}
    (hbody : grammar.body r = .all [.lit (String.ofList [left]), .rule .intLit, .lit "x",
      .rule .type, .lit (String.ofList [right])]) {make : Nat → Ty → Ty}
    (hread : ∀ start input stop len elem, Parse.baseType (.node r start input stop [len, elem])
      = do return make (← Parse.count len) (← Parse.type elem)) (hright : right ∈ closers)
    {len : Nat} (hlen : len < twoPow 64) {elem : Ty} (helem : elem.isSpelled = true)
    (hreads : Reads elem) (z : List Char) (offset : Nat) :
    ∃ stop tree, grammar.Yields {} (.rule r)
        ⟨left :: ((toString len).toList ++ ' ' :: 'x' :: ' ' :: (elem.chars ++ right :: z)), offset⟩
        (.ok ⟨z, stop⟩ [tree]) ∧ Parse.baseType tree = .ok (make len elem) := by
  -- the bracket
  have hleft := yields_text {} [left]
    ((toString len).toList ++ ' ' :: 'x' :: ' ' :: (elem.chars ++ right :: z)) offset
  -- the number, and the word between two blanks
  have hnumber := yields_intLit len (z := ' ' :: 'x' :: ' ' :: (elem.chars ++ right :: z))
    (by simp) (offset + size [left])
  obtain ⟨p, hp⟩ : ∃ p, p = offset + size [left] + size (toString len).toList := ⟨_, rfl⟩
  rw [← hp] at hnumber
  have hword : grammar.Yields {} (.lit "x") ⟨'x' :: ' ' :: (elem.chars ++ right :: z), p + 1⟩
      (.ok ⟨' ' :: (elem.chars ++ right :: z), p + 2⟩ []) := .lit rfl
  -- the type, up to the other bracket
  obtain ⟨stop, children, htype, hchildren⟩ := hreads _ _ (p + 3) (.here (y := z) hright)
  have hright' := yields_text {} [right] z stop
  have hparts := hleft.andThen (skip_digits len _ _) (hnumber.andThen rfl (hword.andThen
    (skip_chars helem _ _) (htype.andThen (skip_cons (not_blank_of_closer hright) z stop) hright')))
  refine ⟨_, _, yields_normal hkind hbody hparts, ?_⟩
  refine (hread _ _ _ _ _).trans ?_
  rw [count_intLit hlen, hchildren]
  rfl

theorem baseReads_array {len : Nat} (hlen : len < twoPow 64) {elem : Ty}
    (helem : elem.isSpelled = true) (hreads : Reads elem) : BaseReads (.array len elem) := by
  intro z y offset hz
  obtain ⟨stop, tree, hyields, hread⟩ := @yields_counted .arrayType rfl '[' ']' rfl .array
    (fun _ _ _ _ _ => rfl) (by decide) len hlen elem helem hreads z offset
  refine ⟨z, stop, tree, hz, ?_, hread⟩
  simp only [Ty.chars_array, List.cons_append, List.append_assoc, List.nil_append]
  exact yields_base (k := 10) rfl (by decide) [] (by decide) (by simp) hyields

theorem baseReads_vector {len : Nat} (hlen : len < twoPow 64) {elem : Ty}
    (helem : elem.isSpelled = true) (hreads : Reads elem) : BaseReads (.vector len elem) := by
  intro z y offset hz
  obtain ⟨stop, tree, hyields, hread⟩ := @yields_counted .vectorType rfl '<' '>' rfl .vector
    (fun _ _ _ _ _ => rfl) (by decide) len hlen elem helem hreads z offset
  refine ⟨z, stop, tree, hz, ?_, hread⟩
  simp only [Ty.chars_vector, List.cons_append, List.append_assoc, List.nil_append]
  refine yields_base (k := 12) rfl (by decide) [.packedStructType] (by decide) ?_ hyields
  -- a digit is no brace
  simp only [List.mem_singleton, forall_eq]
  obtain ⟨d, rest, heq, hd⟩ := exists_digit len (' ' :: 'x' :: ' ' :: (elem.chars ++ '>' :: z))
  rw [heq]
  refine .rule_fail (.seq_fail (.lit_fail ((if_pos rfl).trans (if_neg ?_))))
  rintro rfl
  cases hd

/-! ## Fields -/

/-- What stands behind a field, up to the brace: the other fields, and a blank. -/
def behindField (ts : List Ty) (w : List Char) : List Char := Ty.restChars ts ++ ' ' :: '\x7d' :: w

/-- What is left of that behind blanks. -/
def afterField (ts : List Ty) (w : List Char) : List Char :=
  if ts.isEmpty then '\x7d' :: w else behindField ts w

theorem closes_behindField (ts : List Ty) (w : List Char) :
    Closes (behindField ts w) (afterField ts w) := by
  cases ts with
  | nil => exact .space (by decide)
  | cons t ts => exact .here (by decide)

/-- The fields behind the first are matched, one after the other, and read. -/
theorem yields_moreFields {ts : List Ty} (hts : ∀ t ∈ ts, t.isSpelled = true ∧ Reads t)
    (w : List Char) (offset : Nat) :
    ∃ z stop trees, Closes z ('\x7d' :: w) ∧
      grammar.Yields {} (.more (.seq (.lit ",") (.rule .type))) ⟨afterField ts w, offset⟩
        (.ok ⟨z, stop⟩ trees) ∧ Parse.types trees = .ok ts := by
  have hbrace : '\x7d' ∈ closers := by decide
  induction ts generalizing offset with
  | nil =>
    refine ⟨_, offset, [], .here hbrace, ?_, rfl⟩
    exact .of_empty (n := 4) rfl (skip_cons (not_blank_of_closer hbrace) w offset)
  | cons t ts ih =>
    obtain ⟨⟨hspelled, hreads⟩, hts⟩ := List.forall_mem_cons.mp hts
    have hcomma : grammar.Yields {} (.lit ",") ⟨',' :: ' ' :: (t.chars ++ behindField ts w), offset⟩
        (.ok ⟨' ' :: (t.chars ++ behindField ts w), offset + 1⟩ []) := .lit rfl
    obtain ⟨stop, children, htype, hread⟩ :=
      hreads _ _ (offset + 2) (closes_behindField ts w)
    obtain ⟨z, stop', trees, hz, hmore, hreadMore⟩ := ih hts stop
    have hskip : grammar.skip ⟨',' :: ' ' :: (t.chars ++ behindField ts w), offset⟩ = _ :=
      skip_cons (by decide) _ offset
    have hcursor : afterField (t :: ts) w = ',' :: ' ' :: (t.chars ++ behindField ts w) := by
      simp [afterField, behindField, Ty.restChars]
    rw [hcursor]
    have hfield := hcomma.andThen (skip_chars hspelled _ _) htype
    refine ⟨z, stop', _, hz, .moreThen hskip hfield hmore, ?_⟩
    show (do return (← Parse.type (.node ..)) :: (← Parse.types trees)) = _
    rw [hread, hreadMore]
    rfl

/-- The fields are matched between blanks, up to the brace, and read. -/
theorem yields_fields {fields : List Ty} (hfields : ∀ t ∈ fields, t.isSpelled = true ∧ Reads t)
    (w : List Char) (offset : Nat) :
    ∃ next z stop trees, Closes z ('\x7d' :: w) ∧
      grammar.skip ⟨' ' :: ((Ty.listText fields).toList ++ ' ' :: '\x7d' :: w), offset⟩ = next ∧
      grammar.Yields {} Rule.types next (.ok ⟨z, stop⟩ trees) ∧ Parse.types trees = .ok fields := by
  have hbrace : '\x7d' ∈ closers := by decide
  cases fields with
  | nil =>
    have hskip : ∀ p, grammar.skip ⟨'\x7d' :: w, p⟩ = ⟨'\x7d' :: w, p⟩ :=
      skip_cons (not_blank_of_closer hbrace) w
    refine ⟨_, _, offset + 2, [], .here hbrace, hskip (offset + 2), ?_, rfl⟩
    exact .of_empty (n := 32) rfl (hskip _)
  | cons t ts =>
    obtain ⟨⟨hspelled, hreads⟩, hts⟩ := List.forall_mem_cons.mp hfields
    obtain ⟨stop, children, htype, hread⟩ :=
      hreads _ _ (offset + 1) (closes_behindField ts w)
    obtain ⟨z, stop', trees, hz, hmore, hreadMore⟩ := yields_moreFields hts w stop
    have hskip := (closes_behindField ts w).skip_right stop
    have hcursor : (Ty.listText (t :: ts)).toList ++ ' ' :: '\x7d' :: w
        = t.chars ++ behindField ts w := by
      rw [Ty.listText_cons, List.append_assoc, behindField]
    rw [hcursor]
    refine ⟨_, z, stop', _, hz, skip_chars hspelled _ _, .opt (htype.andThen hskip
      (.star_of_more hskip hmore)), ?_⟩
    show (do return (← Parse.type (.node ..)) :: (← Parse.types trees)) = _
    rw [hread, hreadMore]
    rfl

/-- Fields between braces. -/
theorem yields_braced (hkind : grammar.kind r = .normal) {left right : List Char}
    (hbody : grammar.body r = .all [.lit (String.ofList left), Rule.types,
      .lit (String.ofList ('\x7d' :: right))]) {packed : Bool}
    (hread : ∀ start input stop trees, Parse.baseType (.node r start input stop trees)
      = do return .struct packed (← Parse.types trees)) {fields : List Ty}
    (hfields : ∀ t ∈ fields, t.isSpelled = true ∧ Reads t) (z : List Char) (offset : Nat) :
    ∃ stop tree, grammar.Yields {} (.rule r)
        ⟨left ++ ' ' :: ((Ty.listText fields).toList ++ ' ' :: '\x7d' :: (right ++ z)), offset⟩
        (.ok ⟨z, stop⟩ [tree]) ∧ Parse.baseType tree = .ok (.struct packed fields) := by
  obtain ⟨next, z', stop, trees, hz', hskip, htypes, htrees⟩ :=
    yields_fields hfields (right ++ z) (offset + size left)
  obtain ⟨stop', hclose⟩ := hz'.exists_skip stop
  have hleft := yields_text {} left
    (' ' :: ((Ty.listText fields).toList ++ ' ' :: '\x7d' :: (right ++ z))) offset
  have hright := yields_text {} ('\x7d' :: right) z stop'
  have hparts := hleft.andThen hskip (htypes.andThen hclose hright)
  refine ⟨_, _, yields_normal hkind hbody hparts, ?_⟩
  refine (hread _ _ _ _).trans ?_
  rw [List.nil_append, List.append_nil, htrees]
  rfl

theorem baseReads_struct {fields : List Ty}
    (hfields : ∀ t ∈ fields, t.isSpelled = true ∧ Reads t) (packed : Bool) :
    BaseReads (.struct packed fields) := by
  intro z y offset hz
  cases packed with
  | false =>
    obtain ⟨stop, tree, hyields, hread⟩ := @yields_braced .structType rfl ['\x7b'] [] rfl false
      (fun _ _ _ _ => rfl) fields hfields z offset
    refine ⟨z, stop, tree, hz, ?_, hread⟩
    simp only [Ty.chars_struct, List.cons_append, List.append_assoc, List.nil_append]
    exact yields_base (k := 13) rfl (by decide) [] (by decide) (by simp) hyields
  | true =>
    obtain ⟨stop, tree, hyields, hread⟩ := @yields_braced .packedStructType rfl ['<', '\x7b'] ['>']
      rfl true (fun _ _ _ _ => rfl) fields hfields z offset
    refine ⟨z, stop, tree, hz, ?_, hread⟩
    simp only [Ty.chars_packed, List.cons_append, List.append_assoc, List.nil_append]
    exact yields_base (k := 11) rfl (by decide) [] (by decide) (by simp) hyields

/-! ## All types -/

mutual

/-- **The text of a type reads as the type**, in front of all that may follow a type. -/
theorem reads_type : ∀ t : Ty, t.isSpelled = true → Reads t
  | .void, _ => (baseReads_plain (k := 0) rfl rfl rfl rfl (by decide) (by decide)).reads
  | .half, _ => (baseReads_plain (k := 2) rfl rfl rfl rfl (by decide) (by decide)).reads
  | .float, _ => (baseReads_plain (k := 3) rfl rfl rfl rfl (by decide) (by decide)).reads
  | .double, _ => (baseReads_plain (k := 4) rfl rfl rfl rfl (by decide) (by decide)).reads
  | .x86Fp80, _ => (baseReads_plain (k := 5) rfl rfl rfl rfl (by decide) (by decide)).reads
  | .fp128, _ => by
    -- the other type with this letter is tried before it
    refine (baseReads_word (k := 6) rfl rfl rfl rfl (by decide) [.floatType] (by decide) ?_).reads
    simp only [List.mem_singleton, forall_eq]
    exact fun z offset => .rule_fail (.lit_fail rfl)
  | .ptr, _ => baseReads_ptr.reads
  | .label, _ => (baseReads_plain (k := 8) rfl rfl rfl rfl (by decide) (by decide)).reads
  | .metadata, _ => (baseReads_plain (k := 9) rfl rfl rfl rfl (by decide) (by decide)).reads
  | .int bits, h => (baseReads_int (of_decide_eq_true h)).reads
  | .array len elem, h => by
    rw [Ty.isSpelled, Bool.and_eq_true, decide_eq_true_eq] at h
    exact (baseReads_array h.1 h.2 (reads_type elem h.2)).reads
  | .vector len elem, h => by
    rw [Ty.isSpelled, Bool.and_eq_true, decide_eq_true_eq] at h
    exact (baseReads_vector h.1 h.2 (reads_type elem h.2)).reads
  | .struct packed fields, h => (baseReads_struct (reads_types fields h) packed).reads
  | .named name, h => by
    rw [Ty.isSpelled, Bool.and_eq_true, Bool.not_eq_true', List.isEmpty_eq_false_iff,
      List.all_eq_true] at h
    exact (baseReads_named h.1 h.2).reads

theorem reads_types : ∀ ts : List Ty, Ty.allSpelled ts = true →
    ∀ t ∈ ts, t.isSpelled = true ∧ Reads t
  | [], _ => by simp
  | t :: ts, h => by
    rw [Ty.allSpelled, Bool.and_eq_true] at h
    exact List.forall_mem_cons.mpr ⟨⟨h.1, reads_type t h.1⟩, reads_types ts h.2⟩

end

end SafeIR.Source
