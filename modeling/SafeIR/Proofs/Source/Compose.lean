import SafeIR.Proofs.Peg.Items
import SafeIR.Proofs.Source.Moved
import SafeIR.Proofs.Source.Total

/-!
# Modules on consecutive lines

What the text of one module, a line feed and the text of another module spell together. The second
text is matched behind the first as it is matched alone, since a match does not depend on what
stands before it. The first text need not be: an item that may go on takes what it can of the
second. So its items are matched before the start of the second text, and if they end there without
a look past that start, they do so before every text that starts so. Then the two texts spell the
items of the first module and those of the second. The condition is exact: it holds where the items
of the two texts together are some that spell the first module, and those of the second text.
-/

namespace SafeIR.Source

open Peg (Cursor Edit ParseTree)
open Peg.Grammar

variable {ts : List (ParseTree Rule)} {c next : Cursor} {a x b : List Char} {m : Module}

/-! ## The items of a module -/

/-- The end of the input, as a tree. -/
def endTree (c : Cursor) : ParseTree Rule := .node .endOfInput c.offset c.rest c.offset []

theorem outcome_endOfInput (d : Nat) (c : Cursor) :
    grammar.outcome (d + 2) {} (.rule .endOfInput) c
      = if c.rest.isEmpty then .ok c [endTree c] else .fail := by
  show (grammar.outcome (d + 1) {} .done c).elim .fail _ = _
  rw [outcome]
  split <;> rfl

/-- A module is a row of items up to the end of the input. -/
theorem outcome_module (d : Nat) (c : Cursor) :
    grammar.outcome (d + 5) {} (.rule .module) c =
      (grammar.outcome (d + 2) {} (.more Rule.topItem) (grammar.skip c)).elim .fail fun last ts =>
        if (grammar.skip last).rest.isEmpty then
          .ok (grammar.skip last) [.node .module c.offset c.rest (grammar.skip last).offset
            (ts ++ [endTree (grammar.skip last)])]
        else .fail := by
  have hstar : grammar.outcome (d + 2) {} (.star Rule.topItem) (grammar.skip c)
      = grammar.outcome (d + 2) {} (.more Rule.topItem) (grammar.skip c) :=
    outcome_star (d + 2) (skip_skip c)
  have hrow : grammar.outcome (d + 4) {} (grammar.body .module) c =
      (grammar.outcome (d + 2) {} (.more Rule.topItem) (grammar.skip c)).elim .fail fun last ts =>
        (grammar.outcome (d + 2) {} (.rule .endOfInput) (grammar.skip last)).prepend ts := by
    rw [← hstar]
    exact Peg.Outcome.prepend_nil (grammar.outcome (d + 3) {}
      (.seq (.star Rule.topItem) (.rule .endOfInput)) (grammar.skip c))
  show (grammar.outcome (d + 4) {} (grammar.body .module) c).elim .fail _ = _
  rw [hrow]
  cases grammar.outcome (d + 2) {} (.more Rule.topItem) (grammar.skip c) with
  | stuck => rfl
  | fail => rfl
  | ok last ts =>
    rw [Peg.Outcome.elim, outcome_endOfInput, Peg.Outcome.elim]
    by_cases hend : (grammar.skip last).rest.isEmpty = true
    · rw [if_pos hend, if_pos hend]
      rfl
    · rw [if_neg hend, if_neg hend]
      rfl

/-- A text is parsed as a module where a row of items takes it to its end. -/
theorem parse_module_iff {t : ParseTree Rule} :
    grammar.parse .module x = .ok t ↔
      ∃ last ts, grammar.Yields {} (.more Rule.topItem) ⟨x, 0⟩ (.ok last ts) ∧
        (grammar.skip last).rest = [] ∧
        t = .node .module 0 x (grammar.skip last).offset (ts ++ [endTree (grammar.skip last)]) := by
  have hskip := skip_skip ⟨x, 0⟩
  rw [parse_eq_ok_iff]
  constructor
  · rintro ⟨next, us, h⟩
    obtain ⟨d, hd⟩ : ∃ d, depth x = d + 5 := ⟨128 * x.length + 123, by simp [depth]; omega⟩
    rw [hd, outcome_module] at h
    rcases Peg.Outcome.elim_eq_ok h with ⟨-, h⟩ | ⟨last, ts, hrow, h⟩
    · cases h
    · split at h
      next hend =>
        cases h
        obtain ⟨last', hrow', hlast⟩ := outcome_more_congr (m := {}) hskip hrow
        have hlast : grammar.skip last' = grammar.skip last := hlast
        rw [← hlast] at hend ⊢
        exact ⟨last', ts, ⟨by simp, _, hrow'⟩, List.isEmpty_iff.mp hend, rfl⟩
      next => cases h
  · rintro ⟨last, ts, hrow, hend, rfl⟩
    obtain ⟨d, hrow⟩ := hrow.eventually
    obtain ⟨last', hrow', hlast⟩ :=
      outcome_more_congr (m := {}) hskip.symm (hrow (d + 2) (by omega))
    have hlast : grammar.skip last' = grammar.skip last := hlast
    rw [← hlast] at hend ⊢
    refine ⟨grammar.skip last', [], ?_⟩
    -- the depth of the text is enough, so what a match comes to with more depth it comes to
    refine Yields.outcome_eq ⟨by simp, d + 5, ?_⟩ (outcome_rule_ne_stuck .module {} x 0)
    rw [outcome_module]
    show (grammar.outcome _ _ _ _).elim _ _ = _
    rw [hrow', Peg.Outcome.elim, if_pos (List.isEmpty_iff.mpr hend)]

/-- The trees of the items that a text consists of. -/
def itemsOf (x : List Char) : Option (List (ParseTree Rule)) :=
  match grammar.parse .module x with
  | .ok t => some t.children.dropLast
  | .error _ => none

theorem itemsOf_eq_some_iff :
    itemsOf x = some ts ↔ ∃ last, grammar.Yields {} (.more Rule.topItem) ⟨x, 0⟩ (.ok last ts) ∧
      (grammar.skip last).rest = [] := by
  unfold itemsOf
  constructor
  · intro h
    split at h
    next t ht =>
      obtain ⟨last, ts', hrow, hend, rfl⟩ := parse_module_iff.mp ht
      cases h
      exact ⟨last, by simpa [ParseTree.children] using hrow, hend⟩
    next => cases h
  · rintro ⟨last, hrow, hend⟩
    rw [parse_module_iff.mpr ⟨last, ts, hrow, hend, rfl⟩]
    simp [ParseTree.children]

/-- A text spells what its items add to an empty module. -/
theorem ofChars_eq_ok_iff :
    Module.ofChars x = .ok m ↔ ∃ ts, itemsOf x = some ts ∧ ts.foldlM Parse.item {} = .ok m := by
  have hend : ∀ (ts : List (ParseTree Rule)) c,
      (ts ++ [endTree c]).foldlM Parse.item ({} : Module) = ts.foldlM Parse.item {} := by
    intro ts c
    rw [List.foldlM_append]
    exact bind_pure _
  unfold Module.ofChars itemsOf
  cases hparse : grammar.parse .module x with
  | error far => simp
  | ok t =>
    obtain ⟨last, ts, -, -, rfl⟩ := parse_module_iff.mp hparse
    simp [Module.ofTree, ParseTree.children, hend]

/-! ## Modules put together -/

/-- The items of one module, then those of another; what both set is as the second sets it. -/
def Module.append (m n : Module) : Module where
  sourceFilename := n.sourceFilename.or m.sourceFilename
  triple := n.triple.or m.triple
  dataLayout := n.dataLayout.or m.dataLayout
  types := m.types ++ n.types
  globals := m.globals ++ n.globals
  functions := m.functions ++ n.functions

theorem Module.append_empty (m : Module) (k : Nat) : m.append (({} : Module).moved k) = m := by
  simp [append, moved]

theorem Module.empty_append (m : Module) : ({} : Module).append (m.moved 0) = m := by
  have hinstruction : Instruction.moved 0 = id := rfl
  have hblock : Block.moved 0 = id := by
    funext b
    simp [Block.moved, hinstruction]
  have hfunction : Function.moved 0 = id := by
    funext f
    simp [Function.moved, hblock]
  have hglobal : Global.moved 0 = id := rfl
  simp [append, moved, hfunction, hglobal]

/-- The items of `m`, and behind them those of `n` in an edited text, where `χ` says what becomes of
a function. -/
def Module.followedBy (m : Module) (φ : Edit) (χ : Function → Function) (n : Module) : Module :=
  m.append (n.mapItems (Global.relocate φ.offset) χ)

theorem functions_followedBy (m n : Module) (φ : Edit) (χ : Function → Function) (f : Function) :
    (m.followedBy φ χ n).functions ++ [χ f]
      = (m.followedBy φ χ { n with functions := n.functions ++ [f] }).functions := by
  simp [Module.followedBy, Module.append, Module.mapItems]

/-- An item behind a module adds to the module what it adds to an empty one. -/
theorem item_follows {φ : Edit} {χ : Function → Function} {t : ParseTree Rule}
    (h : t.rule ≠ .functionDef → t.Kept φ)
    (hdef : t.rule = .functionDef →
      Follows χ (Parse.function false t) (Parse.function false (t.edit φ)))
    (hdecl : t.rule = .functionDecl →
      Follows χ (Parse.function true t) (Parse.function true (t.edit φ))) (m n : Module) :
    Follows (m.followedBy φ χ) (Parse.item n t) (Parse.item (m.followedBy φ χ n) (t.edit φ)) := by
  unfold Parse.item
  rw [ParseTree.rule_edit, ParseTree.children_edit]
  split
  next name hrule hchildren =>
    have hname := Parse.kept_of_children_eq (h (by simp [hrule])) hchildren name (by simp)
    rw [hrule, hchildren]
    simp only [List.map_cons, List.map_nil, Parse.unquoted_edit hname]
    exact .ok _
  next key text hrule hchildren =>
    have hkept := Parse.kept_of_children_eq (h (by simp [hrule])) hchildren
    rw [hrule, hchildren]
    simp only [List.map_cons, List.map_nil, Parse.text_edit (hkept key (by simp)),
      Parse.unquoted_edit (hkept text (by simp))]
    split
    · exact .ok _
    · exact .ok _
  next hrule =>
    have hkept := h (by simp [hrule])
    rw [hrule]
    refine (Parse.typeDef_edit hkept).bind fun d => ?_
    rw [id, Module.followedBy, Module.append, List.append_assoc]
    exact .ok _
  next hrule =>
    have hkept := h (by simp [hrule])
    rw [hrule]
    refine (Parse.global_edit hkept).bind fun g => ?_
    have hglobals : (m.followedBy φ χ n).globals ++ [g.relocate φ.offset]
        = (m.followedBy φ χ { n with globals := n.globals ++ [g] }).globals := by
      simp [Module.followedBy, Module.append, Module.mapItems]
    rw [hglobals]
    exact .ok _
  next hrule =>
    have hfollows := hdef hrule
    rw [hrule]
    refine hfollows.bind fun f => ?_
    rw [functions_followedBy]
    exact .ok _
  next hrule =>
    have hfollows := hdecl hrule
    rw [hrule]
    refine hfollows.bind fun f => ?_
    rw [functions_followedBy]
    exact .ok _
  -- No branch is left that the edited tree alone could take.
  next htype hglobal hfun hfunDecl hsource htarget =>
    split
    next name hrule hchildren =>
      obtain ⟨u, hu, -⟩ := List.map_eq_singleton_iff.mp hchildren
      exact (hsource u hrule hu).elim
    next key text hrule hchildren =>
      obtain ⟨u, us, hu, -, hus⟩ := List.map_eq_cons_iff.mp hchildren
      obtain ⟨v, rfl, -⟩ := List.map_eq_singleton_iff.mp hus
      exact (htarget u v hrule hu).elim
    next hrule => exact (htype hrule).elim
    next hrule => exact (hglobal hrule).elim
    next hrule => exact (hfun hrule).elim
    next hrule => exact (hfunDecl hrule).elim
    next => exact .ok _

/-- Items behind a module add to the module what they spell by themselves. -/
theorem foldlM_item_moved {k : Nat} {y : List Char} {n : Module} (hfits : ∀ t ∈ ts, t.Fits)
    (h : ts.foldlM Parse.item {} = .ok n) (m : Module) :
    (ts.map (ParseTree.moved k y)).foldlM Parse.item m = .ok (m.append (n.moved k)) := by
  have hmap : ts.map (ParseTree.moved k y) = ts.map (ParseTree.edit (.move k y)) :=
    List.map_congr_left fun t _ => ParseTree.moved_eq_edit k y t
  have hfollows : Follows (m.followedBy (.move k y) (Function.relocate (· + k)))
      (ts.foldlM Parse.item {}) ((ts.map (ParseTree.edit (.move k y))).foldlM Parse.item
        (m.followedBy (.move k y) (Function.relocate (· + k)) {})) := by
    refine .foldlM ({} : Module) fun t ht n => ?_
    have hkept := (hfits t ht).kept k y
    exact item_follows (fun _ => hkept) (fun _ => Parse.function_edit false hkept)
      (fun _ => Parse.function_edit true hkept) m n
  have hempty : m.followedBy (.move k y) (Function.relocate (· + k)) {} = m := m.append_empty k
  rw [hempty] at hfollows
  rw [hmap]
  exact hfollows n h

/-! ## Items before a line -/

/-- The items up to a cursor at which they are `done`, in a text that is known as a whole or only up
to where it goes on. If the text goes on, a match that came to the end of what is known does not
count. -/
def itemsUpTo (whole : Bool) (done : Cursor → Bool) :
    Nat → Cursor → Option (List (ParseTree Rule))
  | 0, _ => none
  | d + 1, c =>
    if done c then some []
    else if !whole && (grammar.blanksTouch {} c ||
        grammar.touches d {} Rule.topItem (grammar.skip c)) then none
    else match grammar.outcome d {} Rule.topItem (grammar.skip c) with
      | .ok next ts => (itemsUpTo whole done d next).map (ts ++ ·)
      | _ => none

/-- The items are matched alike in the text that goes on. -/
theorem items_of_itemsUpTo {whole : Bool} {done : Cursor → Bool} {rest : List Char}
    (hwhole : whole = true → rest = []) {d : Nat} (h : itemsUpTo whole done d c = some ts) :
    (∀ t ∈ ts, t.Fits) ∧ ∃ last, c.Reaches last ∧ done last = true ∧
      Items grammar {} Rule.topItem (c.moved 0 rest) (ts.map (ParseTree.moved 0 rest))
        (last.moved 0 rest) := by
  induction d generalizing c ts with
  | zero => cases h
  | succ d ih =>
    rw [itemsUpTo] at h
    split at h
    next hdone =>
      cases h
      exact ⟨by simp, c, .refl c, hdone, .nil _⟩
    next =>
      split at h
      next => cases h
      next hopen =>
        -- where the text goes on, its end was not touched
        have hknown : rest = [] ∨ grammar.blanksTouch {} c = false ∧
            grammar.touches d {} Rule.topItem (grammar.skip c) = false := by
          cases whole with
          | true => exact .inl (hwhole rfl)
          | false => exact .inr (by simpa using hopen)
        split at h
        next next us hitem =>
          obtain ⟨vs, hvs, rfl⟩ := Option.map_eq_some_iff.mp h
          obtain ⟨hfits, last, hreaches, hlast, hitems⟩ := ih hvs
          obtain ⟨hnext, hus⟩ := (derives_of_outcome d hitem).reaches skipReaches
          have hblanks : grammar.blanks {} (c.moved 0 rest) = (grammar.skip c).moved 0 rest :=
            blanks_moved skipMoves (hknown.imp_right And.left)
          have hitem' : grammar.outcome d {} Rule.topItem (grammar.blanks {} (c.moved 0 rest))
              = .ok (next.moved 0 rest) (us.map (ParseTree.moved 0 rest)) := by
            rw [hblanks, outcome_moved skipMoves d {} _ _ (hknown.imp_right And.right), hitem]
            rfl
          refine ⟨?_, last, (skipReaches c).trans (hnext.trans hreaches), hlast, ?_⟩
          · intro t ht
            exact (List.mem_append.mp ht).elim (hus t) (hfits t)
          · rw [List.map_append]
            exact .cons ⟨by simp, d, hitem'⟩ hitems
        next => cases h

/-- Only blanks are between the cursor and what stands on the line behind `a`, which starts with
`w`: they begin in `a`, or they come to what is visible of the line. -/
def atLine (whole : Bool) (a w : List Char) (c : Cursor) : Bool :=
  c.offset ≤ Peg.size a && Peg.size a < (grammar.skip c).offset ||
    (grammar.skip c).offset == (grammar.skip ⟨w, Peg.size a + 1⟩).offset &&
      (whole || !(grammar.skip c).rest.isEmpty)

/-- Blanks at the end of the first text lead to the second. -/
theorem skip_of_atLine {whole : Bool} {w rest : List Char} (hwhole : whole = true → rest = [])
    (hreaches : Cursor.Reaches ⟨a ++ '\n' :: w, 0⟩ c) (h : atLine whole a w c = true) :
    grammar.skip (c.moved 0 rest) = grammar.skip ⟨w ++ rest, Peg.size a + 1⟩ := by
  rw [atLine, Bool.or_eq_true] at h
  rcases h with h | h
  · -- the cursor is in the first text, and the line feed is among the blanks
    simp only [Bool.and_eq_true, decide_eq_true_eq] at h
    obtain ⟨hle, hlt⟩ := h
    obtain ⟨consumed, htext, hoffset⟩ := hreaches
    obtain ⟨u, ha, hu⟩ : ∃ u, a = consumed ++ u ∧ c.rest = u ++ '\n' :: w := by
      rcases List.append_eq_append_iff.mp htext with ⟨v, hconsumed, hv⟩ | ⟨u, ha, hu⟩
      · rw [hoffset, hconsumed, Peg.size_append] at hle
        obtain rfl : v = [] := Peg.size_eq_zero (by simp at hle; omega)
        exact ⟨[], by simpa using hconsumed.symm, hv.symm⟩
      · exact ⟨u, ha, hu⟩
    have hsize : c.offset + Peg.size u = Peg.size a := by
      rw [hoffset, ha, Peg.size_append, Nat.zero_add]
    have hline : c.offset + Peg.size u < (skipFrom false (u ++ '\n' :: w) c.offset).offset := by
      rw [hsize, ← hu]
      exact hlt
    show skipFrom false (c.rest ++ rest) c.offset = skipFrom false (w ++ rest) (Peg.size a + 1)
    rw [hu, List.append_assoc, List.cons_append, ← hsize]
    exact skipFrom_line hline (w ++ rest)
  · -- the blanks come to the same character from the cursor and from the start of the line
    simp only [Bool.and_eq_true, beq_iff_eq] at h
    obtain ⟨hoffset, hvisible⟩ := h
    have hline : Cursor.Reaches ⟨a ++ '\n' :: w, 0⟩ ⟨w, Peg.size a + 1⟩ :=
      ⟨a ++ ['\n'], by simp, by rw [Peg.size_append, Nat.zero_add]; rfl⟩
    have hskip : grammar.skip c = grammar.skip ⟨w, Peg.size a + 1⟩ :=
      (hreaches.trans (skipReaches c)).unique (hline.trans (skipReaches _)) hoffset
    have hknown : rest = [] ∨ (grammar.skip c).rest ≠ [] := by
      rcases Bool.or_eq_true_iff.mp hvisible with hw | hrest
      · exact .inl (hwhole hw)
      · exact .inr (by simpa using hrest)
    rw [skipMoves 0 rest c hknown, hskip]
    exact (skipMoves 0 rest _ (hskip ▸ hknown)).symm

/-- The module that a text spells before a line that starts with `w`, or that is `w` and the last
one, if its items end before that line and are matched at the depth given. -/
def Module.before (whole : Bool) (d : Nat) (a w : List Char) : Option Module := do
  let ts ← itemsUpTo whole (atLine whole a w) d ⟨a ++ '\n' :: w, 0⟩
  (ts.foldlM Parse.item {}).toOption

/-- Before `b`, of which no more than an initial part is looked at, `a` spells what it spells alone.
Where nothing of `b` is looked at, this is so before every text. -/
def EndsBefore (a b : List Char) : Prop :=
  ∃ w d, w <+: b ∧ Module.before (w == b) d a w = (Module.ofChars a).toOption

theorem toOption_eq_some_iff {α ε : Type} {x : Except ε α} {a : α} :
    x.toOption = some a ↔ x = .ok a := by
  cases x <;> simp [Except.toOption]

/-- Where a text ends before another one, its items are a row up to the other text. -/
theorem EndsBefore.items (h : EndsBefore a b) (ha : Module.ofChars a = .ok m) :
    ∃ ts last, Items grammar {} Rule.topItem ⟨a ++ '\n' :: b, 0⟩ ts last ∧
      grammar.skip last = grammar.skip ⟨b, Peg.size a + 1⟩ ∧
      ts.foldlM Parse.item {} = .ok m := by
  obtain ⟨w, d, ⟨rest, rfl⟩, hbefore⟩ := h
  rw [toOption_eq_some_iff.mpr ha, Module.before] at hbefore
  obtain ⟨ts, hts, hm⟩ := Option.bind_eq_some_iff.mp hbefore
  have hwhole : (w == w ++ rest) = true → rest = [] := by simp
  obtain ⟨hfits, last, hreaches, hlast, hitems⟩ := items_of_itemsUpTo hwhole hts
  refine ⟨ts.map (ParseTree.moved 0 rest), last.moved 0 rest, ?_,
    skip_of_atLine hwhole hreaches hlast, ?_⟩
  · simpa [Cursor.moved] using hitems
  · rw [foldlM_item_moved hfits (toOption_eq_some_iff.mp hm) {}, Module.empty_append]

/-! ## Items that end before a line -/

theorem derives_of_yields {m : Peg.Mode} {e : Peg.Expr Rule}
    (h : grammar.Yields m e c (.ok next ts)) : grammar.Derives m e c next ts := by
  obtain ⟨-, d, hd⟩ := h
  exact derives_of_outcome d hd

/-- A choice between rules shows as one tree, which starts where the rule does. -/
theorem exists_tree_of_any {r : Rule} (rs : List Rule)
    (h : grammar.Derives {} (.any ((r :: rs).map .rule)) c next ts) :
    ∃ t, ts = [t] ∧ t.start = c.offset := by
  induction rs generalizing r with
  | nil =>
    cases h with
    | rule _ => exact ⟨_, rfl, rfl⟩
  | cons r' rs ih =>
    cases h with
    | altLeft h =>
      cases h with
      | rule _ => exact ⟨_, rfl, rfl⟩
    | altRight h => exact ih h

theorem exists_tree_of_topItem (h : grammar.Yields {} Rule.topItem c (.ok next ts)) :
    ∃ t, ts = [t] ∧ t.start = c.offset :=
  exists_tree_of_any [.targetDecl, .typeDef, .globalDef, .functionDef, .functionDecl,
    .attributeGroup, .metadataDef, .comdatDef] (derives_of_yields h)

/-- A row of items is empty, or its first tree starts behind the blanks. -/
theorem start_of_row {stop : Cursor} (h : grammar.Yields {} (.more Rule.topItem) c (.ok stop ts)) :
    (ts = [] ∧ stop = c) ∨ ts.head?.map ParseTree.start = some (grammar.skip c).offset := by
  rcases h.more_cases with hnil | ⟨next, us, vs, hitem, -, rfl⟩
  · exact .inl hnil
  · obtain ⟨t, rfl, ht⟩ := exists_tree_of_topItem hitem
    exact .inr (congrArg some ht)

/-- A row of items up to a line is found, at every depth that is enough. No cursor before its end
is at the line, since an item takes at least one character. -/
theorem itemsUpTo_of_items {last : Cursor} (h : Items grammar {} Rule.topItem c ts last)
    (hreaches : Cursor.Reaches ⟨a ++ '\n' :: b, 0⟩ c)
    (hlast : grammar.skip last = grammar.skip ⟨b, Peg.size a + 1⟩) :
    ∃ d, ∀ d', d ≤ d' → itemsUpTo true (atLine true a b) d' c = some ts := by
  induction h with
  | nil c =>
    refine ⟨1, fun d' hd' => ?_⟩
    obtain ⟨d, rfl⟩ : ∃ d, d' = d + 1 := ⟨d' - 1, by omega⟩
    rw [itemsUpTo, if_pos (by simp [atLine, hlast])]
  | @cons c next last ts us item rest ih =>
    have hitem := derives_of_yields item
    have hnext := (hitem.reaches skipReaches).1
    obtain ⟨d, hd⟩ := ih (hreaches.trans ((skipReaches c).trans hnext)) hlast
    obtain ⟨d', hd'⟩ := item.eventually
    have hopen : atLine true a b c = false := by
      by_contra hdone
      have hskip : grammar.skip (c.moved 0 []) = grammar.skip ⟨b ++ [], Peg.size a + 1⟩ :=
        skip_of_atLine (fun _ => rfl) hreaches (by simpa using hdone)
      have hsame : grammar.skip c = grammar.skip last := by
        rw [hlast]
        simpa [Cursor.moved] using hskip
      have hlt := hitem.length_lt (n := 16) skipReaches (by decide)
      have hle := Peg.Grammar.length_le_of_reaches (rest.reaches skipReaches)
      have hle' := Peg.Grammar.length_le_of_reaches (skipReaches last)
      rw [← hsame] at hle'
      have hblanks : grammar.blanks {} c = grammar.skip c := rfl
      rw [hblanks] at hlt
      omega
    refine ⟨max d d' + 1, fun e he => ?_⟩
    obtain ⟨e, rfl⟩ : ∃ e', e = e' + 1 := ⟨e - 1, by omega⟩
    have hitem' : grammar.outcome e {} Rule.topItem (grammar.skip c) = .ok next ts :=
      hd' e (by omega)
    rw [itemsUpTo, hopen]
    simp [hitem', hd e (by omega)]

/-- **Where a text ends before another one**, exactly: the items of both are some that spell the
first module, and behind them the items of the second text. -/
theorem endsBefore_iff (ha : Module.ofChars a = .ok m) {us : List (ParseTree Rule)}
    (hb : itemsOf b = some us) :
    EndsBefore a b ↔ ∃ ts, ts.foldlM Parse.item {} = .ok m ∧
      itemsOf (a ++ '\n' :: b) = some (ts ++ us.map (ParseTree.moved (Peg.size a + 1) [])) := by
  obtain ⟨stop, hrow, hend⟩ := itemsOf_eq_some_iff.mp hb
  constructor
  · intro h
    obtain ⟨ts, last, hitems, hskip, hm⟩ := h.items ha
    -- the second text, where it stands behind the first
    have hmoved : grammar.Yields {} (.more Rule.topItem) ⟨b, Peg.size a + 1⟩
        (.ok (stop.moved (Peg.size a + 1) []) (us.map (ParseTree.moved (Peg.size a + 1) []))) := by
      obtain ⟨-, d, hd⟩ := hrow
      have hcursor : (⟨b, 0⟩ : Cursor).moved (Peg.size a + 1) [] = ⟨b, Peg.size a + 1⟩ := by
        simp [Cursor.moved]
      refine ⟨by simp, d, ?_⟩
      rw [← hcursor, outcome_moved skipMoves d {} _ _ (.inl rfl), hd]
      rfl
    obtain ⟨-, d, hd⟩ := hmoved
    obtain ⟨stop', hrow', hstop⟩ := outcome_more_congr (m := {}) hskip.symm hd
    refine ⟨ts, hm, itemsOf_eq_some_iff.mpr ⟨stop', hitems.more ⟨by simp, d, hrow'⟩, ?_⟩⟩
    have hrest := congrArg Cursor.rest (skipMoves (Peg.size a + 1) [] stop (.inl rfl))
    refine (congrArg Cursor.rest hstop).trans (hrest.trans ?_)
    simp [Cursor.moved, hend]
  · rintro ⟨ts, hm, hboth⟩
    obtain ⟨stop', hrow', hend'⟩ := itemsOf_eq_some_iff.mp hboth
    have hone : ∀ c next us, grammar.Yields {} Rule.topItem c (.ok next us) → us.length = 1 := by
      intro c next us h
      obtain ⟨t, rfl, -⟩ := exists_tree_of_topItem h
      rfl
    obtain ⟨last, hitems, hlast⟩ := Items.of_more hone hrow'
    have hreaches := hitems.reaches skipReaches
    have hline : Cursor.Reaches ⟨a ++ '\n' :: b, 0⟩ ⟨b, Peg.size a + 1⟩ :=
      ⟨a ++ ['\n'], by simp, by rw [Peg.size_append, Nat.zero_add]; rfl⟩
    have hmoved : grammar.skip ⟨b, Peg.size a + 1⟩
        = (grammar.skip ⟨b, 0⟩).moved (Peg.size a + 1) [] := by
      simpa [Cursor.moved] using skipMoves (Peg.size a + 1) [] ⟨b, 0⟩ (.inl rfl)
    have hskip : grammar.skip last = grammar.skip ⟨b, Peg.size a + 1⟩ := by
      have hlast' := hreaches.trans (skipReaches last)
      have hline' := hline.trans (skipReaches _)
      refine hlast'.unique hline' ?_
      rcases start_of_row hrow with ⟨rfl, rfl⟩ | hstart
      · -- the second text is blank, and so is what is left behind the items
        rcases start_of_row hlast with ⟨-, rfl⟩ | hstart'
        · rw [hlast'.offset_of_nil hend',
            hline'.offset_of_nil (by simp [hmoved, Cursor.moved, hend])]
        · cases hstart'
      · -- the first item behind the line starts where it starts in the second text
        cases us with
        | nil => cases hstart
        | cons u us =>
          rcases start_of_row hlast with ⟨hnil, -⟩ | hstart'
          · cases hnil
          · obtain ⟨rule, start, input, stop, children⟩ := u
            have hstart := Option.some.inj hstart
            have hstart' := Option.some.inj hstart'
            rw [hmoved, ← hstart']
            show start + _ = _ + _
            rw [← hstart]
            rfl
    obtain ⟨d, hd⟩ := itemsUpTo_of_items hitems (.refl _) hskip
    refine ⟨b, d, List.prefix_refl b, ?_⟩
    rw [toOption_eq_some_iff.mpr ha, Module.before, beq_self_eq_true, hd d (Nat.le_refl d)]
    exact toOption_eq_some_iff.mpr hm

/-- A text that ends before another one spells with it the items of both, in order, and the offsets
of the second are counted from the start of the first. It ends before the other one exactly if the
items of both together are some that spell the first module, and those of the second text. -/
theorem ofChars_append_line {a b : List Char} {ma mb : Module} (ha : Module.ofChars a = .ok ma)
    (hb : Module.ofChars b = .ok mb) :
    (EndsBefore a b →
      Module.ofChars (a ++ '\n' :: b) = .ok (ma.append (mb.moved (Peg.size a + 1)))) ∧
    (EndsBefore a b ↔ ∃ ts us, ts.foldlM Parse.item {} = .ok ma ∧ itemsOf b = some us ∧
      itemsOf (a ++ '\n' :: b) = some (ts ++ us.map (ParseTree.moved (Peg.size a + 1) []))) := by
  obtain ⟨us, hus, hmb⟩ := ofChars_eq_ok_iff.mp hb
  refine ⟨fun h => ?_, ?_⟩
  · obtain ⟨ts, hma, hboth⟩ := (endsBefore_iff ha hus).mp h
    refine ofChars_eq_ok_iff.mpr ⟨_, hboth, ?_⟩
    obtain ⟨stop, hrow, -⟩ := itemsOf_eq_some_iff.mp hus
    have hfits := ((derives_of_yields hrow).reaches skipReaches).2
    rw [List.foldlM_append, hma]
    exact foldlM_item_moved hfits hmb ma
  · simp [endsBefore_iff ha hus, hus]

/-- A global that has no initializer. -/
def importText : List Char := "@x = external global i32".toList

def globalText : List Char := "@y = global i32 7".toList

def typeText : List Char := "%T = type i32".toList

/-- The name of a global with `=` behind it is no initializer, so the import ends there. -/
theorem ofChars_append_line_globals :
    ∃ m n, Module.ofChars importText = .ok m ∧ Module.ofChars globalText = .ok n ∧
      EndsBefore importText globalText ∧
      Module.ofChars (importText ++ '\n' :: globalText) = .ok (m.append (n.moved 25)) := by
  have himport : importText = ['@', 'x', ' ', '=', ' ', 'e', 'x', 't', 'e', 'r', 'n', 'a', 'l', ' ',
    'g', 'l', 'o', 'b', 'a', 'l', ' ', 'i', '3', '2'] := String.toList_ofList
  have hglobal : globalText = ['@', 'y', ' ', '='] ++ " global i32 7".toList := by decide
  have hm : Module.ofChars importText
      = .ok { globals := [⟨"x", .int 32, false, none, ["external"], none, 0⟩] } := by
    rw [himport]
    rfl
  have hbefore : Module.before false 400 importText ['@', 'y', ' ', '=']
      = some { globals := [⟨"x", .int 32, false, none, ["external"], none, 0⟩] } := by
    rw [himport]
    rfl
  have hn : okAnd (Module.ofChars globalText) (fun _ => true) = true := by decide +kernel
  obtain ⟨n, hn, -⟩ := exists_of_okAnd hn
  -- the sign behind the name of the second global says that no initializer starts there
  have hends : EndsBefore importText globalText := by
    refine ⟨['@', 'y', ' ', '='], 400, ⟨_, hglobal.symm⟩, ?_⟩
    rw [hm]
    exact hbefore
  exact ⟨_, n, hm, hn, hends, (ofChars_append_line hm hn).1 hends⟩

/-- The name of a type is taken for the initializer of a global that has none. -/
theorem type_name_initializes_import :
    (∃ m, Module.ofChars importText = .ok m) ∧ (∃ n, Module.ofChars typeText = .ok n) ∧
      ∀ m, Module.ofChars (importText ++ '\n' :: typeText) ≠ .ok m := by
  have himport : okAnd (Module.ofChars importText) (fun _ => true) = true := by decide +kernel
  have htype : okAnd (Module.ofChars typeText) (fun _ => true) = true := by decide +kernel
  have hboth : okAnd (Module.ofChars (importText ++ '\n' :: typeText)) (fun _ => true) = false := by
    decide +kernel
  obtain ⟨m, hm, -⟩ := exists_of_okAnd himport
  obtain ⟨n, hn, -⟩ := exists_of_okAnd htype
  refine ⟨⟨m, hm⟩, ⟨n, hn⟩, fun k hk => ?_⟩
  rw [hk] at hboth
  cases hboth

end SafeIR.Source
