import SafeIR.Proofs.Peg.RuleRow
import SafeIR.Proofs.Source.Compose

/-!
# Blocks and their trees

How the blocks of a function are matched and what is read from their trees. A block ends where no
instruction matches. So the next block starts there with a label, and its name does not depend on
the numbers that were given before. Each block and each instruction stands where its tree starts.
-/

namespace SafeIR.Source

open Peg (Cursor Expr Mode ParseTree literal?)
open Peg.Grammar

variable {c next last : Cursor} {t : ParseTree Rule} {ts : List (ParseTree Rule)} {r : Rule}
  {m : Module} {f : Function}

/-! ## How blocks are matched -/

theorem blanks_blanks (c : Cursor) :
    grammar.blanks {} (grammar.blanks {} c) = grammar.blanks {} c :=
  skip_skip c

/-- A rule that matches leaves a tree of its own. -/
theorem yields_rule_inv (h : grammar.Yields {} (.rule r) c (.ok next ts)) :
    ∃ us, ts = [.node r c.offset c.rest next.offset us] ∧
      grammar.Yields (Mode.enter {} (grammar.kind r)) (grammar.body r) c (.ok next us) := by
  obtain ⟨us, hbody, rfl⟩ := h.rule_inv
  exact ⟨us, rfl, hbody⟩

theorem rule_of_row (h : RuleRow grammar r c ts last) : ∀ t ∈ ts, t.rule = r := by
  induction h with
  | nil => simp
  | cons item _ ih =>
    obtain ⟨us, htree, -⟩ := yields_rule_inv item
    cases htree
    exact List.forall_mem_cons.mpr ⟨rfl, ih⟩

theorem row_of_ruleRow (h : RuleRow grammar r c ts last) : ParseTree.Row ts c last := by
  induction h with
  | nil c => exact .refl c
  | @cons c next last t ts item _ ih =>
    have hrest : ParseTree.Row ts next last := .behind (skipReaches next) ih
    have hrow := (item.row skipReaches).append hrest
    exact hrow

theorem filter_rule_self (h : ∀ t ∈ ts, t.rule = r) : ts.filter (·.rule == r) = ts := by
  rw [List.filter_eq_self]
  intro t ht
  simp [h t ht]

theorem filter_rule_nil (h : ∀ t ∈ ts, t.rule ≠ r) : ts.filter (·.rule == r) = [] := by
  rw [List.filter_eq_nil_iff]
  intro t ht
  simp [h t ht]

/-- A block is a label, which may be left out, and instructions as far as they go. -/
theorem block_inv (h : grammar.Yields {} (.rule .block) c (.ok next [t])) :
    ∃ ls is mid, Parse.parts t .blockLabel = ls ∧ Parse.parts t .instruction = is ∧
      grammar.Yields {} (.opt (.rule .blockLabel)) c (.ok mid ls) ∧ is ≠ [] ∧
      RuleRow grammar .instruction (grammar.skip mid) is (grammar.skip next) ∧
      grammar.Yields {} (.rule .instruction) (grammar.skip next) .fail := by
  obtain ⟨us, htree, hbody⟩ := yields_rule_inv h
  obtain ⟨mid, ls, is, hlabel, hplus, rfl⟩ := Yields.seq_inv hbody
  obtain ⟨hne, hrow, hfail⟩ := row_of_plus blanks_blanks hplus
  have hls : ∀ t ∈ ls, t.rule = .blockLabel := by simpa [Expr.rules] using hlabel.rule_mem
  have his := rule_of_row hrow
  cases htree
  refine ⟨ls, is, mid, ?_, ?_, hlabel, hne, hrow, hfail⟩
  · show (ls ++ is).filter _ = ls
    rw [List.filter_append, filter_rule_self hls, filter_rule_nil fun t ht => by simp [his t ht],
      List.append_nil]
  · show (ls ++ is).filter _ = is
    rw [List.filter_append, filter_rule_self his, filter_rule_nil fun t ht => by simp [hls t ht],
      List.nil_append]

/-- A block that starts where no instruction matches has a label. -/
theorem exists_givenLabel (h : grammar.Yields {} (.rule .block) c (.ok next [t]))
    (hskip : grammar.skip c = c) (hfail : grammar.Yields {} (.rule .instruction) c .fail) :
    ∃ name, Parse.givenLabel t = some name := by
  obtain ⟨ls, is, mid, hparts, -, hlabel, hne, hrow, -⟩ := block_inv h
  rcases hlabel.opt_inv with ⟨-, rfl, -⟩ | hlabel
  · -- without a label the block would start with an instruction
    rw [hskip] at hrow
    cases hrow with
    | nil => exact absurd rfl hne
    | cons item _ => cases hfail.unique item
  · obtain ⟨us, rfl, hbody⟩ := yields_rule_inv hlabel
    obtain ⟨_, _, _, hname, _, rfl⟩ := Yields.seq_inv hbody
    obtain ⟨_, -, rfl⟩ := hname.rule_inv
    rw [Parse.givenLabel, hparts]
    exact ⟨_, rfl⟩

/-- The blocks of a row that starts where no instruction matches start at such cursors. -/
theorem fails_of_row (h : RuleRow grammar .block c ts last) (hskip : grammar.skip c = c)
    (hfail : grammar.Yields {} (.rule .instruction) c .fail) :
    ∀ t ∈ ts, ∃ a b, c.Reaches a ∧ grammar.skip a = a ∧
      grammar.Yields {} (.rule .block) a (.ok b [t]) ∧
      grammar.Yields {} (.rule .instruction) a .fail := by
  induction h with
  | nil => simp
  | @cons c next last t ts item rest ih =>
    intro u hu
    rcases List.mem_cons.mp hu with rfl | hu
    · exact ⟨c, next, .refl c, hskip, item, hfail⟩
    · obtain ⟨_, _, _, -, -, -, -, -, hend⟩ := block_inv item
      obtain ⟨a, b, hreaches, h⟩ := ih (skip_skip next) hend u hu
      have hnext := (item.row skipReaches).reaches
      exact ⟨a, b, hnext.trans ((skipReaches next).trans hreaches), h⟩

/-- The blocks behind the first one start where no instruction matches. -/
theorem fails_of_row_tail (h : RuleRow grammar .block c (t :: ts) last) :
    ∀ u ∈ ts, ∃ a b, c.Reaches a ∧ grammar.skip a = a ∧
      grammar.Yields {} (.rule .block) a (.ok b [u]) ∧
      grammar.Yields {} (.rule .instruction) a .fail := by
  cases h with
  | @cons _ next _ _ _ item rest =>
    obtain ⟨_, _, _, -, -, -, -, -, hend⟩ := block_inv item
    intro u hu
    obtain ⟨a, b, hreaches, h⟩ := fails_of_row rest (skip_skip next) hend u hu
    have hnext := (item.row skipReaches).reaches
    exact ⟨a, b, hnext.trans ((skipReaches next).trans hreaches), h⟩

/-- A definition is a heading and blocks as far as they go, before a brace. -/
theorem functionDef_inv (h : grammar.Yields {} (.rule .functionDef) c (.ok next [t])) :
    ∃ hs bs first last, t.children = hs ++ bs ∧ Parse.parts t .block = bs ∧
      ParseTree.Row hs c first ∧ RuleRow grammar .block first bs last ∧
      grammar.Yields {} (.lit "\x7d") last (.ok next []) := by
  obtain ⟨us, htree, hbody⟩ := yields_rule_inv h
  obtain ⟨mid, hs, us', hheading, hbraces, rfl⟩ := Yields.seq_inv hbody
  obtain ⟨brace, os, us'', hbrace, hblocks, rfl⟩ := Yields.seq_inv hbraces
  obtain ⟨stop, bs, es, hplus, hclose, rfl⟩ := Yields.seq_inv hblocks
  obtain ⟨hopen, rfl⟩ := hbrace.lit_inv
  obtain ⟨-, hrow, -⟩ := row_of_plus blanks_blanks hplus
  have hend := hclose.lit_inv.2
  have hhs : ∀ u ∈ hs, u.rule ≠ .block := by
    intro u hu hblock
    have hmem := hheading.rule_mem u hu
    rw [hblock] at hmem
    revert hmem
    decide
  subst hend
  cases htree
  refine ⟨hs, bs, grammar.skip brace, grammar.skip stop, by simp [ParseTree.children], ?_, ?_, hrow,
    hclose⟩
  · show (hs ++ ([] ++ (bs ++ []))).filter _ = bs
    rw [List.nil_append, List.append_nil, List.filter_append, filter_rule_nil hhs,
      filter_rule_self (rule_of_row hrow), List.nil_append]
  · have hbrace := Peg.reaches_of_literal? hopen
    exact (hheading.row skipReaches).extend
      ((skipReaches mid).trans (hbrace.trans (skipReaches brace)))

/-! ## Items of a module -/

theorem topItem_inv (h : grammar.Yields {} Rule.topItem c (.ok next ts)) :
    ∃ u, ts = [u] ∧ grammar.Yields {} (.rule u.rule) c (.ok next [u]) := by
  have single {r : Rule} (h : grammar.Yields {} (.rule r) c (.ok next ts)) :
      ∃ u, ts = [u] ∧ grammar.Yields {} (.rule u.rule) c (.ok next [u]) := by
    obtain ⟨us, rfl, -⟩ := yields_rule_inv h
    exact ⟨_, rfl, h⟩
  -- the alternatives, one after the other
  rcases Yields.alt_inv h with h | h
  · exact single h
  rcases Yields.alt_inv h with h | h
  · exact single h
  rcases Yields.alt_inv h with h | h
  · exact single h
  rcases Yields.alt_inv h with h | h
  · exact single h
  rcases Yields.alt_inv h with h | h
  · exact single h
  rcases Yields.alt_inv h with h | h
  · exact single h
  rcases Yields.alt_inv h with h | h
  · exact single h
  rcases Yields.alt_inv h with h | h
  · exact single h
  · exact single h

/-- The items before one of them, its own match, and the items behind it. -/
theorem items_split (d : Nat) : ∀ {c : Cursor} {ts : List (ParseTree Rule)},
    grammar.outcome d {} (.more Rule.topItem) c = .ok last ts → ∀ u ∈ ts,
      ∃ us vs a b, ts = us ++ u :: vs ∧ ParseTree.Row us c a ∧
        grammar.Yields {} (.rule u.rule) a (.ok b [u]) ∧ ParseTree.Row vs b last := by
  induction d with
  | zero =>
    intro c ts h
    cases h
  | succ d ih =>
    intro c ts h u hu
    rcases Peg.Outcome.elim_eq_ok h with ⟨-, h⟩ | ⟨next, ws, hitem, hmore⟩
    · cases h
      cases hu
    · obtain ⟨vs, hrest, rfl⟩ := Peg.Outcome.prepend_eq_ok hmore
      have hyields := Yields.of_outcome hitem
      obtain ⟨w, rfl, hw⟩ := topItem_inv hyields
      rcases List.mem_cons.mp hu with rfl | hu
      · have hrow := (derives_of_outcome d hrest).row skipReaches
        exact ⟨[], vs, grammar.skip c, next, rfl, skipReaches c, hw, hrow⟩
      · obtain ⟨us, vs', a, b, rfl, hus, hmatch, hvs⟩ := ih hrest u hu
        refine ⟨w :: us, vs', a, b, rfl, ?_, hmatch, hvs⟩
        have hrow := (hyields.row skipReaches).append hus
        exact .behind (skipReaches c) hrow

/-- The items before one of them, its own match, and what stands behind it in the module. -/
theorem module_split (h : grammar.Yields {} (.rule .module) c (.ok next [t])) {u : ParseTree Rule}
    (hu : u ∈ t.children) (hrule : u.rule ≠ .endOfInput) :
    ∃ us vs a b, t.children = us ++ u :: vs ∧ ParseTree.Row us c a ∧
      grammar.Yields {} (.rule u.rule) a (.ok b [u]) ∧ ParseTree.Row vs b next := by
  obtain ⟨children, htree, hbody⟩ := yields_rule_inv h
  obtain ⟨start, ns, rest, hstart, hitems, rfl⟩ := Yields.seq_inv hbody
  obtain ⟨last, ts, es, hstar, hend, rfl⟩ := Yields.seq_inv hitems
  have hstar :
      grammar.Yields {} (.star Rule.topItem) (grammar.blanks {} start) (.ok last ts) := hstar
  obtain ⟨d, hmore⟩ := hstar.exists_succ
  rw [outcome_star _ (blanks_blanks start)] at hmore
  have hnil := hstart.lit_inv.2
  have hreaches := (hstart.row skipReaches).reaches.trans (skipReaches start)
  subst hnil
  cases htree
  have hu : u ∈ ts ++ es := hu
  rcases List.mem_append.mp hu with hu | hu
  · obtain ⟨us, vs, a, b, rfl, hus, hmatch, hvs⟩ := items_split _ hmore u hu
    refine ⟨us, vs ++ es, a, b, by simp [ParseTree.children], .behind hreaches hus, hmatch, ?_⟩
    exact hvs.append (.behind (skipReaches last) (hend.row skipReaches))
  · have hmem : u.rule ∈ [Rule.endOfInput] := hend.rule_mem u hu
    exact absurd (List.mem_singleton.mp hmem) hrule

theorem ofChars_eq_ok {x : List Char} (h : Module.ofChars x = .ok m) :
    ∃ t next, grammar.parse .module x = .ok t ∧
      grammar.Yields {} (.rule .module) ⟨x, 0⟩ (.ok next [t]) ∧
      t.children.foldlM Parse.item {} = .ok m := by
  unfold Module.ofChars at h
  split at h
  next t ht =>
    obtain ⟨next, us, hmatch⟩ := parse_eq_ok_iff.mp ht
    have hyields := Yields.of_outcome hmatch
    obtain ⟨children, htree, -⟩ := yields_rule_inv hyields
    obtain ⟨-, rfl⟩ : _ ∧ us = [] := List.cons.inj htree
    exact ⟨t, next, ht, hyields, h⟩
  next => cases h

/-! ## What is read from blocks -/

theorem offset_of_instruction {i : Instruction} (h : Parse.instruction t = .ok i) :
    i.offset = t.start := by
  unfold Parse.instruction at h
  split at h
  next =>
    obtain ⟨op, -, h⟩ := bind_eq_ok.mp h
    cases h
    rfl
  next => cases h

/-- What a block takes from its tree. -/
structure Block.ReadFrom (b : Block) (t : ParseTree Rule) : Prop where
  offset : b.offset = t.start
  label : ∀ name, Parse.givenLabel t = some name → b.label = name
  instructions : b.instructions.map Instruction.offset
    = (Parse.parts t .instruction).map ParseTree.start

theorem readFrom_of_block {n n' : UInt64} {b : Block} (h : Parse.block n t = .ok (b, n')) :
    b.ReadFrom t := by
  unfold Parse.block at h
  obtain ⟨is, his, h⟩ := bind_eq_ok.mp h
  cases h
  refine ⟨rfl, ?_, map_of_mapM his fun u i hi => offset_of_instruction hi⟩
  intro name hname
  show (Parse.number n (Parse.givenLabel t)).1 = name
  rw [hname]
  rfl

theorem readFrom_of_blocks {n : UInt64} {bs : List Block} (h : Parse.blocks n ts = .ok bs) :
    List.Forall₂ Block.ReadFrom bs ts := by
  induction ts generalizing n bs with
  | nil =>
    cases h
    exact .nil
  | cons t ts ih =>
    obtain ⟨⟨b, n'⟩, hb, h⟩ := bind_eq_ok.mp h
    obtain ⟨bs', hbs, h⟩ := bind_eq_ok.mp h
    cases h
    exact .cons (readFrom_of_block hb) (ih hbs)

theorem readFrom_of_function {isDeclaration : Bool} (h : Parse.function isDeclaration t = .ok f) :
    List.Forall₂ Block.ReadFrom f.blocks (Parse.parts t .block) := by
  unfold Parse.function at h
  split at h
  next ty name _ _ =>
    simp only [bind_eq_ok, pure_eq_ok] at h
    obtain ⟨returnType, -, ⟨params, n⟩, -, handlers, -, bs, hbs, rfl⟩ := h
    exact readFrom_of_blocks hbs
  next => cases h

/-- The tree says what the function is. -/
def Function.ReadFrom (f : Function) (t : ParseTree Rule) : Prop :=
  t.rule = .functionDef ∧ Parse.function false t = .ok f ∨
    t.rule = .functionDecl ∧ Parse.function true t = .ok f

/-- A function comes from its own item. -/
theorem functions_of_item {m' : Module} (h : Parse.item m t = .ok m') (hf : f ∈ m'.functions) :
    f ∈ m.functions ∨ f.ReadFrom t := by
  unfold Parse.item at h
  split at h
  next =>
    cases h
    exact .inl hf
  next =>
    split at h <;> cases h <;> exact .inl hf
  next =>
    obtain ⟨_, -, h⟩ := bind_eq_ok.mp h
    cases h
    exact .inl hf
  next =>
    obtain ⟨_, -, h⟩ := bind_eq_ok.mp h
    cases h
    exact .inl hf
  next hrule =>
    obtain ⟨f', hf', h⟩ := bind_eq_ok.mp h
    cases h
    rcases List.mem_append.mp hf with hf | hf
    · exact .inl hf
    · rw [List.mem_singleton.mp hf]
      exact .inr (.inl ⟨hrule, hf'⟩)
  next hrule =>
    obtain ⟨f', hf', h⟩ := bind_eq_ok.mp h
    cases h
    rcases List.mem_append.mp hf with hf | hf
    · exact .inl hf
    · rw [List.mem_singleton.mp hf]
      exact .inr (.inr ⟨hrule, hf'⟩)
  next =>
    cases h
    exact .inl hf

/-- Every function of a module is read from an item. -/
theorem functions_of_items (h : ts.foldlM Parse.item {} = .ok m) :
    ∀ f ∈ m.functions, ∃ t ∈ ts, f.ReadFrom t := by
  refine foldlM_invariant (P := fun m => ∀ f ∈ m.functions, ∃ t ∈ ts, f.ReadFrom t) h (by simp) ?_
  intro t ht m m' hm hitem f hf
  rcases functions_of_item hitem hf with hf | hf
  · exact hm f hf
  · exact ⟨t, ht, hf⟩

/-- A declaration has no blocks. -/
theorem blocks_of_functionDecl (h : grammar.Yields {} (.rule .functionDecl) c (.ok next [t])) :
    Parse.parts t .block = [] := by
  obtain ⟨us, htree, hbody⟩ := yields_rule_inv h
  cases htree
  refine filter_rule_nil fun u hu hblock => ?_
  have hmem := hbody.rule_mem u hu
  rw [hblock] at hmem
  revert hmem
  decide

/-- A function that has blocks is read from a definition, and the other items stand before it and
behind it. -/
theorem definition_split {x : List Char} (h : Module.ofChars x = .ok m) (hf : f ∈ m.functions)
    (hblocks : f.blocks ≠ []) :
    ∃ t next us u vs a b, grammar.parse .module x = .ok t ∧
      t.children.foldlM Parse.item {} = .ok m ∧ t.children = us ++ u :: vs ∧
      ParseTree.Row us ⟨x, 0⟩ a ∧ grammar.Yields {} (.rule .functionDef) a (.ok b [u]) ∧
      ParseTree.Row vs b next ∧ Parse.function false u = .ok f := by
  obtain ⟨t, next, hparse, hmatch, hm⟩ := ofChars_eq_ok h
  obtain ⟨u, hu, ⟨hrule, hread⟩ | ⟨hrule, hread⟩⟩ := functions_of_items hm f hf
  · obtain ⟨us, vs, a, b, hchildren, hus, hu, hvs⟩ := module_split hmatch hu (by simp [hrule])
    rw [hrule] at hu
    exact ⟨t, next, us, u, vs, a, b, hparse, hm, hchildren, hus, hu, hvs, hread⟩
  · obtain ⟨us, vs, a, b, -, -, hu, -⟩ := module_split hmatch hu (by simp [hrule])
    rw [hrule] at hu
    have hnone := readFrom_of_function hread
    rw [blocks_of_functionDecl hu, List.forall₂_nil_right_iff] at hnone
    exact absurd hnone hblocks

end SafeIR.Source
