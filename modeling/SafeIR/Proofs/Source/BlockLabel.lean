import SafeIR.Proofs.Source.LabelPlace

/-!
# Labels that start a block

A label behind a line that ends a block starts the next block unless it is taken for an instruction.
If it does so, the label makes no difference to the module but for the name of the block: the module
of the text with another label is the same under `Module.relabel`, with the items behind the label
moved by the difference of the lengths. The main statement is `label_starts_block_iff`.
-/

namespace SafeIR.Source

open Peg (Cursor Edit ParseTree size)
open Peg.Grammar

variable {s : LabelSite} {x y : Label} {head : List Char} {φ : Edit} {p : Nat} {new : String}
  {t u : ParseTree Rule} {ts : List (ParseTree Rule)} {a b : Cursor} {m : Module}

/-- The name that a label gives to its block. -/
def Label.name (x : Label) : String := String.ofList x.chars

theorem Label.unquote_chars (x : Label) : unquote x.chars = x.chars := by
  unfold unquote
  split
  next r hquoted =>
    have hmem : '"' ∈ x.chars := by rw [hquoted]; exact List.mem_cons_self
    have hident : Rule.isIdentChar '"' = true := x.ident '"' hmem
    exact absurd hident (by decide)
  next => rfl

/-! ## Modules with a block of another name -/

/-- The block, with another name if it stands at the offset. -/
def Block.relabel (p : Nat) (name : String) (b : Block) : Block :=
  if b.offset = p then { b with label := name } else b

/-- The function with another name for the block at an offset. -/
def Function.relabel (p : Nat) (name : String) (f : Function) : Function :=
  { f with blocks := f.blocks.map (Block.relabel p name) }

/-- The module, with another name for the block at the offset. -/
def Module.relabel (p : Nat) (name : String) (m : Module) : Module :=
  { m with functions := m.functions.map (Function.relabel p name) }

/-- An instruction of the module stands at the offset. -/
def Module.InstructionAt (m : Module) (o : Nat) : Prop :=
  ∃ f ∈ m.functions, ∃ b ∈ f.blocks, ∃ i ∈ b.instructions, i.offset = o

/-- The instruction at `line` is the last one of its block, and the next block stands at `label` and
has the name. -/
def Module.BlockBehind (m : Module) (line label : Nat) (name : String) : Prop :=
  ∃ f ∈ m.functions, ∃ before prev block after, f.blocks = before ++ prev :: block :: after ∧
    prev.instructions.getLast?.map Instruction.offset = some line ∧
    block.label = name ∧ block.offset = label

instance (m : Module) (o : Nat) : Decidable (m.InstructionAt o) :=
  inferInstanceAs
    (Decidable (∃ f ∈ m.functions, ∃ b ∈ f.blocks, ∃ i ∈ b.instructions, i.offset = o))

@[simp] theorem Block.relabel_offset (p : Nat) (name : String) (b : Block) :
    (b.relabel p name).offset = b.offset := by
  unfold Block.relabel
  split <;> rfl

@[simp] theorem Block.relabel_instructions (p : Nat) (name : String) (b : Block) :
    (b.relabel p name).instructions = b.instructions := by
  unfold Block.relabel
  split <;> rfl

theorem Block.relabel_label {b : Block} (h : b.offset = p) : (b.relabel p new).label = new := by
  rw [Block.relabel, if_pos h]

theorem Function.relabel_eq {f : Function} (h : ∀ b ∈ f.blocks, b.offset ≠ p) :
    f.relabel p new = f := by
  have hblocks : f.blocks.map (Block.relabel p new) = f.blocks :=
    (List.map_congr_left fun b hb => if_neg (h b hb)).trans (List.map_id f.blocks)
  rw [Function.relabel, hblocks]

theorem Module.BlockBehind.relabel {line label : Nat} {old : String}
    (h : m.BlockBehind line label old) (name : String) (g : Nat → Nat) :
    ((m.relabel label name).relocate g).BlockBehind (g line) (g label) name := by
  obtain ⟨f, hf, before, prev, block, after, hblocks, hline, -, hlabel⟩ := h
  let χ := fun b : Block => (b.relabel label name).relocate g
  refine ⟨(f.relabel label name).relocate g, ?_, before.map χ, χ prev, χ block, after.map χ, ?_, ?_,
    ?_, ?_⟩
  · exact List.mem_map_of_mem (List.mem_map_of_mem hf)
  · show (f.blocks.map _).map _ = _
    rw [List.map_map, hblocks, List.map_append]
    rfl
  · show (((prev.relabel label name).instructions.map _).getLast?).map _ = _
    rw [Block.relabel_instructions, List.getLast?_map, Option.map_map]
    obtain ⟨i, hi, rfl⟩ := Option.map_eq_some_iff.mp hline
    rw [hi]
    rfl
  · exact Block.relabel_label hlabel
  · show g (block.relabel label name).offset = g label
    rw [Block.relabel_offset, hlabel]

/-! ## How blocks are read with another label -/

/-- The block has a name in both texts, and the name differs only if the block stands at the
offset. -/
structure Renamed (φ : Edit) (p : Nat) (new : String) (t : ParseTree Rule) : Prop where
  given : ∃ old, Parse.givenLabel t = some old ∧
    Parse.givenLabel (t.edit φ) = some (if t.start = p then new else old)
  kept : ∀ i ∈ Parse.parts t .instruction, i.Kept φ

theorem Renamed.of_kept (h : t.Kept φ) (hstart : t.start ≠ p)
    (hgiven : ∃ old, Parse.givenLabel t = some old) : Renamed φ p new t := by
  obtain ⟨old, hold⟩ := hgiven
  refine ⟨⟨old, hold, ?_⟩, fun i hi => Parse.kept_of_mem_parts h hi⟩
  rw [Parse.givenLabel_edit h, if_neg hstart, hold]

/-- A block that has a name is read alike whatever numbers were given before. -/
theorem Renamed.block (h : Renamed φ p new t) {n k : UInt64} {b : Block}
    (hb : Parse.block n t = .ok (b, k)) (n' : UInt64) :
    ∃ k', Parse.block n' (t.edit φ) = .ok ((b.relabel p new).relocate φ.offset, k') := by
  obtain ⟨⟨old, hold, hnew⟩, hkept⟩ := h
  unfold Parse.block at hb
  obtain ⟨is, his, hb⟩ := bind_eq_ok.mp hb
  have his' : (Parse.parts (t.edit φ) .instruction).mapM Parse.instruction
      = .ok (is.map (Instruction.relocate φ.offset)) := by
    rw [Parse.parts_edit]
    exact Follows.mapM (fun u hu => Parse.instruction_edit (hkept u hu)) is his
  have hlabel : (Parse.number n' (Parse.givenLabel (t.edit φ))).1
      = if t.start = p then new else (Parse.number n (Parse.givenLabel t)).1 := by
    rw [hnew, hold]
    rfl
  have hblock : Block.mk (Parse.number n' (Parse.givenLabel (t.edit φ))).1
        (is.map (Instruction.relocate φ.offset)) (t.edit φ).start
      = ((Block.mk (Parse.number n (Parse.givenLabel t)).1 is t.start).relabel p new).relocate
          φ.offset := by
    rw [hlabel, ParseTree.start_edit, Block.relabel]
    by_cases hstart : t.start = p
    · rw [if_pos hstart, if_pos hstart]
      rfl
    · rw [if_neg hstart, if_neg hstart]
      rfl
  cases hb
  exact ⟨_, bind_eq_ok.mpr ⟨_, his', congrArg (fun b => Except.ok (b, _)) hblock⟩⟩

theorem blocks_renamed (h : ∀ t ∈ ts, Renamed φ p new t) (n n' : UInt64) :
    Follows (List.map fun b => (b.relabel p new).relocate φ.offset) (Parse.blocks n ts)
      (Parse.blocks n' (ts.map (ParseTree.edit φ))) := by
  induction ts generalizing n n' with
  | nil => exact .ok _
  | cons t ts ih =>
    intro bs hbs
    obtain ⟨⟨b, k⟩, hb, hbs⟩ := bind_eq_ok.mp hbs
    obtain ⟨bs', hbs', hbs⟩ := bind_eq_ok.mp hbs
    cases hbs
    obtain ⟨k', hb'⟩ := (h t List.mem_cons_self).block hb n'
    have hrest := ih (fun u hu => h u (List.mem_cons_of_mem t hu)) k k' bs' hbs'
    exact bind_eq_ok.mpr ⟨_, hb', bind_eq_ok.mpr ⟨_, hrest, rfl⟩⟩

/-- Only the first block may be without a name. -/
theorem blocks_relabel (hkept : t.Kept φ) (hstart : t.start ≠ p)
    (h : ∀ u ∈ ts, Renamed φ p new u) (n : UInt64) :
    Follows (List.map fun b => (b.relabel p new).relocate φ.offset) (Parse.blocks n (t :: ts))
      (Parse.blocks n ((t :: ts).map (ParseTree.edit φ))) := by
  intro bs hbs
  obtain ⟨⟨b, k⟩, hb, hbs⟩ := bind_eq_ok.mp hbs
  obtain ⟨bs', hbs', hbs⟩ := bind_eq_ok.mp hbs
  cases hbs
  have hfirst : b.relabel p new = b := by
    rw [Block.relabel, if_neg]
    rw [(readFrom_of_block hb).offset]
    exact hstart
  -- the first block leaves the same number behind
  have hb' := Parse.block_edit n hkept (b, k) hb
  have hrest := blocks_renamed h k k bs' hbs'
  refine bind_eq_ok.mpr ⟨_, hb', bind_eq_ok.mpr ⟨_, hrest, ?_⟩⟩
  rw [List.map_cons, hfirst]
  rfl

/-- A function without a block at the offset is read as it is in the edited text. -/
theorem function_off_label (isDeclaration : Bool) (hkept : t.Kept φ)
    (hoff : ∀ u ∈ Parse.parts t .block, u.start ≠ p) :
    Follows (fun f => (f.relabel p new).relocate φ.offset) (Parse.function isDeclaration t)
      (Parse.function isDeclaration (t.edit φ)) := by
  refine (Parse.function_edit isDeclaration hkept).congr fun f hf => ?_
  rw [Function.relabel_eq]
  intro b hb
  obtain ⟨u, hu, hread⟩ := exists_of_mem_forall₂ (readFrom_of_function hf).flip hb
  rw [Block.ReadFrom.offset hread]
  exact hoff u hu

namespace LabelSite

theorem givenLabel_labelTree (h : Parse.parts t .blockLabel = [s.labelTree x p]) :
    Parse.givenLabel t = some x.name := by
  rw [Parse.givenLabel, h]
  show some (String.ofList (unquote
    (ParseTree.takeBytes (p + size x.chars - p) (s.fromLabel x)))) = _
  rw [Nat.add_sub_cancel_left, fromLabel, ParseTree.takeBytes_size, x.unquote_chars]
  rfl

namespace Split

theorem renamed_block (h : s.Split x head u a b) :
    Renamed (s.relabel x y (s.labelOffset head)) (s.labelOffset head) y.name h.block := by
  obtain ⟨hlabel, hkept, -⟩ := block_at_label (y := y) h.label_eq h.block_match
  refine ⟨⟨x.name, givenLabel_labelTree hlabel, ?_⟩, hkept⟩
  rw [if_pos h.block_start]
  refine givenLabel_labelTree (s := s) (p := s.labelOffset head) ?_
  rw [Parse.parts_edit, hlabel, List.map_singleton, labelTree_edit]

/-- The function of the label is read alike with another label, but for the name of its block. -/
theorem function_relabel (h : s.Split x head u a b) :
    Follows (fun f => (f.relabel (s.labelOffset head) y.name).relocate
        (s.relabel x y (s.labelOffset head)).offset)
      (Parse.function false u)
      (Parse.function false (u.edit (s.relabel x y (s.labelOffset head)))) := by
  obtain ⟨t, ts, hfirst⟩ := List.exists_cons_of_ne_nil (l := h.before ++ [h.prev]) (by simp)
  have hparts : h.before ++ h.prev :: h.block :: h.after = t :: (ts ++ h.block :: h.after) := by
    rw [← List.cons_append, ← hfirst, List.append_assoc, List.singleton_append]
  have hbefore : ∀ v ∈ t :: ts, v.Kept (s.relabel x y (s.labelOffset head)) ∧
      v.start ≠ s.labelOffset head := by
    intro v hv
    rw [← hfirst] at hv
    exact ⟨h.before_kept v hv, Nat.ne_of_lt (h.before_start v hv)⟩
  -- every block behind the first one has a label
  have hrow := h.blocks_row
  rw [hparts] at hrow
  have hgiven : ∀ v ∈ ts ++ h.block :: h.after, ∃ old, Parse.givenLabel v = some old := by
    intro v hv
    obtain ⟨c, next, -, hskip, hmatch, hfails⟩ := fails_of_row_tail hrow v hv
    exact exists_givenLabel hmatch hskip hfails
  have hrenamed : ∀ v ∈ ts ++ h.block :: h.after,
      Renamed (s.relabel x y (s.labelOffset head)) (s.labelOffset head) y.name v := by
    intro v hv
    have hv' := hgiven v hv
    rcases List.mem_append.mp hv with hv | hv
    · obtain ⟨hkept, hstart⟩ := hbefore v (List.mem_cons_of_mem t hv)
      exact .of_kept hkept hstart hv'
    rcases List.mem_cons.mp hv with rfl | hv
    · exact h.renamed_block
    · exact .of_kept (h.after_kept v hv) (Nat.ne_of_gt (h.after_start v hv)) hv'
  obtain ⟨hkept, hstart⟩ := hbefore t List.mem_cons_self
  have hheading :
      ∀ v ∈ u.children, v.rule ≠ .block → v.Kept (s.relabel x y (s.labelOffset head)) := by
    intro v hv hrule
    rw [h.children_eq] at hv
    rcases List.mem_append.mp hv with hv | hv
    · exact h.heading_kept v hv
    · rw [← h.parts_eq] at hv
      exact absurd (beq_iff_eq.mp (List.mem_filter.mp hv).2) hrule
  have hblocks (n : UInt64) : Follows
      (List.map fun b => (b.relabel (s.labelOffset head) y.name).relocate
        (s.relabel x y (s.labelOffset head)).offset)
      (Parse.blocks n (Parse.parts u .block)) (Parse.blocks n
        ((Parse.parts u .block).map (ParseTree.edit (s.relabel x y (s.labelOffset head))))) := by
    rw [h.parts_eq, hparts]
    exact blocks_relabel hkept hstart hrenamed n
  refine (Parse.function_edit_blocks false hheading hblocks).congr fun f _ => ?_
  simp only [Function.relabel, Function.relocate, List.map_map]
  rfl

/-- The label has started a block. -/
theorem blockBehind (h : s.Split x head u a b) {f : Function} (hf : Parse.function false u = .ok f)
    (hm : f ∈ m.functions) : m.BlockBehind (s.lineOffset head) (s.labelOffset head) x.name := by
  have hread := readFrom_of_function hf
  rw [h.parts_eq] at hread
  obtain ⟨prev, rest, hprev, hrest, hdrop⟩ :=
    List.forall₂_cons_right_iff.mp (List.forall₂_drop_append _ _ _ hread)
  obtain ⟨block, after, hblock, -, rfl⟩ := List.forall₂_cons_right_iff.mp hrest
  refine ⟨f, hm, f.blocks.take h.before.length, prev, block, after, ?_, ?_, ?_, ?_⟩
  · rw [← hdrop, List.take_append_drop]
  · obtain ⟨is, i, his, hi⟩ := h.prev_line
    rw [← List.getLast?_map, hprev.instructions, his, List.map_append, List.map_singleton,
      List.getLast?_concat, hi]
  · exact hblock.label _ (givenLabel_labelTree
      (block_at_label (y := x) h.label_eq h.block_match).1)
  · rw [hblock.offset, h.block_start]

end Split

/-! ## Texts with another label -/

/-- The items of a text around the function of the label. -/
theorem exists_items (hx : takenForInstruction x.chars = false)
    (h : Module.ofChars (s.text x head) = .ok m) (hline : m.InstructionAt (s.lineOffset head)) :
    ∃ t next us u vs a b f, grammar.parse .module (s.text x head) = .ok t ∧
      t.children.foldlM Parse.item {} = .ok m ∧ t.children = us ++ u :: vs ∧
      ParseTree.Row us ⟨s.text x head, 0⟩ a ∧ u.rule = .functionDef ∧
      Nonempty (s.Split x head u a b) ∧ ParseTree.Row vs b next ∧
      f ∈ m.functions ∧ Parse.function false u = .ok f := by
  obtain ⟨f, hf, blk, hblk, i, hi, hoffset⟩ := hline
  obtain ⟨t, next, us, u, vs, a, b, hparse, hm, hchildren, hus, hu, hvs, hread⟩ :=
    definition_split h hf (List.ne_nil_of_mem hblk)
  -- the line has a tree in one of the blocks
  obtain ⟨v, hv, hblock⟩ := exists_of_mem_forall₂ (readFrom_of_function hread).flip hblk
  have hmem : i.offset ∈ (Parse.parts v .instruction).map ParseTree.start := by
    rw [← Block.ReadFrom.instructions hblock]
    exact List.mem_map_of_mem hi
  obtain ⟨j, hj, hstart⟩ := List.mem_map.mp hmem
  have hrule : u.rule = .functionDef := by
    obtain ⟨_, htree, -⟩ := yields_rule_inv hu
    rw [(List.cons.inj htree).1]
    rfl
  exact ⟨t, next, us, u, vs, a, b, f, hparse, hm, hchildren, hus, hrule,
    exists_split hx hu hus.reaches hv hj (hstart.trans hoffset), hvs, hf, hread⟩

/-- **The module with another label**: where neither label is taken for an instruction, only the
name of the block and the offsets behind the label change. -/
theorem ofChars_relabel (hx : takenForInstruction x.chars = false)
    (hy : takenForInstruction y.chars = false) (h : Module.ofChars (s.text x head) = .ok m)
    (hline : m.InstructionAt (s.lineOffset head)) :
    Module.ofChars (s.text y head) = .ok ((m.relabel (s.labelOffset head) y.name).relocate
      (s.relabel x y (s.labelOffset head)).offset) := by
  obtain ⟨t, next, us, u, vs, a, b, f, hparse, hm, hchildren, hus, hrule, ⟨hsplit⟩, hvs, -, -⟩ :=
    exists_items hx h hline
  let φ := s.relabel x y (s.labelOffset head)
  let χ := fun f : Function => (f.relabel (s.labelOffset head) y.name).relocate φ.offset
  have horigin : s.UpTo x (s.labelOffset head) ⟨s.text x head, 0⟩ := ⟨_, ahead_text head⟩
  have hend := hsplit.behind_end
  have item {v : ParseTree Rule} (hkept : v.Kept φ)
      (hoff : ∀ w ∈ v.children, w.start ≠ s.labelOffset head) (n : Module) :
      Follows (({} : Module).followedBy φ χ) (Parse.item n v)
        (Parse.item (({} : Module).followedBy φ χ n) (v.edit φ)) := by
    have hblocks : ∀ w ∈ Parse.parts v .block, w.start ≠ s.labelOffset head :=
      fun w hw => hoff w (List.mem_filter.mp hw).1
    exact item_follows (fun _ => hkept) (fun _ => function_off_label false hkept hblocks)
      (fun _ => function_off_label true hkept hblocks) {} n
  have hfollows : Follows (({} : Module).followedBy φ χ) (t.children.foldlM Parse.item {})
      ((t.children.map (ParseTree.edit φ)).foldlM Parse.item
        (({} : Module).followedBy φ χ {})) := by
    refine .foldlM ({} : Module) fun v hv n => ?_
    rw [hchildren] at hv
    rcases List.mem_append.mp hv with hv | hv
    · -- an item before the function
      have hkept := ParseTree.allKept_iff.mp
        (hus.allKept (keeps_upTo (y := y)) horigin hsplit.upTo_start) v hv
      refine item hkept (fun w hw => ?_) n
      obtain ⟨c, hstart, -, _, -, hle⟩ := hus.exists_child hv hw
      have hlt := hsplit.start_lt
      omega
    rcases List.mem_cons.mp hv with rfl | hv
    · exact item_follows (fun hne => absurd hrule hne) (fun _ => hsplit.function_relabel)
        (fun hdecl => by rw [hrule] at hdecl; cases hdecl) {} n
    · -- an item behind it
      have hlast := hend.of_reaches hvs.reaches
      have hkept := ParseTree.allKept_iff.mp
        (hvs.allKept (keeps_behind (y := y)) hend hlast) v hv
      refine item hkept (fun w hw => ?_) n
      obtain ⟨c, hstart, hreaches, -⟩ := hvs.exists_child hv hw
      have hlt := (hend.of_reaches hreaches).lt
      omega
  have hmodule : ({} : Module).followedBy φ χ m
      = (m.relabel (s.labelOffset head) y.name).relocate φ.offset := by
    simp [Module.followedBy, Module.append, Module.mapItems, Module.relabel, Module.relocate, χ]
  unfold Module.ofChars
  rw [parse_relabel hx hy hparse]
  show (t.edit φ).children.foldlM Parse.item {} = _
  rw [ParseTree.children_edit, ← hmodule]
  exact hfollows m hm

/-- A label that starts a block behind another block is not taken for an instruction. -/
theorem not_taken_of_blockBehind {line : Nat} (h : Module.ofChars (s.text x head) = .ok m)
    (hbehind : m.BlockBehind line (s.labelOffset head) new) :
    takenForInstruction x.chars = false := by
  obtain ⟨f, hf, before, prev, block, after, hblocks, -, -, hlabel⟩ := hbehind
  obtain ⟨t, next, us, u, vs, a, b, -, -, -, hus, hu, -, hread⟩ :=
    definition_split h hf (by simp [hblocks])
  obtain ⟨hs, bs, first, last, -, hparts, hheading, hrow, -⟩ := functionDef_inv hu
  have hall := readFrom_of_function hread
  rw [hparts, hblocks] at hall
  -- the tree of the block stands behind another one
  obtain ⟨c, cs, hcons, hmem⟩ :
      ∃ c cs, before ++ prev :: block :: after = c :: cs ∧ block ∈ cs := by
    cases before with
    | nil => exact ⟨prev, block :: after, rfl, List.mem_cons_self⟩
    | cons c cs => exact ⟨c, cs ++ prev :: block :: after, rfl, by simp⟩
  rw [hcons] at hall
  obtain ⟨v, ws, -, hrest, rfl⟩ := List.forall₂_cons_left_iff.mp hall
  obtain ⟨w, hw, hblock⟩ := exists_of_mem_forall₂ hrest.flip hmem
  obtain ⟨start, stop, hstart, -, hmatch, hfails⟩ := fails_of_row_tail hrow w hw
  have hoffset : start.offset = s.labelOffset head := by
    obtain ⟨_, htree, -⟩ := yields_rule_inv hmatch
    rw [← hlabel, Block.ReadFrom.offset hblock, (List.cons.inj htree).1, ParseTree.start]
  have hreaches := hus.reaches.trans (hheading.reaches.trans hstart)
  obtain ⟨hrest, -⟩ := atLabel_of_offset hreaches hoffset
  -- no instruction matches there, but one would if the label were taken for it
  cases htaken : takenForInstruction x.chars with
  | false => rfl
  | true =>
    have hmatches := decides_instruction {} x.chars s.tail start.offset x.ident
    rw [htaken] at hmatches
    obtain ⟨next, ts, htakes⟩ := hmatches
    have hstart : start = ⟨x.chars ++ ':' :: s.tail, start.offset⟩ :=
      congrArg (Cursor.mk · start.offset) hrest
    rw [hstart] at hfails
    cases hfails.unique htakes

/-- Up to the label nothing moves. -/
theorem relabel_offset_le {o : Nat} (h : o ≤ p) : (s.relabel x y p).offset o = o := if_pos h

end LabelSite

/-- A label that is taken for no instruction. -/
def Label.bb0 : Label := ⟨['b', 'b', '0'], by decide, List.all_eq_true.mp (by decide)⟩

/-- **A label starts its block** behind a line that ends the block before, in every text that spells
a module with the label `bb0`, exactly if it is not taken for an instruction. Then the module is
that of `bb0` but for the name of the block and the offsets behind the label. -/
theorem label_starts_block_iff (s : LabelSite) (l : Label) (head : List Char)
    (h : Module.ofChars (s.text .bb0 head) = .ok m) (hline : m.InstructionAt (s.lineOffset head)) :
    ((∃ m', Module.ofChars (s.text l head) = .ok m' ∧
        m'.BlockBehind (s.lineOffset head) (s.labelOffset head) l.name) ↔
      takenForInstruction l.chars = false) ∧
    (takenForInstruction l.chars = false →
      Module.ofChars (s.text l head) = .ok ((m.relabel (s.labelOffset head) l.name).relocate
        (s.relabel .bb0 l (s.labelOffset head)).offset)) := by
  have hbb0 : takenForInstruction Label.bb0.chars = false := by decide
  have hmodule (hl : takenForInstruction l.chars = false) :=
    LabelSite.ofChars_relabel hbb0 hl h hline
  refine ⟨⟨?_, ?_⟩, hmodule⟩
  · rintro ⟨m', hm', hbehind⟩
    exact LabelSite.not_taken_of_blockBehind hm' hbehind
  · intro hl
    obtain ⟨_, _, _, u, _, a, b, f, -, -, -, -, -, ⟨hsplit⟩, -, hf, hread⟩ :=
      LabelSite.exists_items hbb0 h hline
    have hbehind := (hsplit.blockBehind hread hf).relabel l.name
      (s.relabel .bb0 l (s.labelOffset head)).offset
    rw [LabelSite.relabel_offset_le (s.lineOffset_le head),
      LabelSite.relabel_offset_le (Nat.le_refl _)] at hbehind
    exact ⟨_, hmodule hl, hbehind⟩

/-- A branch to a block, and the block with a line that returns. -/
def branchTo (target : Label) : LabelSite where
  indent := [' ', ' ']
  line := .br target
  gap := ['\n']
  tail := "\n  ret void\n\x7d".toList
  indent_blank := List.all_eq_true.mp (by decide)
  gap_blank := List.all_eq_true.mp (by decide)
  gap_ne_nil := by decide

/-- What stands before the branch. -/
def entryHead : List Char := "define void @f() \x7b\nentry:".toList

def Label.unreachable : Label := ⟨"unreachable".toList, by decide, List.all_eq_true.mp (by decide)⟩

def Label.hyphenated : Label := ⟨['x', '-', 'y'], by decide, List.all_eq_true.mp (by decide)⟩

/-- The keyword alone is a label, though an instruction starts with it. -/
theorem label_starts_block_iff_unreachable :
    ∃ m, Module.ofChars ((branchTo .unreachable).text .bb0 entryHead) = .ok m ∧
      m.InstructionAt ((branchTo .unreachable).lineOffset entryHead) ∧
      ∃ m', Module.ofChars ((branchTo .unreachable).text .unreachable entryHead) = .ok m' ∧
        m'.BlockBehind ((branchTo .unreachable).lineOffset entryHead)
          ((branchTo .unreachable).labelOffset entryHead) Label.unreachable.name := by
  have hread : okAnd (Module.ofChars ((branchTo .unreachable).text .bb0 entryHead))
      (fun m => m.InstructionAt ((branchTo .unreachable).lineOffset entryHead)) = true := by
    decide +kernel
  obtain ⟨m, hm, hline⟩ := exists_of_okAnd hread
  have hline := of_decide_eq_true hline
  exact ⟨m, hm, hline, (label_starts_block_iff _ .unreachable entryHead hm hline).1.mpr (by decide)⟩

/-- A hyphen in a label makes it an operation of the block before. -/
theorem hyphenated_label_starts_no_block :
    (∃ m, Module.ofChars ((branchTo .hyphenated).text .bb0 entryHead) = .ok m ∧
      m.InstructionAt ((branchTo .hyphenated).lineOffset entryHead)) ∧
    ∃ m, Module.ofChars ((branchTo .hyphenated).text .hyphenated entryHead) = .ok m ∧
      m.functions.map (fun f => f.blocks.map Block.label) = [["entry"]] := by
  have hbb0 : okAnd (Module.ofChars ((branchTo .hyphenated).text .bb0 entryHead))
      (fun m => m.InstructionAt ((branchTo .hyphenated).lineOffset entryHead)) = true := by
    decide +kernel
  have htaken : okAnd (Module.ofChars ((branchTo .hyphenated).text .hyphenated entryHead))
      (fun m => decide (m.functions.map (fun f => f.blocks.map Block.label) = [["entry"]])) =
      true := by
    decide +kernel
  obtain ⟨m, hm, hline⟩ := exists_of_okAnd hbb0
  obtain ⟨m', hm', hlabels⟩ := exists_of_okAnd htaken
  exact ⟨⟨m, hm, of_decide_eq_true hline⟩, m', hm', of_decide_eq_true hlabels⟩

end SafeIR.Source
