import SafeIR.Proofs.Peg.Tree
import SafeIR.Proofs.Result
import SafeIR.Source.Parse

/-!
# Bodies of functions

A definition has a body of at least one block. This is a fact of the grammar: the rule for a
definition matches a block before it may match more of them, and the tree of the definition keeps
the block. Reading the tree makes one block of each.
-/

namespace SafeIR.Source

open Peg (Mode ParseTree)

/-- The tree of a definition has the tree of a block. -/
theorem exists_block_of_functionDef {t : ParseTree Rule} (h : t.Recorded grammar)
    (hr : t.rule = .functionDef) : ∃ b ∈ t.children, b.rule = .block := by
  obtain ⟨r, start, input, stop, children⟩ := t
  cases hr
  obtain ⟨m, next, hm, -, hbody⟩ := h
  -- the heading, the brace, then the blocks
  obtain ⟨_, heading, _, -, hbraced, rfl⟩ := hbody.of_seq
  obtain ⟨_, brace, _, -, hrest, rfl⟩ := hbraced.of_seq
  obtain ⟨_, blocks, close, hblocks, -, rfl⟩ := hrest.of_seq
  obtain ⟨_, first, more, hfirst, -, rfl⟩ := hblocks.of_seq
  obtain ⟨block, hblock, hr⟩ := hfirst.exists_tree hm
  refine ⟨block, List.mem_append_right heading (List.mem_append_right brace ?_), hr⟩
  exact List.mem_append_left close (List.mem_append_left more hblock)

/-- Every definition of the module has a block. -/
def Module.Bodied (m : Module) : Prop :=
  ∀ f ∈ m.functions, f.isDeclaration = false → f.blocks ≠ []

namespace Parse

theorem length_blocks {next : UInt64} {ts : List (ParseTree Rule)} {bs : List Block}
    (h : blocks next ts = .ok bs) : bs.length = ts.length := by
  induction ts generalizing next bs with
  | nil =>
    cases h
    rfl
  | cons t ts ih =>
    obtain ⟨⟨b, next'⟩, -, h⟩ := bind_eq_ok.mp h
    obtain ⟨bs', hbs, h⟩ := bind_eq_ok.mp h
    cases h
    rw [List.length_cons, List.length_cons, ih hbs]

/-- A function has a block for every tree of one. -/
theorem function_shape {isDeclaration : Bool} {t : ParseTree Rule} {f : Function}
    (h : function isDeclaration t = .ok f) :
    f.isDeclaration = isDeclaration ∧ f.blocks.length = (parts t .block).length := by
  unfold function at h
  split at h
  next ty name _ _ =>
    simp only [bind_eq_ok, pure_eq_ok] at h
    obtain ⟨returnType, -, ⟨params, next⟩, -, handlers, -, bs, hbs, rfl⟩ := h
    exact ⟨rfl, length_blocks hbs⟩
  next => cases h

theorem bodied_append {m : Module} {f : Function} (hm : m.Bodied)
    (hf : f.isDeclaration = false → f.blocks ≠ []) :
    Module.Bodied { m with functions := m.functions ++ [f] } := by
  intro f' hf'
  rcases List.mem_append.mp hf' with hf' | hf'
  · exact hm f' hf'
  · rw [List.mem_singleton] at hf'
    exact hf' ▸ hf

/-- One more item keeps every definition bodied. -/
theorem item_bodied {m m' : Module} {t : ParseTree Rule} (ht : t.Recorded grammar)
    (hm : m.Bodied) (h : item m t = .ok m') : m'.Bodied := by
  unfold item at h
  split at h
  next =>
    cases h
    exact hm
  next =>
    split at h <;> cases h <;> exact hm
  next =>
    obtain ⟨_, -, h⟩ := bind_eq_ok.mp h
    cases h
    exact hm
  next =>
    obtain ⟨_, -, h⟩ := bind_eq_ok.mp h
    cases h
    exact hm
  next hr =>
    obtain ⟨f, hf, h⟩ := bind_eq_ok.mp h
    cases h
    refine bodied_append hm fun _ hnil => ?_
    have hlen := (function_shape hf).2
    obtain ⟨b, hb, hbr⟩ := exists_block_of_functionDef ht hr
    have hmem : b ∈ parts t .block := List.mem_filter.mpr ⟨hb, by simp [hbr]⟩
    rw [hnil, List.length_nil] at hlen
    exact absurd hmem (List.length_eq_zero_iff.mp hlen.symm ▸ List.not_mem_nil)
  next =>
    obtain ⟨f, hf, h⟩ := bind_eq_ok.mp h
    cases h
    refine bodied_append hm fun hdecl => ?_
    rw [(function_shape hf).1] at hdecl
    cases hdecl
  next =>
    cases h
    exact hm

end Parse

/-- **Definitions have bodies**: a text that is accepted gives every definition a block. -/
theorem Module.parse_bodied {bytes : List UInt8} {m : Module} (h : Module.parse bytes = .ok m) :
    m.Bodied := by
  unfold Module.parse at h
  split at h
  next => cases h
  next text _ =>
    rw [mapError_eq_ok] at h
    unfold Module.ofChars at h
    split at h
    next t ht =>
      obtain ⟨r, start, input, stop, children⟩ := t
      obtain ⟨m', next, -, -, hbody⟩ := Peg.Grammar.parse_recorded ht
      exact foldlM_invariant h (fun _ hf => nomatch hf) fun t ht a b ha hb =>
        Parse.item_bodied (hbody.recorded t ht) ha hb
    next => cases h

end SafeIR.Source
