import SafeIR.Artifact.Module
import SafeIR.Proofs.Text.Letter
import SafeIR.Proofs.Text.Lines

/-!
# Identifiers stay on a line

Whatever characters a symbol has, the identifier that is made from it is of letters, digits and
underscores, so it does not break the line it stands in.
-/

namespace SafeIR.Artifact

open Text (Unbroken isAlphanum_iff isLower_iff isUpper_iff toNat_toLower toNat_toUpper
  unbroken_append unbroken_intercalate unbroken_nat)

/-! ## Words -/

theorem isAlphanum_of_mem_runsFrom {run cs : List Char} (hrun : ∀ c ∈ run, c.isAlphanum = true)
    {w : List Char} (hw : w ∈ runsFrom run cs) : ∀ c ∈ w, c.isAlphanum = true := by
  induction cs generalizing run with
  | nil =>
    rw [runsFrom] at hw
    split at hw
    next => cases hw
    next =>
      rw [List.mem_singleton.mp hw]
      exact fun c hc => hrun c (List.mem_reverse.mp hc)
  | cons c cs ih =>
    rw [runsFrom] at hw
    split at hw
    next hc => exact ih (List.forall_mem_cons.mpr ⟨hc, hrun⟩) hw
    next =>
      split at hw
      next => exact ih (by simp) hw
      next =>
        rcases List.mem_cons.mp hw with rfl | hw
        · exact fun c hc => hrun c (List.mem_reverse.mp hc)
        · exact ih (by simp) hw

/-- Words are made of the characters that are read. -/
theorem mem_of_mem_wordsFrom {mode : Mode} {word cs w : List Char}
    (hw : w ∈ wordsFrom mode word cs) :
    ∀ c ∈ w, c ∈ word ∨ c ∈ cs := by
  fun_induction wordsFrom mode word cs with
  | case1 => simp at hw
  | case2 mode word h =>
    rw [List.mem_singleton.mp hw]
    exact fun c hc => .inl (List.mem_reverse.mp hc)
  | case3 mode word c =>
    rw [List.mem_singleton.mp hw]
    intro c' hc'
    rcases List.mem_cons.mp (List.mem_reverse.mp hc') with rfl | hc'
    · exact .inr List.mem_cons_self
    · exact .inl hc'
  | case4 mode word c next rest h ih =>
    rcases List.mem_cons.mp hw with rfl | hw
    · intro c' hc'
      rcases List.mem_cons.mp (List.mem_reverse.mp hc') with rfl | hc'
      · exact .inr List.mem_cons_self
      · exact .inl hc'
    · intro c' hc'
      rcases ih hw c' hc' with hc' | hc'
      · cases hc'
      · exact .inr (List.mem_cons_of_mem c hc')
  | case5 mode word c next rest h h' ih =>
    rcases List.mem_cons.mp hw with rfl | hw
    · exact fun c' hc' => .inl (List.mem_reverse.mp hc')
    · intro c' hc'
      rcases ih hw c' hc' with hc' | hc'
      · rw [List.mem_singleton.mp hc']
        exact .inr List.mem_cons_self
      · exact .inr (List.mem_cons_of_mem c hc')
  | case6 mode word c next rest h h' ih =>
    intro c' hc'
    rcases ih hw c' hc' with hc' | hc'
    · rcases List.mem_cons.mp hc' with rfl | hc'
      · exact .inr List.mem_cons_self
      · exact .inl hc'
    · exact .inr (List.mem_cons_of_mem c hc')

theorem isAlphanum_of_mem_words {symbol w : List Char} (hw : w ∈ words symbol) :
    ∀ c ∈ w, c.isAlphanum = true := by
  obtain ⟨run, hrun, hw⟩ := List.mem_flatMap.mp hw
  intro c hc
  have hmem : c ∈ run := (mem_of_mem_wordsFrom hw c hc).resolve_left (by simp)
  exact isAlphanum_of_mem_runsFrom (by simp) hrun c hmem

theorem joined_unbroken {case : Char → Char}
    (hcase : ∀ c, c.isAlphanum = true → case c ≠ '\n') (symbol : List Char) :
    Unbroken (joined case (words symbol)) := by
  refine unbroken_intercalate (by decide) fun t ht => ?_
  obtain ⟨w, hw, rfl⟩ := List.mem_map.mp ht
  rw [Unbroken, String.toList_ofList]
  intro h
  obtain ⟨c, hc, heq⟩ := List.mem_map.mp h
  exact hcase c (isAlphanum_of_mem_words hw c hc) heq

/-! ## Identifiers -/

/-- Letters and digits have larger numbers than a line feed, in either case. -/
theorem ne_newline_of_isAlphanum {c : Char} (h : c.isAlphanum = true) :
    c.toLower ≠ '\n' ∧ c.toUpper ≠ '\n' := by
  have hrange : 48 ≤ c.toNat := by
    rcases isAlphanum_iff.mp h with h | h | h
    · exact Nat.le_trans (by decide) (isUpper_iff.mp h).1
    · exact Nat.le_trans (by decide) (isLower_iff.mp h).1
    · exact (Char.isDigit_iff_toNat.mp h).1
  rw [Ne, Ne, ← Char.toNat_inj, ← Char.toNat_inj, toNat_toLower, toNat_toUpper]
  show ¬ _ = 10 ∧ ¬ _ = 10
  grind [isLower_iff]

theorem functionIdent_unbroken (index : Nat) (name : String) (demangled : Option String) :
    Unbroken (functionIdent index name demangled) := by
  unfold functionIdent
  extract_lets source words ident safe
  have hident : Unbroken ident := by
    unfold ident
    split
    · exact unbroken_append.mpr ⟨by decide, unbroken_nat index⟩
    · exact joined_unbroken (fun c h => (ne_newline_of_isAlphanum h).1) source
  have hsafe : Unbroken safe := by
    unfold safe
    split
    · exact unbroken_append.mpr ⟨by decide, hident⟩
    · exact hident
  split
  · exact unbroken_append.mpr ⟨hsafe, by decide⟩
  · exact hsafe

theorem globalIdent_unbroken (index : Nat) (name : String) : Unbroken (globalIdent index name) := by
  have hstart : Unbroken "GLOBAL_" := by decide
  unfold globalIdent
  extract_lets ident
  split
  · exact unbroken_append.mpr ⟨hstart, unbroken_nat index⟩
  · exact unbroken_append.mpr
      ⟨hstart, joined_unbroken (fun c h => (ne_newline_of_isAlphanum h).2) name.toList⟩

/-! ## Names of a module -/

/-- What holds of base names, and then also with a number behind them, holds of the names that are
made of them. -/
theorem forall_mem_freshAll {P : String → Prop} {used bases : List String}
    (hnumber : ∀ base (n : Nat), P base → P (base ++ "_" ++ toString n))
    (h : ∀ base ∈ bases, P base) : ∀ name ∈ freshAll used bases, P name := by
  induction bases generalizing used with
  | nil => simp [freshAll]
  | cons base bases ih =>
    obtain ⟨hbase, hbases⟩ := List.forall_mem_cons.mp h
    refine List.forall_mem_cons.mpr ⟨?_, ih hbases⟩
    unfold fresh
    split
    next =>
      cases hfind : ((List.range (used.length + 1)).map
          fun i => base ++ "_" ++ toString (i + 2)).find? (! used.contains ·) with
      | none => exact hbase
      | some name =>
        obtain ⟨i, -, rfl⟩ := List.mem_map.mp (List.mem_of_find?_eq_some hfind)
        exact hnumber base (i + 2) hbase
    next => exact hbase

theorem freshAll_unbroken {used bases : List String} (h : ∀ base ∈ bases, Unbroken base) :
    ∀ name ∈ freshAll used bases, Unbroken name := by
  refine forall_mem_freshAll (fun base n hbase => ?_) h
  exact unbroken_append.mpr ⟨unbroken_append.mpr ⟨hbase, by decide⟩, unbroken_nat n⟩

theorem globalNames_unbroken (m : IR.Module) : ∀ name ∈ globalNames m, Unbroken name := by
  refine freshAll_unbroken fun base hbase => ?_
  obtain ⟨g, -, rfl⟩ := List.mem_map.mp hbase
  exact globalIdent_unbroken g.id.index g.name

theorem functionNames_unbroken (m : IR.Module) : ∀ name ∈ functionNames m, Unbroken name := by
  intro name hname
  obtain ⟨f, -, rfl⟩ := List.mem_map.mp hname
  cases hname : List.lookup f.id.index
      (((m.defined ++ m.functions.filter (·.isDeclaration)).map fun f => f.id.index).zip
        (freshAll reserved ((m.defined ++ m.functions.filter (·.isDeclaration)).map
          fun f => functionIdent f.id.index f.name f.demangled))) with
  | none =>
    simp only [Option.getD_none]
    decide
  | some name =>
    simp only [Option.getD_some]
    obtain ⟨_, _, heq, -⟩ := List.lookup_eq_some_iff.mp hname
    have hmem := (List.of_mem_zip (heq ▸ List.mem_append_right _ List.mem_cons_self)).2
    refine freshAll_unbroken (fun base hbase => ?_) name hmem
    obtain ⟨g, -, rfl⟩ := List.mem_map.mp hbase
    exact functionIdent_unbroken _ _ _

end SafeIR.Artifact
