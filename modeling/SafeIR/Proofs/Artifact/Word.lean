import Mathlib.Data.List.DropRight
import SafeIR.Proofs.Artifact.Name

/-!
# Symbols of one word

Many symbols become the same identifier. Where the identifier is a single word, `words_eq_singleton`
says which: those that have the word, in a case that does not divide it, between characters that are
no letters or digits. `mem_freshAll` says when an identifier is given as it is, without a number.
-/

namespace SafeIR.Artifact

variable {word symbol : List Char}

/-! ## Runs of letters and digits -/

/-- A symbol without what stands before its first and behind its last letter or digit. -/
def trimmed (symbol : List Char) : List Char :=
  (symbol.dropWhile (! ·.isAlphanum)).rdropWhile (! ·.isAlphanum)

/-- A word between characters that are no letters or digits. -/
structure Framed (word symbol : List Char) : Prop where
  parts : ∃ before after, symbol = before ++ word ++ after ∧
    (∀ c ∈ before, c.isAlphanum = false) ∧ ∀ c ∈ after, c.isAlphanum = false

theorem framed_trimmed (symbol : List Char) : Framed (trimmed symbol) symbol := by
  refine ⟨symbol.takeWhile (! ·.isAlphanum),
    (symbol.dropWhile (! ·.isAlphanum)).rtakeWhile (! ·.isAlphanum), ?_, ?_, ?_⟩
  · rw [List.append_assoc, trimmed, List.rdropWhile_append_rtakeWhile,
      List.takeWhile_append_dropWhile]
  · intro c hc
    simpa using List.mem_takeWhile_imp hc
  · intro c hc
    simpa using List.mem_rtakeWhile_imp hc

theorem dropWhile_append_word {before : List Char} (hbefore : ∀ c ∈ before, c.isAlphanum = false)
    (hne : word ≠ []) (hword : ∀ c ∈ word, c.isAlphanum = true) (rest : List Char) :
    (before ++ word ++ rest).dropWhile (! ·.isAlphanum) = word ++ rest := by
  rw [List.append_assoc, List.dropWhile_append_of_pos fun c hc => by simp [hbefore c hc]]
  obtain ⟨c, cs, rfl⟩ := List.exists_cons_of_ne_nil hne
  rw [List.cons_append, List.dropWhile_cons_of_neg (by simp [hword c List.mem_cons_self])]

theorem Framed.trimmed_eq (h : Framed word symbol) (hne : word ≠ [])
    (hword : ∀ c ∈ word, c.isAlphanum = true) : trimmed symbol = word := by
  obtain ⟨before, after, rfl, hbefore, hafter⟩ := h.parts
  rw [trimmed, dropWhile_append_word hbefore hne hword, List.rdropWhile, List.reverse_append,
    ← List.append_nil (after.reverse ++ word.reverse),
    dropWhile_append_word (by simpa using hafter) (by simpa using hne) (by simpa using hword),
    List.append_nil, List.reverse_reverse]

theorem runsFrom_append {before : List Char} (hbefore : ∀ c ∈ before, c.isAlphanum = false)
    (rest : List Char) : runsFrom [] (before ++ rest) = runsFrom [] rest := by
  induction before with
  | nil => rfl
  | cons c before ih =>
    obtain ⟨hc, hbefore⟩ := List.forall_mem_cons.mp hbefore
    rw [List.cons_append, runsFrom, hc]
    exact ih hbefore

theorem runsFrom_of_ne_nil {run : List Char} (hrun : run ≠ []) (cs : List Char) :
    runsFrom run cs = (run.reverse ++ cs.takeWhile Char.isAlphanum)
      :: runsFrom [] (cs.dropWhile Char.isAlphanum) := by
  induction cs generalizing run with
  | nil => simp [runsFrom, hrun]
  | cons c cs ih =>
    rw [runsFrom]
    cases hc : c.isAlphanum with
    | true => simp [ih, hc]
    | false => simp [runsFrom, hrun, hc]

theorem runsFrom_eq_nil {cs : List Char} :
    runsFrom [] cs = [] ↔ ∀ c ∈ cs, c.isAlphanum = false := by
  induction cs with
  | nil => simp [runsFrom]
  | cons c cs ih =>
    rw [runsFrom, List.forall_mem_cons, ← ih]
    cases c.isAlphanum with
    | false => simp
    | true => simp [runsFrom_of_ne_nil]

theorem ne_nil_of_mem_runsFrom {run cs w : List Char} (h : w ∈ runsFrom run cs) : w ≠ [] := by
  induction cs generalizing run with
  | nil =>
    rw [runsFrom] at h
    split at h
    next => cases h
    next hrun =>
      rw [List.mem_singleton.mp h]
      simpa using hrun
  | cons c cs ih =>
    rw [runsFrom] at h
    split at h
    next => exact ih h
    next =>
      split at h
      next => exact ih h
      next hrun =>
        rcases List.mem_cons.mp h with rfl | h
        · simpa using hrun
        · exact ih h

theorem framed_of_runsFrom (h : runsFrom [] symbol = [word]) : word ≠ [] ∧ Framed word symbol := by
  induction symbol with
  | nil => simp [runsFrom] at h
  | cons c cs ih =>
    rw [runsFrom] at h
    cases hc : c.isAlphanum with
    | false =>
      simp only [hc, Bool.false_eq_true, if_false, List.isEmpty_nil, if_true] at h
      obtain ⟨hne, before, after, rfl, hbefore, hafter⟩ := ih h
      refine ⟨hne, c :: before, after, rfl, ?_, hafter⟩
      exact List.forall_mem_cons.mpr ⟨hc, hbefore⟩
    | true =>
      rw [hc, if_pos rfl, runsFrom_of_ne_nil (by simp)] at h
      obtain ⟨rfl, hrest⟩ := List.cons_eq_cons.mp h
      refine ⟨by simp, [], cs.dropWhile Char.isAlphanum, ?_, by simp, runsFrom_eq_nil.mp hrest⟩
      simp [List.takeWhile_append_dropWhile]

theorem Framed.runsFrom_eq (h : Framed word symbol) (hne : word ≠ [])
    (hword : ∀ c ∈ word, c.isAlphanum = true) : runsFrom [] symbol = [word] := by
  obtain ⟨before, after, rfl, hbefore, hafter⟩ := h.parts
  obtain ⟨c, cs, rfl⟩ := List.exists_cons_of_ne_nil hne
  obtain ⟨hc, hcs⟩ := List.forall_mem_cons.mp hword
  rw [List.append_assoc, runsFrom_append hbefore, List.cons_append, runsFrom, hc, if_pos rfl,
    runsFrom_of_ne_nil (by simp), List.takeWhile_append_of_pos hcs,
    List.dropWhile_append_of_pos hcs]
  cases after with
  | nil => simp [runsFrom]
  | cons d after =>
    obtain ⟨hd, -⟩ := List.forall_mem_cons.mp hafter
    simp [hd, runsFrom_eq_nil.mpr hafter]

/-! ## Words -/

/-- Words, one after the other, are what was read. -/
theorem flatten_wordsFrom (mode : Mode) (word cs : List Char) :
    (wordsFrom mode word cs).flatten = word.reverse ++ cs := by
  fun_induction wordsFrom mode word cs <;> simp_all

theorem wordsFrom_ne_nil (mode : Mode) (word : List Char) {cs : List Char} (h : cs ≠ []) :
    wordsFrom mode word cs ≠ [] := by
  intro hnil
  have hflat := flatten_wordsFrom mode word cs
  rw [hnil] at hflat
  simp_all

/-- A symbol is one word if there is one between other characters, and its case does not divide
it. -/
theorem words_eq_singleton :
    words symbol = [word] ↔
      trimmed symbol = word ∧ word ≠ [] ∧ (∀ c ∈ word, c.isAlphanum = true) ∧
        wordsFrom .none [] word = [word] := by
  constructor
  · intro h
    -- every run gives a word, so there is one run
    obtain ⟨run, hruns⟩ : ∃ run, runsFrom [] symbol = [run] := by
      cases hruns : runsFrom [] symbol with
      | nil => simp [words, hruns] at h
      | cons run runs =>
        cases runs with
        | nil => exact ⟨run, rfl⟩
        | cons run' runs =>
          have hmem : ∀ r ∈ [run, run'], wordsFrom .none [] r ≠ [] := by
            intro r hr
            have hrun : r ∈ runsFrom [] symbol := by
              rw [hruns]
              exact List.mem_append_left runs hr
            exact wordsFrom_ne_nil .none [] (ne_nil_of_mem_runsFrom hrun)
          rw [words, hruns, List.flatMap_cons, List.flatMap_cons, List.append_eq_singleton_iff] at h
          rcases h with ⟨hnil, -⟩ | ⟨-, hnil⟩
          · exact absurd hnil (hmem run (by simp))
          · exact absurd (List.append_eq_nil_iff.mp hnil).1 (hmem run' (by simp))
    obtain ⟨hne, hframed⟩ := framed_of_runsFrom hruns
    have hrun : wordsFrom .none [] run = [word] := by simpa [words, hruns] using h
    have hword : run = word := by simpa [hrun] using (flatten_wordsFrom .none [] run).symm
    subst hword
    have halphanum : ∀ c ∈ run, c.isAlphanum = true :=
      isAlphanum_of_mem_runsFrom (by simp) (hruns ▸ List.mem_singleton_self run)
    exact ⟨hframed.trimmed_eq hne halphanum, hne, halphanum, hrun⟩
  · rintro ⟨rfl, hne, halphanum, hword⟩
    rw [words, (framed_trimmed symbol).runsFrom_eq hne halphanum, List.flatMap_singleton, hword]

/-- What has no underscore is joined from one word. -/
theorem eq_singleton_of_joined {case : Char → Char} {ws : List (List Char)} {s : String}
    (h : joined case ws = s) (hne : s ≠ "") (hs : '_' ∉ s.toList) :
    ∃ w, ws = [w] ∧ w.map case = s.toList := by
  subst h
  unfold joined at hne hs ⊢
  match ws with
  | [] => exact absurd rfl hne
  | [w] => exact ⟨w, rfl, by simp⟩
  | w :: v :: ws =>
    rw [List.map_cons, String.intercalate_cons_of_ne_nil (by simp)] at hs
    simp [String.toList_append] at hs

/-- Joined words have the characters of the words, in the case given, and underscores. -/
theorem of_mem_joined {case : Char → Char} {ws : List (List Char)} {c : Char}
    (h : c ∈ (joined case ws).toList) : c = '_' ∨ ∃ w ∈ ws, ∃ d ∈ w, c = case d := by
  unfold joined at h
  induction ws with
  | nil => simp at h
  | cons w ws ih =>
    have hhere : c ∈ w.map case → ∃ v ∈ w :: ws, ∃ d ∈ v, c = case d := by
      intro hc
      obtain ⟨d, hd, rfl⟩ := List.mem_map.mp hc
      exact ⟨w, List.mem_cons_self, d, hd, rfl⟩
    rw [List.map_cons] at h
    by_cases hws : ws = []
    · rw [hws, List.map_nil, String.intercalate_singleton, String.toList_ofList] at h
      exact .inr (hhere h)
    · rw [String.intercalate_cons_of_ne_nil (by simpa using hws)] at h
      simp only [String.toList_append, String.toList_ofList, List.mem_append] at h
      rcases h with (h | h) | h
      · exact .inr (hhere h)
      · exact .inl (List.mem_singleton.mp h)
      · refine (ih h).imp_right ?_
        rintro ⟨v, hv, hc⟩
        exact ⟨v, List.mem_cons_of_mem w hv, hc⟩

theorem joined_singleton (case : Char → Char) (w : List Char) :
    (joined case [w]).toList = w.map case := by
  simp [joined]

/-! ## Names without a number -/

/-- A name is given as it is if it is not used before. -/
theorem mem_freshAll {used bases : List String} {name : String} (h : name ∈ bases) :
    name ∈ used ∨ name ∈ freshAll used bases := by
  induction bases generalizing used with
  | nil => cases h
  | cons base bases ih =>
    rw [freshAll]
    by_cases hname : name = base
    · subst hname
      by_cases hused : name ∈ used
      · exact .inl hused
      · rw [fresh_of_not_mem hused]
        exact .inr List.mem_cons_self
    · have hrest : name ∈ fresh used base :: used ∨
          name ∈ freshAll (fresh used base :: used) bases :=
        ih ((List.mem_cons.mp h).resolve_left hname)
      rcases hrest with hused | hmem
      · rcases List.mem_cons.mp hused with rfl | hused
        · exact .inr List.mem_cons_self
        · exact .inl hused
      · exact .inr (List.mem_cons_of_mem _ hmem)

theorem of_mem_freshAll {used bases : List String} {name : String}
    (h : name ∈ freshAll used bases) :
    name ∈ bases ∨ ∃ base, ∃ n : Nat, name = base ++ "_" ++ toString n := by
  induction bases generalizing used with
  | nil => cases h
  | cons base bases ih =>
    rw [freshAll] at h
    rcases List.mem_cons.mp h with rfl | h
    · by_cases hused : base ∈ used
      · obtain ⟨n, -, heq, -⟩ := fresh_of_mem hused
        exact .inr ⟨base, n, heq⟩
      · rw [fresh_of_not_mem hused]
        exact .inl List.mem_cons_self
    · exact (ih h).imp_left (List.mem_cons_of_mem base)

end SafeIR.Artifact
