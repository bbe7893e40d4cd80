import Mathlib.Data.List.Nodup
import Mathlib.Data.List.Perm.Subperm
import SafeIR.Proofs.Artifact.Identifier
import SafeIR.Proofs.Text.Letter

/-!
# Names of generated functions

A generated module is one namespace: its functions, the inner functions of those that allocate, the
function that makes a context and the context that every function takes. `Identifier` says what a
function may be called there. The identifiers made from symbols are such names
(`functionIdent_identifier`), and stay so when a number is put behind them. The search for that
number ends: the names used are finitely many and the numbers make different names of one base
(`fresh_of_mem`).
-/

namespace SafeIR.Artifact

variable {name base : String} {m : IR.Module} {used : List String}

/-! ## Identifiers -/

/-- The words that nothing may be called in the target language: those that have a meaning and those
that are kept for later, in all its editions. -/
def unusable : List String := [
  "as", "async", "await", "break", "const", "continue", "crate", "dyn", "else", "enum", "extern",
  "false", "fn", "for", "if", "impl", "in", "let", "loop", "match", "mod", "move", "mut", "pub",
  "ref", "return", "self", "Self", "static", "struct", "super", "trait", "true", "type", "unsafe",
  "use", "where", "while", "abstract", "become", "box", "do", "final", "gen", "macro", "override",
  "priv", "try", "typeof", "unsized", "virtual", "yield"]

/-- The characters of identifiers of functions. -/
def isNameChar (c : Char) : Bool := c.isLower || c.isDigit || c == '_'

/-- A function may be called so: it is a word of small letters, digits and underscores that starts
with a letter and that the language leaves free. -/
structure Identifier (name : String) : Prop where
  starts : ∃ c cs, name.toList = c :: cs ∧ c.isLower = true
  chars : ∀ c ∈ name.toList, isNameChar c = true
  free : name ∉ unusable

theorem toLower_alphanum {c : Char} (h : c.isAlphanum = true) :
    c.toLower.isLower = true ∨ c.toLower.isDigit = true := by
  by_cases hupper : c.isUpper = true
  · -- a capital becomes the small letter 32 places behind it
    left
    have hrange := Text.isUpper_iff.mp hupper
    rw [Text.isLower_iff, Text.toNat_toLower, if_pos hupper]
    omega
  · have heq : c.toLower = c := by rw [← Char.toNat_inj, Text.toNat_toLower, if_neg hupper]
    rw [heq]
    exact (Text.isAlphanum_iff.mp h).resolve_left hupper

/-- Words are not empty: a word that a second capital ends has the first one. -/
theorem ne_nil_of_mem_wordsFrom {mode : Mode} {word cs w : List Char}
    (hmode : mode = .upper → word ≠ []) (hw : w ∈ wordsFrom mode word cs) : w ≠ [] := by
  fun_induction wordsFrom mode word cs with
  | case1 => simp at hw
  | case2 mode word hword =>
    rw [List.mem_singleton.mp hw]
    simpa using hword
  | case3 mode word c =>
    rw [List.mem_singleton.mp hw]
    simp
  | case4 mode word c next rest h ih =>
    rcases List.mem_cons.mp hw with rfl | hw
    · simp
    · exact ih (by simp) hw
  | case5 mode word c next rest h h' ih =>
    rcases List.mem_cons.mp hw with rfl | hw
    · simpa using hmode h'.1
    · exact ih (by simp) hw
  | case6 mode word c next rest h h' ih => exact ih (fun _ => by simp) hw

theorem ne_nil_of_mem_words {symbol w : List Char} (hw : w ∈ words symbol) : w ≠ [] := by
  obtain ⟨run, -, hw⟩ := List.mem_flatMap.mp hw
  exact ne_nil_of_mem_wordsFrom (by simp) hw

/-- Of words in lower case, joined, the first character is that of a word, and all are characters of
names. -/
theorem joined_chars {ws : List (List Char)} (hnil : ∀ w ∈ ws, w ≠ [])
    (halphanum : ∀ w ∈ ws, ∀ c ∈ w, c.isAlphanum = true) :
    (∀ c, (joined Char.toLower ws).toList.head? = some c → c.isLower = true ∨ c.isDigit = true) ∧
      ∀ c ∈ (joined Char.toLower ws).toList, isNameChar c = true := by
  unfold joined
  induction ws with
  | nil => simp
  | cons w ws ih =>
    obtain ⟨-, hrest⟩ := ih (fun v hv => hnil v (List.mem_cons_of_mem w hv))
      fun v hv => halphanum v (List.mem_cons_of_mem w hv)
    obtain ⟨c, cs, rfl⟩ := List.exists_cons_of_ne_nil (hnil w List.mem_cons_self)
    have hword : ∀ d ∈ (c :: cs).map Char.toLower, isNameChar d = true := by
      intro d hd
      obtain ⟨e, he, rfl⟩ := List.mem_map.mp hd
      rcases toLower_alphanum (halphanum _ List.mem_cons_self e he) with h | h
      · simp [isNameChar, h]
      · simp [isNameChar, h]
    have hhead := toLower_alphanum (halphanum _ List.mem_cons_self c List.mem_cons_self)
    rw [List.map_cons]
    by_cases hws : ws = []
    · rw [hws, List.map_nil, String.intercalate_singleton, String.toList_ofList]
      refine ⟨?_, hword⟩
      rintro d ⟨⟩
      exact hhead
    · rw [String.intercalate_cons_of_ne_nil (by simpa using hws)]
      simp only [String.toList_append, String.toList_ofList]
      constructor
      · rintro d ⟨⟩
        exact hhead
      · intro d hd
        rcases List.mem_append.mp hd with hd | hd
        · rcases List.mem_append.mp hd with hd | hd
          · exact hword d hd
          · rw [List.mem_singleton.mp hd]
            rfl
        · exact hrest d hd

/-! ## Functions -/

theorem isNameChar_of_mem_toString {n : Nat} {c : Char} (h : c ∈ (toString n).toList) :
    isNameChar c = true := by
  rw [Nat.toString_eq_ofList_toDigits, String.toList_ofList] at h
  simp [isNameChar, Nat.isDigit_of_mem_toDigits (by decide) (by decide) h]

/-- No word that is kept has an underscore. -/
theorem not_mem_unusable (h : '_' ∈ name.toList) : name ∉ unusable := by
  have hnone : ∀ word ∈ unusable, '_' ∉ word.toList := by decide +kernel
  exact fun hmem => hnone name hmem h

/-- An identifier stays one with an underscore and more characters of names behind it. -/
theorem Identifier.append {tail : String} (h : Identifier name)
    (htail : ∀ c ∈ tail.toList, isNameChar c = true) : Identifier (name ++ "_" ++ tail) := by
  obtain ⟨c, cs, hname, hc⟩ := h.starts
  refine ⟨⟨c, cs ++ ['_'] ++ tail.toList, ?_, hc⟩, ?_, not_mem_unusable ?_⟩
  · simp [String.toList_append, hname]
  · intro d hd
    simp only [String.toList_append, List.mem_append] at hd
    rcases hd with (hd | hd) | hd
    · exact h.chars d hd
    · rw [List.mem_singleton.mp hd]
      rfl
    · exact htail d hd
  · simp [String.toList_append]

/-- The words that are kept are in the table, but for one with a capital. -/
theorem mem_keywords_of_unusable (h : name ∈ unusable) (hname : name ≠ "Self") :
    name ∈ keywords := by
  have hall : ∀ word ∈ unusable, word = "Self" ∨ word ∈ keywords := by decide +kernel
  exact (hall name h).resolve_left hname

/-- The name made of any symbol is an identifier. -/
theorem functionIdent_identifier (index : Nat) (name : String) (demangled : Option String) :
    Identifier (functionIdent index name demangled) := by
  unfold functionIdent
  extract_lets source plain ident safe
  have hplain : (∀ c, plain.toList.head? = some c → c.isLower = true ∨ c.isDigit = true) ∧
      ∀ c ∈ plain.toList, isNameChar c = true :=
    joined_chars (fun w hw => ne_nil_of_mem_words hw) fun w hw => isAlphanum_of_mem_words hw
  -- a symbol without words is numbered
  have hident : (∃ c cs, ident.toList = c :: cs ∧ (c.isLower = true ∨ c.isDigit = true)) ∧
      ∀ c ∈ ident.toList, isNameChar c = true := by
    unfold ident
    split
    next =>
      have hword : "func_".toList = ['f', 'u', 'n', 'c', '_'] := rfl
      rw [String.toList_append, hword]
      exact ⟨⟨'f', _, rfl, .inl rfl⟩, List.forall_mem_append.mpr
        ⟨List.all_eq_true.mp (by decide), fun c => isNameChar_of_mem_toString⟩⟩
    next hempty =>
      obtain ⟨c, cs, hcs⟩ : ∃ c cs, plain.toList = c :: cs := by
        refine List.exists_cons_of_ne_nil fun hnil => hempty ?_
        simpa using hnil
      exact ⟨⟨c, cs, hcs, hplain.1 c (by rw [hcs]; rfl)⟩, hplain.2⟩
  -- a letter is put before a digit
  have hsafe : (∃ c cs, safe.toList = c :: cs ∧ c.isLower = true) ∧
      ∀ c ∈ safe.toList, isNameChar c = true := by
    obtain ⟨⟨c, cs, hcs, hc⟩, hchars⟩ := hident
    unfold safe
    split
    next =>
      have hword : "f_".toList = ['f', '_'] := rfl
      rw [String.toList_append, hword]
      exact ⟨⟨'f', _, rfl, rfl⟩,
        List.forall_mem_append.mpr ⟨List.all_eq_true.mp (by decide), hchars⟩⟩
    next hdigit =>
      refine ⟨⟨c, cs, hcs, hc.resolve_right fun h => hdigit ?_⟩, hchars⟩
      simp [hcs, h]
  split
  next =>
    -- no kept word ends with an underscore
    obtain ⟨⟨c, cs, hcs, hc⟩, hchars⟩ := hsafe
    refine ⟨⟨c, cs ++ ['_'], by simp [String.toList_append, hcs], hc⟩, ?_, not_mem_unusable ?_⟩
    · rw [String.toList_append]
      exact List.forall_mem_append.mpr ⟨hchars, List.all_eq_true.mp (by decide)⟩
    · simp [String.toList_append]
  next hkeyword =>
    refine ⟨hsafe.1, hsafe.2, fun hmem => hkeyword ?_⟩
    have hself : safe ≠ "Self" := by
      intro heq
      have hcapital := hsafe.2 'S' (by rw [heq]; decide)
      revert hcapital
      decide
    exact List.contains_iff_mem.mpr (mem_keywords_of_unusable hmem hself)

/-! ## Different names -/

theorem numbered_injective {i j : Nat} (h : base ++ "_" ++ toString i = base ++ "_" ++ toString j) :
    i = j := by
  have htext := congrArg String.toList h
  simp only [String.toList_append, List.append_cancel_left_eq] at htext
  have hdigits := congrArg (fun ds => Nat.ofDigitChars 10 ds 0) htext
  simpa [Nat.toString_eq_ofList_toDigits] using hdigits

theorem fresh_of_not_mem (h : base ∉ used) : fresh used base = base := by
  unfold fresh
  rw [if_neg]
  simpa using h

/-- The search for a number ends, and at the first number that makes the name a new one: of one
number more than there are names, not all can be taken. -/
theorem fresh_of_mem (h : base ∈ used) :
    ∃ n, 2 ≤ n ∧ fresh used base = base ++ "_" ++ toString n ∧
      base ++ "_" ++ toString n ∉ used ∧
      ∀ k, 2 ≤ k → k < n → base ++ "_" ++ toString k ∈ used := by
  unfold fresh
  rw [if_pos (List.contains_iff_mem.mpr h), List.find?_map]
  cases hfind : (List.range (used.length + 1)).find?
      ((! used.contains ·) ∘ fun i => base ++ "_" ++ toString (i + 2)) with
  | none =>
    exfalso
    rw [List.find?_eq_none] at hfind
    have hsub : (List.range (used.length + 1)).map (fun i => base ++ "_" ++ toString (i + 2))
        ⊆ used := by
      intro name hname
      obtain ⟨i, hi, rfl⟩ := List.mem_map.mp hname
      simpa using hfind i hi
    have hnodup : ((List.range (used.length + 1)).map
        fun i => base ++ "_" ++ toString (i + 2)).Nodup := by
      refine List.nodup_range.map fun i j hij => ?_
      exact Nat.add_right_cancel (numbered_injective hij)
    have hle := (List.subperm_of_subset hnodup hsub).length_le
    rw [List.length_map, List.length_range] at hle
    omega
  | some i =>
    obtain ⟨hnew, -, hbefore⟩ := List.find?_range_eq_some.mp hfind
    refine ⟨i + 2, by omega, rfl, by simpa using hnew, fun k hk hlt => ?_⟩
    have hused := hbefore (k - 2) (by omega)
    rw [Function.comp, Nat.sub_add_cancel hk] at hused
    simpa using hused

theorem fresh_not_mem (used : List String) (base : String) : fresh used base ∉ used := by
  by_cases h : base ∈ used
  · obtain ⟨n, -, heq, hnew, -⟩ := fresh_of_mem h
    rw [heq]
    exact hnew
  · rw [fresh_of_not_mem h]
    exact h

theorem length_freshAll (used bases : List String) :
    (freshAll used bases).length = bases.length := by
  induction bases generalizing used with
  | nil => rfl
  | cons base bases ih => rw [freshAll, List.length_cons, ih, List.length_cons]

/-- Names differ from each other and from the names used before. -/
theorem freshAll_nodup (used bases : List String) :
    (freshAll used bases).Nodup ∧ ∀ name ∈ freshAll used bases, name ∉ used := by
  induction bases generalizing used with
  | nil => simp [freshAll]
  | cons base bases ih =>
    obtain ⟨hnodup, hnew⟩ := ih (fresh used base :: used)
    rw [freshAll]
    refine ⟨List.nodup_cons.mpr ⟨fun hmem => hnew _ hmem List.mem_cons_self, hnodup⟩, ?_⟩
    refine List.forall_mem_cons.mpr ⟨fresh_not_mem used base, fun name hname hused => ?_⟩
    exact hnew name hname (List.mem_cons_of_mem _ hused)

/-! ## Modules -/

/-- The functions in the order in which they are given names. -/
def namingOrder (m : IR.Module) : List IR.Function :=
  m.defined ++ m.functions.filter (·.isDeclaration)

theorem mem_namingOrder {f : IR.Function} : f ∈ namingOrder m ↔ f ∈ m.functions := by
  cases hf : f.isDeclaration <;> simp [namingOrder, IR.Module.defined, hf]

/-- The number of a function and its name, for all functions. -/
def numberedNames (m : IR.Module) : List (Nat × String) :=
  ((namingOrder m).map fun f => f.id.index).zip
    (freshAll reserved ((namingOrder m).map fun f => functionIdent f.id.index f.name f.demangled))

theorem functionNames_eq (m : IR.Module) :
    functionNames m = m.functions.map fun f => ((numberedNames m).lookup f.id.index).getD "" := rfl

/-- A name that is listed is an identifier that is not reserved. -/
theorem of_mem_numberedNames {i : Nat} (h : (i, name) ∈ numberedNames m) :
    Identifier name ∧ name ∉ reserved := by
  have hmem := (List.of_mem_zip h).2
  refine ⟨forall_mem_freshAll (fun base n hbase => ?_) (fun base hbase => ?_) name hmem,
    (freshAll_nodup _ _).2 name hmem⟩
  · exact hbase.append fun c => isNameChar_of_mem_toString
  · obtain ⟨f, -, rfl⟩ := List.mem_map.mp hbase
    exact functionIdent_identifier _ _ _

/-- A name is listed for one number only. -/
theorem numberedNames_injective {i j : Nat} (hi : (i, name) ∈ numberedNames m)
    (hj : (j, name) ∈ numberedNames m) : i = j := by
  obtain ⟨p, hp, hpi⟩ := List.mem_iff_getElem.mp hi
  obtain ⟨q, hq, hqj⟩ := List.mem_iff_getElem.mp hj
  simp only [numberedNames, List.getElem_zip, Prod.mk.injEq] at hpi hqj
  have hpq := (freshAll_nodup _ _).1.getElem_inj_iff.mp (hpi.2.trans hqj.2.symm)
  subst hpq
  exact hpi.1.symm.trans hqj.1

theorem exists_lookup {f : IR.Function} (hf : f ∈ m.functions) :
    ∃ name, (numberedNames m).lookup f.id.index = some name ∧
      (f.id.index, name) ∈ numberedNames m := by
  cases hname : (numberedNames m).lookup f.id.index with
  | none =>
    -- every function is among those that are given names
    exfalso
    have hkeys : (numberedNames m).map Prod.fst = (namingOrder m).map fun f => f.id.index :=
      List.map_fst_zip (by simp [length_freshAll])
    have hkey : f.id.index ∈ (numberedNames m).map Prod.fst := by
      rw [hkeys]
      exact List.mem_map.mpr ⟨f, mem_namingOrder.mpr hf, rfl⟩
    obtain ⟨⟨i, name⟩, hmem, rfl⟩ := List.mem_map.mp hkey
    have hne := List.lookup_eq_none_iff.mp hname _ hmem
    simp at hne
  | some name =>
    obtain ⟨xs, ys, heq, -⟩ := List.lookup_eq_some_iff.mp hname
    exact ⟨name, rfl, heq ▸ List.mem_append_right xs List.mem_cons_self⟩

theorem functionNames_identifier (m : IR.Module) :
    ∀ name ∈ functionNames m, Identifier name ∧ name ∉ reserved := by
  intro name hname
  rw [functionNames_eq] at hname
  obtain ⟨f, hf, rfl⟩ := List.mem_map.mp hname
  obtain ⟨name, hname, hmem⟩ := exists_lookup hf
  rw [hname]
  exact of_mem_numberedNames hmem

/-- No two functions have one name. -/
theorem functionNames_nodup
    (hids : ∀ (i : Nat) (f : IR.Function), m.functions[i]? = some f → f.id = ⟨i⟩) :
    (functionNames m).Nodup := by
  have hinj : ∀ f ∈ m.functions, ∀ g ∈ m.functions, f.id.index = g.id.index → f = g := by
    intro f hf g hg heq
    obtain ⟨i, hi⟩ := List.mem_iff_getElem?.mp hf
    obtain ⟨j, hj⟩ := List.mem_iff_getElem?.mp hg
    rw [hids i f hi, hids j g hj] at heq
    obtain rfl : i = j := heq
    exact Option.some.inj (hi.symm.trans hj)
  have hnodup : m.functions.Nodup := by
    rw [List.nodup_iff_getElem?_ne_getElem?]
    intro i j hij hj heq
    obtain ⟨f, hf⟩ : ∃ f, m.functions[j]? = some f := ⟨_, List.getElem?_eq_getElem hj⟩
    have hid := hids i f (heq.trans hf)
    rw [hids j f hf] at hid
    cases hid
    omega
  rw [functionNames_eq]
  refine hnodup.map_on fun f hf g hg heq => hinj f hf g hg ?_
  obtain ⟨name, hname, hmem⟩ := exists_lookup hf
  obtain ⟨name', hname', hmem'⟩ := exists_lookup hg
  rw [hname, hname', Option.getD_some, Option.getD_some] at heq
  subst heq
  exact numberedNames_injective hmem hmem'

theorem bodyName_injective {a b : String} (h : bodyName a = bodyName b) : a = b := by
  have htext := congrArg String.toList h
  simp only [bodyName, String.toList_append] at htext
  have hname := List.append_cancel_left (List.append_cancel_right htext)
  exact String.toList_inj.mp hname

/-- The name of an inner function starts with an underscore, so no function is called so. -/
theorem bodyName_not_identifier (name : String) : ¬ Identifier (bodyName name) := by
  intro h
  obtain ⟨c, cs, hcs, hc⟩ := h.starts
  have hstart : "__".toList = ['_', '_'] := rfl
  simp only [bodyName, String.toList_append, hstart, List.cons_append] at hcs
  cases hcs
  cases hc

/-- **Names are identifiers and differ.** Every function gets an identifier; these, the two names
that a generated module has in any case and the names of inner functions are all different; and the
search for a number ends whatever names are used. -/
theorem function_names_distinct (m : IR.Module)
    (hids : ∀ (i : Nat) (f : IR.Function), m.functions[i]? = some f → f.id = ⟨i⟩) :
    (∀ f ∈ m.functions, ∃ name, (functionNames m)[f.id.index]? = some name ∧ Identifier name) ∧
      (functionNames m ++ ["new_context", "ctx"] ++ (functionNames m).map bodyName).Nodup ∧
      ∀ (used : List String) (base : String), base ∈ used →
        ∃ n, 2 ≤ n ∧ fresh used base = base ++ "_" ++ toString n ∧
          base ++ "_" ++ toString n ∉ used ∧
          ∀ k, 2 ≤ k → k < n → base ++ "_" ++ toString k ∈ used := by
  refine ⟨fun f hf => ?_, ?_, fun used base => fresh_of_mem⟩
  · obtain ⟨i, hi⟩ := List.mem_iff_getElem?.mp hf
    have hname : (functionNames m)[i]?
        = some (((numberedNames m).lookup f.id.index).getD "") := by
      rw [functionNames_eq, List.getElem?_map, hi, Option.map_some]
    rw [hids i f hi] at hname ⊢
    exact ⟨_, hname, (functionNames_identifier m _ (List.mem_of_getElem? hname)).1⟩
  · rw [List.nodup_append, List.nodup_append]
    refine ⟨⟨functionNames_nodup hids, by decide, ?_⟩, ?_, ?_⟩
    · intro name hname word hword heq
      exact (functionNames_identifier m name hname).2 (heq ▸ hword)
    · exact (functionNames_nodup hids).map fun a b => bodyName_injective
    · -- neither a function nor a name that is always there starts with an underscore
      intro name hname inner hinner heq
      obtain ⟨other, -, rfl⟩ := List.mem_map.mp hinner
      refine bodyName_not_identifier other (heq ▸ ?_)
      rcases List.mem_append.mp hname with hname | hname
      · exact (functionNames_identifier m name hname).1
      · rcases List.mem_pair.mp hname with rfl | rfl
        · exact ⟨⟨'n', _, rfl, rfl⟩, List.all_eq_true.mp (by decide), by decide⟩
        · exact ⟨⟨'c', _, rfl, rfl⟩, List.all_eq_true.mp (by decide), by decide⟩

/-- Functions whose symbols say the same, or what the module says itself. -/
def namesakes : IR.Module where
  functions :=
    [("aB", false), ("a.b", true), ("ctx", false), ("a_b_2", false), ("3 x", false),
      ("loop", false)].zipIdx.map fun ((name, isDeclaration), i) =>
        { id := ⟨i⟩, name, demangled := none, params := [], ret := .void, varargs := false
          isDeclaration, values := [], blocks := [] }

/-- Where a name is taken, the next free number is put behind it. -/
theorem function_names_distinct_namesakes :
    functionNames namesakes = ["a_b", "a_b_3", "ctx_2", "a_b_2", "f_3_x", "loop_"] ∧
      (functionNames namesakes ++ ["new_context", "ctx"]
        ++ (functionNames namesakes).map bodyName).Nodup := by
  refine ⟨by decide +kernel, (function_names_distinct namesakes fun i f hf => ?_).2.1⟩
  rw [namesakes, List.getElem?_map, List.getElem?_zipIdx, Option.map_map] at hf
  obtain ⟨symbol, -, rfl⟩ := Option.map_eq_some_iff.mp hf
  simp

end SafeIR.Artifact
